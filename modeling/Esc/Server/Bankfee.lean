import Esc.Server.Wealth

/-!
# The profit of the banks

What `commit_bankfee` books on the owner accounts, in exact integers. The profits of
a block bound every intermediate value: a bank keeps or gives away part of its own
profit and receives at most two shares of the common one.
-/

namespace Esc

open Lib

/-- The profits and losses of the banks in a block, without sign. -/
def State.profits (s : State) : Int := ∑ i ∈ Finset.range s.bankFee.size, |(s.bankFee.get i).toInt|

theorem State.profits_nonneg (s : State) : 0 ≤ s.profits :=
  Finset.sum_nonneg fun _ _ => abs_nonneg _

theorem State.profit_le (s : State) (i : Nat) : |(s.bankFee.get i).toInt| ≤ s.profits := by
  by_cases hi : i < s.bankFee.size
  · exact Finset.single_le_sum (f := fun i => |(s.bankFee.get i).toInt|)
      (fun i _ => abs_nonneg _) (Finset.mem_range.mpr hi)
  · rw [s.bankFee.beyond i (not_lt.mp hi)]
    exact s.profits_nonneg

/-- Different banks together. -/
theorem State.profits_sum_le (s : State) {bs : List UInt16} (h : bs.Nodup) :
    (bs.map fun b => |(s.bankFee.get b.toNat).toInt|).sum ≤ s.profits := by
  classical
  have hinj : (bs.map UInt16.toNat).Nodup := h.map fun _ _ => UInt16.toNat_inj.mp
  have hsum := List.sum_toFinset (fun i => |(s.bankFee.get i).toInt|) hinj
  rw [List.map_map] at hsum
  refine le_of_eq_of_le hsum.symm ?_
  calc ∑ i ∈ (bs.map UInt16.toNat).toFinset, |(s.bankFee.get i).toInt|
      ≤ ∑ i ∈ (bs.map UInt16.toNat).toFinset ∪ Finset.range s.bankFee.size,
          |(s.bankFee.get i).toInt| :=
        Finset.sum_le_sum_of_subset_of_nonneg Finset.subset_union_left fun _ _ _ => abs_nonneg _
    _ = s.profits := by
        refine (Finset.sum_subset Finset.subset_union_right fun i _ hi => ?_).symm
        rw [Finset.mem_range, not_lt] at hi
        rw [s.bankFee.beyond i hi]
        rfl

/-- The running sum of the shared profits does not wrap. -/
theorem State.abs_profit_fold_le (s : State) {bs : List UInt16} {x : Int64}
    (hmax : 4 * s.profits + 2 ^ 32 ≤ ledgerMax)
    (h : |x.toInt| + (bs.map fun b => |(s.bankFee.get b.toNat).toInt|).sum ≤ s.profits) :
    |(bs.foldl (fun sum b => sum + s.bankFee.get b.toNat) x).toInt| ≤ s.profits := by
  rw [ledgerMax] at hmax
  induction bs generalizing x with
  | nil => simpa using h
  | cons b bs ih =>
      rw [List.map_cons, List.sum_cons] at h
      have hrest : 0 ≤ (bs.map fun b => |(s.bankFee.get b.toNat).toInt|).sum := by
        refine List.sum_nonneg fun y hy => ?_
        obtain ⟨b', -, rfl⟩ := List.mem_map.mp hy
        exact abs_nonneg _
      have hadd := abs_add_le x.toInt (s.bankFee.get b.toNat).toInt
      have hexact :
          (x + s.bankFee.get b.toNat).toInt = x.toInt + (s.bankFee.get b.toNat).toInt := by
        refine toInt_add ?_
        rw [Lib.Fits]
        have := abs_le.mp hadd
        omega
      refine ih ?_
      rw [hexact]
      omega

theorem nodup_sharingNodes {s : State} (h : s.srvs.nodes.size ≤ bankMax) :
    (sharingNodes s).Nodup :=
  ((List.perm_insertionSort _ _).nodup_iff.mpr (State.nodup_banks h)).sublist
    (List.take_sublist _ _)

/-- A bank receives at most two shares. -/
theorem count_receivingNodes_le {s : State} (h : s.srvs.nodes.size ≤ bankMax) (svid : UInt16) :
    (receivingNodes s).count svid ≤ 2 := by
  rw [receivingNodes, List.count_append]
  have hvip := List.nodup_iff_count_le_one.mp ((State.nodup_banks h).filter
    fun i => hasBit (s.srvs.node i).status serverVip) svid
  have hshare := List.nodup_iff_count_le_one.mp ((nodup_sharingNodes h).filter
    fun i => !hasBit (s.srvs.node i).status serverDbl &&
      !(0 < (s.srvs.node i).mtim && (s.srvs.node i).mtim < s.srvs.now - blockDiv * blockSec)) svid
  omega

theorem sharedProfit_bounds (x : Int64) :
    |(sharedProfit x).toInt| ≤ |x.toInt| ∧ (0 ≤ x.toInt → 0 ≤ (sharedProfit x).toInt) := by
  have hfive : (5 : Int64).toInt = 5 := by decide
  have htwo : (2 : Int64).toInt = 2 := by decide
  have hdiv : (x / 5).toInt = x.toInt.tdiv 5 := by rw [toInt_tdiv x (by decide), hfive]
  have habs := Int.natAbs_tdiv x.toInt 5
  have hfifth : (x.toInt.tdiv 5).natAbs * 5 ≤ x.toInt.natAbs := by
    rw [habs]
    exact Nat.div_mul_le_self _ _
  obtain ⟨hlow, hhigh⟩ := fits_toInt x
  have hmul : (sharedProfit x).toInt = x.toInt.tdiv 5 * 2 := by
    rw [sharedProfit, toInt_mul, hdiv, htwo]
    rw [hdiv, htwo]
    exact ⟨by omega, by omega⟩
  rw [hmul]
  refine ⟨by rw [Int.abs_eq_natAbs, Int.abs_eq_natAbs]; omega, fun hx => ?_⟩
  have := Int.tdiv_nonneg hx (b := 5) (by omega)
  omega

theorem length_receivingNodes_lt {s : State} (h : s.srvs.nodes.size ≤ bankMax) :
    (receivingNodes s).length < 2 ^ 62 := by
  have hbanks : s.banks.length ≤ bankMax := by
    rw [State.banks, List.length_map, List.length_tail, List.length_range]
    omega
  have hvip := (s.banks.length_filter_le fun i => hasBit (s.srvs.node i).status serverVip)
  have hshare : (sharingNodes s).length ≤ sharedProfitNodes := List.length_take_le _ _
  have hopen := (sharingNodes s).length_filter_le fun i =>
    !hasBit (s.srvs.node i).status serverDbl &&
      !(0 < (s.srvs.node i).mtim && (s.srvs.node i).mtim < s.srvs.now - blockDiv * blockSec)
  rw [receivingNodes, List.length_append]
  rw [bankMax] at hbanks
  rw [sharedProfitNodes] at hshare
  omega

/-- One share is at most the profits of the block. -/
theorem bankFeeShare_bounds {s : State} (h : s.srvs.nodes.size ≤ bankMax)
    (hmax : 4 * s.profits + 2 ^ 32 ≤ ledgerMax) (hne : receivingNodes s ≠ []) :
    0 ≤ (bankFeeShare s).toInt ∧ (bankFeeShare s).toInt ≤ s.profits := by
  have hsum : |((sharingNodes s).foldl (fun sum b => sum + s.bankFee.get b.toNat) 0).toInt| ≤
      s.profits := by
    refine s.abs_profit_fold_le hmax ?_
    rw [Int64.toInt_zero, abs_zero, zero_add]
    exact s.profits_sum_le (nodup_sharingNodes h)
  rw [bankFeeShare]
  generalize (sharingNodes s).foldl (fun sum b => sum + s.bankFee.get b.toNat) 0 = sum at hsum
  have hclamp : 0 ≤ (if sum < 0 then 0 else sum : Int64).toInt ∧
      (if sum < 0 then 0 else sum : Int64).toInt ≤ s.profits := by
    have hle := abs_le.mp hsum
    split
    · exact ⟨le_rfl, s.profits_nonneg⟩
    · rename_i hlt
      rw [Int64.lt_iff_toInt_lt, Int64.toInt_zero] at hlt
      exact ⟨by omega, hle.2⟩
  generalize (if sum < 0 then 0 else sum : Int64) = x at hclamp
  have hpos : 0 < (receivingNodes s).length := List.length_pos_iff.mpr hne
  have hlen : (Int64.ofNat (receivingNodes s).length).toInt = (receivingNodes s).length :=
    Int64.toInt_ofNat_of_lt (by have := length_receivingNodes_lt h; omega)
  have hdiv := toInt_div (b := Int64.ofNat (receivingNodes s).length) hclamp.1 (by omega)
  rw [hlen] at hdiv
  have hquot : x.toInt / (receivingNodes s).length ≤ x.toInt := Int.ediv_le_self _ hclamp.1
  have hquot0 : 0 ≤ x.toInt / (receivingNodes s).length := Int.ediv_nonneg hclamp.1 (by omega)
  obtain ⟨habs, hsign⟩ := sharedProfit_bounds (x / Int64.ofNat (receivingNodes s).length)
  rw [hdiv, abs_of_nonneg hquot0] at habs
  have hle := abs_le.mp habs
  exact ⟨hsign (by omega), by omega⟩

/-- The fee on a dividend. -/
theorem dividend_profit_bounds (v : Servers) (u : User) :
    0 ≤ (bankProfit (dividend v u 0).2.2).toInt ∧
      (bankProfit (dividend v u 0).2.2).toInt ≤ 4000000 := by
  by_cases h : dividendDue v u
  · rw [dividend_of_due 0 h]
    dsimp only
    split <;> decide
  · rw [dividend_of_not_due 0 h]
    dsimp only
    decide

theorem bankUserFee_bounds (users : UInt32) :
    0 ≤ (bankUserFee users).toInt ∧ (bankUserFee users).toInt < 2 ^ 42 := by
  have hlt := users.toNat_lt
  have hthousand : (1000 : Int64).toInt = 1000 := by decide
  have hcast : (Int64.ofNat users.toNat).toInt = users.toNat :=
    Int64.toInt_ofNat_of_lt (by omega)
  have hmul : (bankUserFee users).toInt = 1000 * users.toNat := by
    rw [bankUserFee, toInt_mul, hthousand, hcast]
    rw [hthousand, hcast]
    exact ⟨by omega, by omega⟩
  rw [hmul]
  omega

/-- What a bank gives away and receives. -/
theorem netFeeShare_bounds {s : State} {sharing receiving : List UInt16} {share : Int64}
    {svid : UInt16} {total : Int} (hfee : |(s.bankFee.get svid.toNat).toInt| ≤ total)
    (hmax : 4 * total + 2 ^ 32 ≤ ledgerMax) (hshare : 0 ≤ share.toInt ∧ share.toInt ≤ total)
    (hcount : receiving.count svid ≤ 2) :
    -total ≤ (netFeeShare s sharing receiving share svid).toInt ∧
      (netFeeShare s sharing receiving share svid).toInt ≤ 3 * total := by
  rw [ledgerMax] at hmax
  rw [netFeeShare]
  have hown : |(if svid ∈ sharing then -sharedProfit (s.bankFee.get svid.toNat) else 0 :
      Int64).toInt| ≤ total := by
    have hle := (sharedProfit_bounds (s.bankFee.get svid.toNat)).1.trans hfee
    have habs := abs_le.mp hle
    split
    · rw [toInt_neg ⟨by omega, by omega⟩, abs_neg]
      exact hle
    · rw [Int64.toInt_zero, abs_zero]
      omega
  generalize receiving.count svid = n at hcount
  have hcast : (Int64.ofNat n).toInt = n := Int64.toInt_ofNat_of_lt (by omega)
  have hprod : 0 ≤ share.toInt * n ∧ share.toInt * n ≤ 2 * total := by
    interval_cases n <;> omega
  have hmul : (share * Int64.ofNat n).toInt = share.toInt * n := by
    rw [toInt_mul, hcast]
    rw [hcast]
    exact ⟨by omega, by omega⟩
  have habs := abs_le.mp hown
  rw [toInt_add ⟨by omega, by omega⟩, hmul]
  omega

/-- What a bank is credited lies between its balance and the profits of the block. -/
theorem bankfeeAmount_bounds {s : State} {sharing receiving : List UInt16} {share : Int64}
    {svid : UInt16} {total : Int} (hfee : |(s.bankFee.get svid.toNat).toInt| ≤ total)
    (hmax : 4 * total + 2 ^ 32 ≤ ledgerMax) (hshare : 0 ≤ share.toInt ∧ share.toInt ≤ total)
    (hcount : receiving.count svid ≤ 2)
    (hw : 0 ≤ (dividend s.srvs (s.record svid 0) 0).2.1.weight.toInt) :
    -(dividend s.srvs (s.record svid 0) 0).2.1.weight.toInt ≤
        (bankfeeAmount s sharing receiving share svid).toInt ∧
      (bankfeeAmount s sharing receiving share svid).toInt ≤ 4 * total + 2 ^ 32 := by
  have hnet := @netFeeShare_bounds s sharing receiving share svid total hfee hmax hshare hcount
  have hprofit := dividend_profit_bounds s.srvs (s.record svid 0)
  have huser := bankUserFee_bounds (s.srvs.node svid).users
  have habs := abs_le.mp hfee
  rw [ledgerMax] at hmax
  rw [bankfeeAmount]
  generalize dividend s.srvs (s.record svid 0) 0 = r at hw hprofit
  generalize netFeeShare s sharing receiving share svid = net at hnet
  have hget : |(((s.bankFee.modify svid.toNat (· + net)).modify svid.toNat
      (· + bankProfit r.2.2)).get svid.toNat).toInt| ≤ 4 * total + 4000000 := by
    by_cases hlt : svid.toNat < s.bankFee.size
    · have hsum : (s.bankFee.get svid.toNat + net).toInt =
          (s.bankFee.get svid.toNat).toInt + net.toInt := toInt_add ⟨by omega, by omega⟩
      rw [Table.get_modify_self _ _ (by exact hlt), Table.get_modify_self _ _ hlt,
        toInt_add (by rw [hsum]; exact ⟨by omega, by omega⟩), hsum, abs_le]
      exact ⟨by omega, by omega⟩
    · rw [Table.get_modify, if_neg fun hi => hlt hi.2, Table.get_modify, if_neg fun hi => hlt hi.2]
      exact hfee.trans (by omega)
  generalize Table.get ((s.bankFee.modify svid.toNat (· + net)).modify svid.toNat
    (· + bankProfit r.2.2)) svid.toNat = fees at hget
  have hfees := abs_le.mp hget
  have hsub : (fees - bankUserFee (s.srvs.node svid).users).toInt =
      fees.toInt - (bankUserFee (s.srvs.node svid).users).toInt := toInt_sub ⟨by omega, by omega⟩
  have hneg : (-r.2.1.weight).toInt = -r.2.1.weight.toInt :=
    toInt_neg ⟨by have := (fits_toInt r.2.1.weight).2; omega, by omega⟩
  split
  · rw [hneg]
    omega
  · rename_i hlt
    rw [Int64.lt_iff_toInt_lt, hneg, hsub] at hlt
    rw [hsub]
    omega

/-- The state `s₁` after the profits of the banks `pre` have been booked. -/
structure FeesBooked (s : State) (pre : List UInt16) (s₁ : State) : Prop where
  shape : SameShape s s₁
  weight : ∀ b i, 0 ≤ ((s₁.usr b).get i).weight.toInt
  deposit : s₁.deposit = s.deposit
  usr : ∀ b, b ∉ pre → s₁.usr b = s.usr b
  fee : ∀ b : UInt16, b ∉ pre → s₁.bankFee.get b.toNat = s.bankFee.get b.toNat

theorem bankfeeStep_booked {env : Env} {s s₁ : State} {pre : List UInt16} {svid : UInt16}
    (buf : User) (h : FeesBooked s pre s₁) (hs : Solvent s) (hbanks : s.srvs.nodes.size ≤ bankMax)
    (hne : receivingNodes s ≠ []) (hmax : s.wealth + 4 * s.profits + 2 ^ 32 ≤ ledgerMax)
    (hpre : svid ∉ pre) (hbank : svid.toNat < s.srvs.nodes.size) (hfile : s.onFile svid 0) :
    FeesBooked s (pre ++ [svid]) (bankfeeStep env (sharingNodes s) (receivingNodes s)
      (bankFeeShare s) (s₁, buf) svid).1 := by
  have hholding := hs.holding_le svid 0
  have hdeposits := hs.depositTotal_nonneg
  have hprofits := s.profits_nonneg
  rw [State.wealth] at hmax
  have hrecord : s₁.record svid 0 = (s.usr svid).get 0 := by rw [State.record, h.usr svid hpre]; rfl
  rw [← holding_congr h.shape.now h.shape.div, ← hrecord] at hholding
  have hw : 0 ≤ (s₁.record svid 0).weight.toInt := h.weight svid 0
  have hnonneg := holding_nonneg (v := s₁.srvs) hw
  have hpaid := (dividend_exact 0 hw (v := s₁.srvs) (by rw [← holding]; omega)).2.1
  have hfees : |(s₁.bankFee.get svid.toNat).toInt| ≤ s.profits := by
    rw [h.fee svid hpre]
    exact s.profit_le _
  obtain ⟨u, hpost, hdep, hfee⟩ := bankfeeStep_posting env (sharingNodes s) (receivingNodes s)
    (bankFeeShare s) buf (h.shape.size ▸ hbank) (h.shape.onFile hfile)
  obtain ⟨hlow, hhigh⟩ := @bankfeeAmount_bounds _ (sharingNodes s) _ _ _ _ hfees (by omega)
    (bankFeeShare_bounds hbanks (by omega) hne) (count_receivingNodes_le hbanks svid) hpaid
  have hnew := (hpost.weight_exact hw (by omega) (by omega) (by rw [ledgerMax] at hmax; omega)).1
  refine ⟨h.shape.trans hpost.shape, ?_, hdep.trans h.deposit, ?_, ?_⟩
  · intro b i
    rw [hpost.get_usr]
    split
    · exact hnew
    · exact h.weight b i
  · intro b hb
    rw [List.mem_append, List.mem_singleton, not_or] at hb
    rw [hpost.usr, Function.update_of_ne hb.2, h.usr b hb.1]
  · intro b hb
    rw [List.mem_append, List.mem_singleton, not_or] at hb
    rw [hfee b hb.2, h.fee b hb.1]

/-- Booking the profits leaves no balance negative. -/
theorem commitBankfee_solvent {env : Env} {s s' : State} (hs : Solvent s)
    (hbanks : s.srvs.nodes.size ≤ bankMax) (howner : ∀ b ∈ s.banks, s.onFile b 0)
    (hmax : s.wealth + 4 * s.profits + 2 ^ 32 ≤ ledgerMax) (h : commitBankfee env s = some s') :
    Solvent s' ∧ SameShape s s' ∧ s'.deposit = s.deposit := by
  rw [commitBankfee] at h
  split at h
  · cases h
  rename_i hne
  cases h
  have hend : FeesBooked s s.banks (s.banks.foldl
      (bankfeeStep env (sharingNodes s) (receivingNodes s) (bankFeeShare s)) (s, env.junk)).1 := by
    refine foldl_invariant (fun pre (acc : State × User) => FeesBooked s pre acc.1)
      ⟨.refl s, hs.weight, rfl, fun _ _ => rfl, fun _ _ => rfl⟩ ?_
    rintro pre svid post ⟨s₁, buf⟩ hsplit hbooked
    have hmem : svid ∈ s.banks := hsplit ▸ List.mem_append_right pre List.mem_cons_self
    have hnodup := State.nodup_banks hbanks
    rw [← hsplit] at hnodup
    have hpre : svid ∉ pre := fun hin =>
      (List.nodup_append.mp hnodup).2.2 svid hin svid List.mem_cons_self rfl
    exact bankfeeStep_booked buf hbooked hs hbanks hne hmax hpre (State.lt_of_mem_banks hmem)
      (howner svid hmem)
  refine ⟨⟨hend.weight, fun k => ?_⟩, ?_, hend.deposit⟩
  · have hval := congrArg (fun d : Map UInt64 Int64 => (d.val k).toInt) hend.deposit
    exact hval ▸ hs.deposit k
  · exact ⟨hend.shape.now, hend.shape.div, hend.shape.size, hend.shape.users, hend.shape.files,
      hend.shape.msgUndo, hend.shape.blk⟩

end Esc
