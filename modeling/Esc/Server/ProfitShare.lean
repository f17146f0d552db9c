import Esc.Server.Bankfee

/-!
# The shared profit of the banks

The sharing nodes give away two fifths of their profit of the block, and the receiving
nodes get equal parts of two fifths of the sum. The first amounts are truncated one by
one, also those of negative profits, and the sum is clipped at zero before it is divided.

Node ids have 16 bits, so there are at most `bankMax` nodes.
-/

namespace Esc

open Lib

/-- The values of `net_fee_share` in the loop of `commit_bankfee`. -/
def netFeeShares (env : Env) (s : State) : List Int64 :=
  (s.banks.foldl (fun (acc : (State × User) × List Int64) svid =>
    (bankfeeStep env (sharingNodes s) (receivingNodes s) (bankFeeShare s) acc.1 svid,
      acc.2 ++ [netFeeShare acc.1.1 (sharingNodes s) (receivingNodes s) (bankFeeShare s) svid]))
    ((s, env.junk), [])).2

/-- The profit of the sharing nodes. -/
def sharedFees (s : State) : Int :=
  ((sharingNodes s).map fun b => (s.bankFee.get b.toNat).toInt).sum

/-- What is lost by taking a fifth of each of the profits. -/
def sharedRests (s : State) : Int :=
  ((sharingNodes s).map fun b => (s.bankFee.get b.toNat).toInt.tmod 5).sum

/-- The sum of the profits as the code has it: in 64 bits and not negative. -/
def clippedFees (s : State) : Int := max ((sharedFees s).bmod (2 ^ 64)) 0

/-- The truncation of the parts costs no more than the truncation of the whole. -/
def SharesCovered (s : State) : Prop :=
  sharedRests s + (clippedFees s - clippedFees s % (5 * (receivingNodes s).length)) ≤ sharedFees s

instance (s : State) : Decidable (SharesCovered s) := inferInstanceAs (Decidable (_ ≤ _))

theorem bankfeeStep_bankFee (env : Env) (sharing receiving : List UInt16) (share : Int64)
    (acc : State × User) {svid b : UInt16} (hb : b ≠ svid) :
    (bankfeeStep env sharing receiving share acc svid).1.bankFee.get b.toNat =
      acc.1.bankFee.get b.toNat := by
  obtain ⟨s, buf⟩ := acc
  have hne : b.toNat ≠ svid.toNat := fun h => hb (UInt16.toNat_inj.mp h)
  simp only [bankfeeStep, State.addFee, State.logDividend]
  obtain ⟨o, ho⟩ := State.callOffice_eq env _ svid _
  rw [ho, State.saveUndo_bankFee, State.bookUser_bankFee]
  dsimp only
  rw [Table.get_modify_ne _ _ hne, Table.get_modify_ne _ _ hne]

/-- Each bank is visited once, so the loop computes with the profits of the block. -/
theorem netFeeShares_eq (env : Env) {s : State} (hbanks : s.srvs.nodes.size ≤ bankMax) :
    netFeeShares env s =
      s.banks.map (netFeeShare s (sharingNodes s) (receivingNodes s) (bankFeeShare s)) := by
  have hnodup := State.nodup_banks hbanks
  refine (foldl_invariant (fun pre (acc : (State × User) × List Int64) =>
    acc.2 = pre.map (netFeeShare s (sharingNodes s) (receivingNodes s) (bankFeeShare s)) ∧
      ∀ b : UInt16, b ∉ pre → acc.1.1.bankFee.get b.toNat = s.bankFee.get b.toNat)
    ⟨rfl, fun _ _ => rfl⟩ ?_).1
  rintro pre svid post acc hsplit ⟨hshares, hfees⟩
  rw [← hsplit] at hnodup
  have hpre : svid ∉ pre := fun hin =>
    (List.nodup_append.mp hnodup).2.2 svid hin svid List.mem_cons_self rfl
  refine ⟨?_, ?_⟩
  · rw [hshares, List.map_append, List.map_singleton, netFeeShare, hfees svid hpre]
    rfl
  · intro b hb
    rw [List.mem_append, List.mem_singleton, not_or] at hb
    rw [bankfeeStep_bankFee env _ _ _ _ hb.2, hfees b hb.1]

section Exact

variable {s : State}

theorem toInt_sharedProfit (x : Int64) : (sharedProfit x).toInt = x.toInt.tdiv 5 * 2 := by
  have hfive : (5 : Int64).toInt = 5 := by decide
  have htwo : (2 : Int64).toInt = 2 := by decide
  have hdiv : (x / 5).toInt = x.toInt.tdiv 5 := by rw [toInt_tdiv x (by decide), hfive]
  have hfifth : (x.toInt.tdiv 5).natAbs * 5 ≤ x.toInt.natAbs := by
    rw [Int.natAbs_tdiv]
    exact Nat.div_mul_le_self _ _
  obtain ⟨hlow, hhigh⟩ := fits_toInt x
  rw [sharedProfit, toInt_mul, hdiv, htwo]
  rw [hdiv, htwo]
  exact ⟨by omega, by omega⟩

theorem toInt_foldl_fees (s : State) (bs : List UInt16) (x : Int64) :
    (bs.foldl (fun sum b => sum + s.bankFee.get b.toNat) x).toInt =
      (x.toInt + (bs.map fun b => (s.bankFee.get b.toNat).toInt).sum).bmod (2 ^ 64) := by
  induction bs generalizing x with
  | nil => simp
  | cons b bs ih =>
      rw [List.foldl_cons, ih, Int64.toInt_add, List.map_cons, List.sum_cons, Int.bmod_add_bmod,
        Int.add_assoc]

/-- One share, exactly. -/
theorem toInt_bankFeeShare (hbanks : s.srvs.nodes.size ≤ bankMax) (hne : receivingNodes s ≠ []) :
    (bankFeeShare s).toInt = clippedFees s / (5 * (receivingNodes s).length) * 2 := by
  have hpos : 0 < (receivingNodes s).length := List.length_pos_iff.mpr hne
  have hlen : (Int64.ofNat (receivingNodes s).length).toInt = (receivingNodes s).length :=
    Int64.toInt_ofNat_of_lt (by have := length_receivingNodes_lt hbanks; omega)
  have hsum := toInt_foldl_fees s (sharingNodes s) 0
  rw [Int64.toInt_zero, Int.zero_add] at hsum
  have hclip : (if (sharingNodes s).foldl (fun sum b => sum + s.bankFee.get b.toNat) 0 < 0 then 0
      else (sharingNodes s).foldl (fun sum b => sum + s.bankFee.get b.toNat) 0 : Int64).toInt =
      clippedFees s := by
    rw [clippedFees, sharedFees, ← hsum]
    split
    · rename_i hlt
      rw [Int64.lt_iff_toInt_lt, Int64.toInt_zero] at hlt
      rw [Int64.toInt_zero]
      omega
    · rename_i hlt
      rw [Int64.lt_iff_toInt_lt, Int64.toInt_zero] at hlt
      omega
  have hnonneg : 0 ≤ clippedFees s := le_max_right _ _
  rw [bankFeeShare, toInt_sharedProfit, toInt_div (by rw [hclip]; exact hnonneg) (by omega), hclip,
    hlen, Int.tdiv_eq_ediv_of_nonneg (Int.ediv_nonneg hnonneg (by omega)),
    Int.ediv_ediv_of_nonneg (by omega), Int.mul_comm 5]

theorem clippedFees_bounds (s : State) : 0 ≤ clippedFees s ∧ clippedFees s < 2 ^ 63 := by
  have hlt := @Int.bmod_lt (sharedFees s) (2 ^ 64) (by decide)
  rw [clippedFees]
  omega

/-- All shares together are two fifths of the clipped sum, rounded down. -/
theorem share_mul_le (hbanks : s.srvs.nodes.size ≤ bankMax) (hne : receivingNodes s ≠ [])
    (svid : UInt16) :
    0 ≤ (bankFeeShare s).toInt * (receivingNodes s).count svid ∧
      (bankFeeShare s).toInt * (receivingNodes s).count svid * 5 ≤ 2 ^ 64 := by
  have hclip := clippedFees_bounds s
  have hpos : 0 < (receivingNodes s).length := List.length_pos_iff.mpr hne
  have hcount : (receivingNodes s).count svid ≤ (receivingNodes s).length := List.count_le_length
  have hquot : 0 ≤ clippedFees s / (5 * (receivingNodes s).length) :=
    Int.ediv_nonneg hclip.1 (by omega)
  have hmul := Int.mul_ediv_self_le (x := clippedFees s)
    (k := 5 * ((receivingNodes s).length : Int)) (by omega)
  rw [toInt_bankFeeShare hbanks hne]
  generalize clippedFees s / (5 * ((receivingNodes s).length : Int)) = q at hquot hmul
  have hle : q * ((receivingNodes s).count svid : Int) ≤ q * ((receivingNodes s).length : Int) :=
    Int.mul_le_mul_of_nonneg_left (by omega) hquot
  have hnonneg : 0 ≤ q * ((receivingNodes s).count svid : Int) := Int.mul_nonneg hquot (by omega)
  constructor <;> linarith

/-- `net_fee_share` does not overflow. -/
theorem toInt_netFeeShare (hbanks : s.srvs.nodes.size ≤ bankMax) (hne : receivingNodes s ≠ [])
    (svid : UInt16) :
    (netFeeShare s (sharingNodes s) (receivingNodes s) (bankFeeShare s) svid).toInt =
      (if svid ∈ sharingNodes s then -((s.bankFee.get svid.toNat).toInt.tdiv 5 * 2) else 0) +
        (bankFeeShare s).toInt * (receivingNodes s).count svid := by
  have hshare := share_mul_le hbanks hne svid
  have hlength := length_receivingNodes_lt hbanks
  have hle : (receivingNodes s).count svid ≤ (receivingNodes s).length := List.count_le_length
  have hcount : (Int64.ofNat ((receivingNodes s).count svid)).toInt =
      (receivingNodes s).count svid := Int64.toInt_ofNat_of_lt (by omega)
  have hmul : (bankFeeShare s * Int64.ofNat ((receivingNodes s).count svid)).toInt =
      (bankFeeShare s).toInt * (receivingNodes s).count svid := by
    rw [toInt_mul, hcount]
    rw [hcount]
    exact ⟨by omega, by omega⟩
  have hfee := toInt_sharedProfit (s.bankFee.get svid.toNat)
  have hfifth : ((s.bankFee.get svid.toNat).toInt.tdiv 5).natAbs * 5 ≤
      (s.bankFee.get svid.toNat).toInt.natAbs := by
    rw [Int.natAbs_tdiv]
    exact Nat.div_mul_le_self _ _
  obtain ⟨hlow, hhigh⟩ := fits_toInt (s.bankFee.get svid.toNat)
  have hown : (if svid ∈ sharingNodes s then -sharedProfit (s.bankFee.get svid.toNat)
      else 0 : Int64).toInt =
      if svid ∈ sharingNodes s then -((s.bankFee.get svid.toNat).toInt.tdiv 5 * 2) else 0 := by
    split
    · rw [toInt_neg, hfee]
      rw [hfee]
      exact ⟨by omega, by omega⟩
    · rfl
  rw [netFeeShare, toInt_add, hown, hmul]
  rw [hown, hmul]
  split <;> exact ⟨by omega, by omega⟩

theorem sharingNodes_subset (s : State) : sharingNodes s ⊆ s.banks := fun _ hb =>
  (List.perm_insertionSort _ _).mem_iff.mp (List.mem_of_mem_take hb)

theorem receivingNodes_subset (s : State) : receivingNodes s ⊆ s.banks := by
  intro b hb
  rcases List.mem_append.mp hb with hb | hb
  · exact List.mem_of_mem_filter hb
  · exact sharingNodes_subset s (List.mem_of_mem_filter hb)

/-- Every place of a list is counted once by the members of a larger list. -/
theorem sum_map_count {bs cs : List UInt16} (hbs : bs.Nodup) (h : cs ⊆ bs) :
    (bs.map fun b => (cs.count b : Int)).sum = cs.length := by
  have hsum := List.sum_toFinset (fun b => (cs.count b : Int)) hbs
  have hcount := Multiset.sum_count_eq_card (s := bs.toFinset) (m := (cs : Multiset UInt16))
    fun a ha => List.mem_toFinset.mpr (h (Multiset.mem_coe.mp ha))
  simp only [Multiset.coe_count, Multiset.coe_card] at hcount
  rw [← hsum, ← hcount]
  push_cast
  rfl

theorem sum_map_ite_mem {bs cs : List UInt16} (hbs : bs.Nodup) (hcs : cs.Nodup) (h : cs ⊆ bs)
    (f : UInt16 → Int) :
    (bs.map fun b => if b ∈ cs then f b else 0).sum = (cs.map f).sum := by
  have hsum := List.sum_toFinset (fun b => if b ∈ cs then f b else 0) hbs
  have hpart := List.sum_toFinset f hcs
  rw [← hsum, ← hpart, ← Finset.sum_filter]
  congr 1
  ext b
  simp only [Finset.mem_filter, List.mem_toFinset]
  exact ⟨fun hb => hb.2, fun hb => ⟨h hb, hb⟩⟩

/-- Five times what the sharing nodes give away, without its factor. -/
theorem sum_tdiv_fees (s : State) :
    ((sharingNodes s).map fun b => (s.bankFee.get b.toNat).toInt.tdiv 5).sum * 5 =
      sharedFees s - sharedRests s := by
  rw [sharedFees, sharedRests]
  induction sharingNodes s with
  | nil => rfl
  | cons b bs ih =>
      have hdiv := Int.mul_tdiv_add_tmod (s.bankFee.get b.toNat).toInt 5
      simp only [List.map_cons, List.sum_cons]
      omega

/-- The sum of the values of `net_fee_share`. -/
theorem sum_netFeeShares (env : Env) (hbanks : s.srvs.nodes.size ≤ bankMax)
    (hne : receivingNodes s ≠ []) :
    ((netFeeShares env s).map Int64.toInt).sum * 5 =
      2 * (sharedRests s +
        (clippedFees s - clippedFees s % (5 * (receivingNodes s).length)) - sharedFees s) := by
  have hnodup := State.nodup_banks hbanks
  have hcount := sum_map_count hnodup (receivingNodes_subset s)
  have hgiven := sum_map_ite_mem hnodup (nodup_sharingNodes hbanks) (sharingNodes_subset s)
    fun b => -((s.bankFee.get b.toNat).toInt.tdiv 5 * 2)
  have hfees := sum_tdiv_fees s
  have hdiv := Int.mul_ediv_add_emod (clippedFees s) (5 * ((receivingNodes s).length : Int))
  have hsplit : (netFeeShares env s).map Int64.toInt = s.banks.map fun b =>
      (if b ∈ sharingNodes s then -((s.bankFee.get b.toNat).toInt.tdiv 5 * 2) else 0) +
        (bankFeeShare s).toInt * ((receivingNodes s).count b : Int) := by
    rw [netFeeShares_eq env hbanks, List.map_map]
    exact List.map_congr_left fun b _ => toInt_netFeeShare hbanks hne b
  have hneg : ((sharingNodes s).map fun b => -((s.bankFee.get b.toNat).toInt.tdiv 5 * 2)).sum =
      -(((sharingNodes s).map fun b => (s.bankFee.get b.toNat).toInt.tdiv 5).sum * 2) := by
    simp only [← Int.mul_neg]
    rw [List.sum_map_mul_right]
  rw [hsplit, List.sum_map_add, List.sum_map_mul_left, hcount, hgiven, hneg,
    toInt_bankFeeShare hbanks hne]
  linarith

end Exact

/-- The division is defined and no more is paid out than collected exactly if a node
receives and the shares are covered. -/
theorem netFeeShares_nonpos_iff (env : Env) {s : State} (hbanks : s.srvs.nodes.size ≤ bankMax) :
    ((commitBankfee env s).isSome ∧ ((netFeeShares env s).map Int64.toInt).sum ≤ 0) ↔
      receivingNodes s ≠ [] ∧ SharesCovered s := by
  have hdefined : (commitBankfee env s).isSome ↔ receivingNodes s ≠ [] := by
    rw [commitBankfee]
    split <;> simp [*]
  rw [hdefined]
  refine and_congr_right fun hne => ?_
  have hsum := sum_netFeeShares env hbanks hne
  rw [SharesCovered]
  omega

namespace Sample

def shareEnv : Env where
  svid := 1
  sha256 _ := 0
  signOpenBatch2 _ := true
  findKey _ := none
  junk := {}

/-- Bank 1 has the given profit and is the only bank. -/
def oneBank (fee : Int64) (status : UInt32) : State where
  srvs := { now := 0x60000000, nodes := .ofList [{}, { status, users := 1 }] }
  last := { now := 0x5FFFFE00, nodes := .ofList [{}, { status, users := 1 }] }
  usr b := if b = 1 then .ofList [{ msid := 1, weight := 1000 }] else .empty
  bankFee := .ofList [0, fee]

end Sample

theorem netFeeShares_one :
    ((commitBankfee Sample.shareEnv (Sample.oneBank 10 0)).isSome ∧
      ((netFeeShares Sample.shareEnv (Sample.oneBank 10 0)).map Int64.toInt).sum ≤ 0) ∧
    receivingNodes (Sample.oneBank 10 0) ≠ [] ∧ SharesCovered (Sample.oneBank 10 0) := by
  have hcond : receivingNodes (Sample.oneBank 10 0) ≠ [] ∧ SharesCovered (Sample.oneBank 10 0) := by
    decide +kernel
  exact ⟨(netFeeShares_nonpos_iff Sample.shareEnv (by decide)).mpr hcond, hcond⟩

/-- A bank with a loss of 10 is paid 4 that nobody gives, and if the only bank is a double
spender, nobody receives. -/
theorem netFeeShares_overpaid :
    (netFeeShares Sample.shareEnv (Sample.oneBank (-10) 0)).map Int64.toInt = [4] ∧
      (commitBankfee Sample.shareEnv (Sample.oneBank 10 serverDbl)).isNone := by
  decide +kernel

end Esc
