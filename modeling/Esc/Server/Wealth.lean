import Esc.Server.BlockSteps
import Esc.Server.Funds

/-!
# The wealth of the ledger

The sum of all balances, of the dividends that may still be paid on them and of the
pending deposits. Posting a deposit moves money from the deposits to an account and
turns what is due into a balance, so it never raises this sum. A bound on the sum
before a run of postings therefore rules out overflow in every step of it.
-/

namespace Esc

open Lib

variable {env : Env} {s s' : State} {b : UInt16} {uid : UInt32} {u : User} {v : Servers}

/-- Balance of an account with the dividend that it may still be paid. -/
def holding (v : Servers) (u : User) : Int := u.weight.toInt + due v u

/-- All that the accounts on a file hold. -/
def fileTotal (v : Servers) (file : Table User) : Int :=
  ∑ i ∈ Finset.range file.size, holding v (file.get i)

/-- All that the accounts of all banks hold. -/
def State.holdings (s : State) : Int :=
  ∑ b ∈ Finset.range (2 ^ 16), fileTotal s.srvs (s.usr (UInt16.ofNat b))

/-- The accounts and the pending deposits together. -/
def State.wealth (s : State) : Int := s.holdings + s.depositTotal

theorem holding_default (v : Servers) : holding v default = 0 := by
  have hvalue : (dividendValue v default).toInt = 0 := by
    have hamount : dividendAmount v default < -(default : User).weight := by
      have hzero : (default : User).weight = 0 := rfl
      rw [dividendAmount, hzero]
      split
      · decide
      · split
        · decide
        · have hshift : (0 : Int64) >>> 16 = 0 := by decide
          rw [hshift, Int64.zero_mul]
          decide
    rw [dividendValue, if_pos hamount]
    rfl
  rw [holding, due, hvalue]
  split <;> rfl

/-- A write changes the total by the difference at its place; past the end there was
nothing. -/
theorem fileTotal_write (v : Servers) (file : Table User) (i : Nat) (u : User) :
    fileTotal v (file.write i u) = fileTotal v file - holding v (file.get i) + holding v u := by
  have hextend : fileTotal v file =
      ∑ j ∈ Finset.range (file.write i u).size, holding v (file.get j) := by
    refine Finset.sum_subset ?_ ?_
    · intro j hj
      rw [Finset.mem_range] at hj ⊢
      exact lt_of_lt_of_le hj (le_max_left _ _)
    · intro j _ hj
      rw [Finset.mem_range, not_lt] at hj
      rw [file.beyond j hj, holding_default]
  rw [hextend, fileTotal, sum_range_point (g := fun j => holding v (file.get j)) (i := i)
    (by rw [Table.size_write]; exact lt_of_lt_of_le (Nat.lt_succ_self i) (le_max_right _ _)),
    Table.get_write_self]
  intro j _ hj
  rw [Table.get_write_ne _ _ hj]

theorem holding_congr {v' : Servers} (hnow : v'.now = v.now) (hdiv : v'.div = v.div) (u : User) :
    holding v' u = holding v u := by
  rw [holding, holding, due, due, (dividend_congr hnow hdiv u 0).2.1]
  exact congrArg _ (if_congr (dividend_congr hnow hdiv u 0).1 rfl rfl)

theorem fileTotal_congr {v' : Servers} (hnow : v'.now = v.now) (hdiv : v'.div = v.div)
    (file : Table User) : fileTotal v' file = fileTotal v file :=
  Finset.sum_congr rfl fun i _ => holding_congr hnow hdiv (file.get i)

/-- Replacing the file of one bank. -/
theorem holdings_update {file : Table User} (husr : s'.usr = Function.update s.usr b file)
    (hnow : s'.srvs.now = s.srvs.now) (hdiv : s'.srvs.div = s.srvs.div) :
    s'.holdings = s.holdings - fileTotal s.srvs (s.usr b) + fileTotal s.srvs file := by
  have hb : UInt16.ofNat b.toNat = b := UInt16.ofNat_toNat
  rw [State.holdings, State.holdings,
    sum_range_point (g := fun j => fileTotal s.srvs (s.usr (UInt16.ofNat j))) b.toNat_lt, husr, hb,
    Function.update_self, fileTotal_congr hnow hdiv]
  intro j hlt hj
  have hne : UInt16.ofNat j ≠ b := by
    rintro rfl
    rw [UInt16.toNat_ofNat', Nat.mod_eq_of_lt hlt] at hj
    exact hj rfl
  rw [husr, Function.update_of_ne hne, fileTotal_congr hnow hdiv]

/-- Writing one record. -/
theorem holdings_write {i : Nat} (husr : s'.usr = Function.update s.usr b ((s.usr b).write i u))
    (hnow : s'.srvs.now = s.srvs.now) (hdiv : s'.srvs.div = s.srvs.div) :
    s'.holdings = s.holdings - holding s.srvs ((s.usr b).get i) + holding s.srvs u := by
  rw [holdings_update husr hnow hdiv, fileTotal_write]
  omega

theorem holdings_congr (husr : s'.usr = s.usr) (hnow : s'.srvs.now = s.srvs.now)
    (hdiv : s'.srvs.div = s.srvs.div) : s'.holdings = s.holdings := by
  rw [State.holdings, State.holdings, husr]
  exact Finset.sum_congr rfl fun b _ => fileTotal_congr hnow hdiv _

theorem depositTotal_congr (h : ∀ k, s'.deposit.val k = s.deposit.val k) :
    s'.depositTotal = s.depositTotal :=
  Map.total_congr (fun _ => rfl) h

/-- Changing the deposit under one key. -/
theorem depositTotal_point {key : UInt64} {x : Int64}
    (h : ∀ k, s'.deposit.val k = if k = key then x else s.deposit.val k) :
    s'.depositTotal = s.depositTotal - (s.deposit.val key).toInt + x.toInt := by
  have hadjust := Map.total_adjust (f := fun _ w => Int64.toInt w) s.deposit key (fun _ => x) rfl
  refine (Map.total_congr (fun _ => rfl) fun k => ?_).trans hadjust
  rw [h, Map.val_adjust]

/-- Nothing in the ledger is negative. -/
structure Solvent (s : State) : Prop where
  weight : ∀ b i, 0 ≤ ((s.usr b).get i).weight.toInt
  deposit : ∀ k, 0 ≤ (s.deposit.val k).toInt

theorem holding_nonneg (h : 0 ≤ u.weight.toInt) : 0 ≤ holding v u :=
  add_nonneg h (due_nonneg v u)

namespace Solvent

theorem fileTotal_nonneg (h : Solvent s) (b : UInt16) : 0 ≤ fileTotal s.srvs (s.usr b) :=
  Finset.sum_nonneg fun i _ => holding_nonneg (h.weight b i)

theorem deposit_getElem?_nonneg (h : Solvent s) (k : UInt64) (w : Int64)
    (hw : s.deposit[k]? = some w) : 0 ≤ w.toInt := by
  have hnonneg := h.deposit k
  rwa [Map.val_of_getElem? hw] at hnonneg

theorem depositTotal_nonneg (h : Solvent s) : 0 ≤ s.depositTotal :=
  Map.total_nonneg h.deposit_getElem?_nonneg

theorem deposit_le (h : Solvent s) (k : UInt64) : (s.deposit.val k).toInt ≤ s.depositTotal :=
  Map.val_le_total (f := fun _ w => Int64.toInt w) h.deposit_getElem?_nonneg rfl

/-- One account holds at most what all accounts hold. -/
theorem holding_le (h : Solvent s) (b : UInt16) (i : Nat) :
    holding s.srvs ((s.usr b).get i) ≤ s.holdings := by
  have hfile : holding s.srvs ((s.usr b).get i) ≤ fileTotal s.srvs (s.usr b) := by
    by_cases hi : i < (s.usr b).size
    · exact Finset.single_le_sum (fun j _ => holding_nonneg (h.weight b j))
        (Finset.mem_range.mpr hi)
    · rw [(s.usr b).beyond i (not_lt.mp hi), holding_default]
      exact h.fileTotal_nonneg b
  have hbank : fileTotal s.srvs (s.usr (UInt16.ofNat b.toNat)) ≤ s.holdings :=
    Finset.single_le_sum (f := fun j => fileTotal s.srvs (s.usr (UInt16.ofNat j)))
      (fun j _ => h.fileTotal_nonneg _) (Finset.mem_range.mpr b.toNat_lt)
  rw [UInt16.ofNat_toNat] at hbank
  exact hfile.trans hbank

theorem holding_add_deposit_le (h : Solvent s) (b : UInt16) (i : Nat) (k : UInt64) :
    holding s.srvs ((s.usr b).get i) + (s.deposit.val k).toInt ≤ s.wealth :=
  add_le_add (h.holding_le b i) (h.deposit_le k)

end Solvent

namespace Posting

variable {amount : Int64}

theorem get_usr (h : Posting env s s' b uid amount u) (b' : UInt16) (i : Nat) :
    (s'.usr b').get i = if b' = b ∧ i = uid.toNat then u else (s.usr b').get i := by
  rw [h.usr]
  by_cases hb : b' = b
  · rw [hb, Function.update_self, Table.get_set]
    exact if_congr (by have := h.onFile; simp only [State.onFile] at this; tauto) rfl rfl
  · rw [Function.update_of_ne hb, if_neg fun hi => hb hi.1]

/-- The exact new balance, when the old one and the amount leave room for it. -/
theorem weight_exact (h : Posting env s s' b uid amount u) (hw : 0 ≤ (s.record b uid).weight.toInt)
    (hmax : holding s.srvs (s.record b uid) ≤ ledgerMax)
    (hlow : 0 ≤ (dividend s.srvs (s.record b uid) 0).2.1.weight.toInt + amount.toInt)
    (hhigh : holding s.srvs (s.record b uid) + amount.toInt < 2 ^ 63) :
    0 ≤ u.weight.toInt ∧ holding s.srvs u ≤ holding s.srvs (s.record b uid) + amount.toInt := by
  obtain ⟨hexact, -, hpaid⟩ := dividend_exact 0 hw hmax
  have hadd : u.weight.toInt =
      (dividend s.srvs (s.record b uid) 0).2.1.weight.toInt + amount.toInt := by
    rw [h.weight]
    refine toInt_add ⟨by omega, ?_⟩
    rw [holding] at hhigh
    omega
  refine ⟨by omega, ?_⟩
  rw [holding, due_of_not_due h.not_due, holding]
  omega

end Posting

theorem account_markedKey (b : UInt16) (uid : UInt32) :
    depositBank (markedKey b uid) = b ∧ depositUser (markedKey b uid) = uid := by
  have hb := b.toNat_lt
  have hu := uid.toNat_lt
  have hkey : (markedKey b uid).toNat = uid.toNat + 2 ^ 32 * (b.toNat + 2 ^ 16) := by
    rw [markedKey, UInt64.toNat_ofNat']
    omega
  refine ⟨UInt16.toNat_inj.mp ?_, UInt32.toNat_inj.mp ?_⟩
  · rw [depositBank, UInt16.toNat_ofNat', hkey]
    omega
  · rw [depositUser, UInt32.toNat_ofNat', hkey]
    omega

theorem Extends.holds (h : Extends s s') (hold : s.holds b uid) : s'.holds b uid :=
  ⟨lt_of_lt_of_le hold.1 h.size, h.onFile hold.2⟩

/-- A step that pays out at most `n`: as long as there is room for it, nothing becomes negative, and
the wealth grows by at most `n`. Deposits stay payable. -/
structure PaysOut (n : Int) (s s' : State) : Prop where
  nonneg : 0 ≤ n
  solvent : Solvent s → s.wealth + n ≤ ledgerMax → Solvent s' ∧ s'.wealth ≤ s.wealth + n
  grows : Extends s s'
  payable : s.Payable → s'.Payable

namespace PaysOut

variable {n m : Int} {s₁ s₂ : State}

/-- Accounts and deposits stay. -/
theorem same (h : Extends s s₁) (husr : s₁.usr = s.usr)
    (hdep : ∀ k, s₁.deposit.val k = s.deposit.val k) : PaysOut 0 s s₁ where
  nonneg := le_rfl
  solvent hs _ := by
    refine ⟨⟨husr ▸ hs.weight, fun k => by rw [hdep]; exact hs.deposit k⟩, ?_⟩
    rw [State.wealth, State.wealth, holdings_congr husr h.now h.div,
      depositTotal_congr hdep, add_zero]
  grows := h
  payable hpay k hk := h.holds (hpay k (hdep k ▸ hk))

theorem refl (s : State) : PaysOut 0 s s := same (.refl s) rfl fun _ => rfl

theorem trans (h : PaysOut n s s₁) (h' : PaysOut m s₁ s₂) : PaysOut (n + m) s s₂ where
  nonneg := add_nonneg h.nonneg h'.nonneg
  solvent hs hmax := by
    have hm := h'.nonneg
    obtain ⟨hs₁, hle⟩ := h.solvent hs (by omega)
    obtain ⟨hs₂, hle'⟩ := h'.solvent hs₁ (by omega)
    exact ⟨hs₂, by omega⟩
  grows := h.grows.trans h'.grows
  payable hpay := h'.payable (h.payable hpay)

theorem trans_zero (h : PaysOut n s s₁) (h' : PaysOut 0 s₁ s₂) : PaysOut n s s₂ := by
  have hboth := h.trans h'
  rwa [add_zero] at hboth

/-- A deposit of an account is added to. -/
theorem deposit {mass : Int64} (h : Extends s s₁) (husr : s₁.usr = s.usr) (hmass : 0 ≤ mass.toInt)
    (hold : s.holds b uid) (hdep : s₁.deposit = s.deposit.adjust (markedKey b uid) (· + mass)) :
    PaysOut mass.toInt s s₁ := by
  have hval (k : UInt64) : s₁.deposit.val k =
      if k = markedKey b uid then s.deposit.val (markedKey b uid) + mass else s.deposit.val k := by
    rw [hdep]
    exact Map.val_adjust ..
  refine ⟨hmass, fun hs hmax => ?_, h, fun hpay k hk => ?_⟩
  · have hkey := hs.deposit (markedKey b uid)
    have hle := hs.holding_add_deposit_le 0 0 (markedKey b uid)
    have hzero := holding_nonneg (v := s.srvs) (hs.weight 0 0)
    rw [ledgerMax] at hmax
    have hsum : (s.deposit.val (markedKey b uid) + mass).toInt =
        (s.deposit.val (markedKey b uid)).toInt + mass.toInt := toInt_add ⟨by omega, by omega⟩
    refine ⟨⟨husr ▸ hs.weight, fun k => ?_⟩, ?_⟩
    · rw [hval]
      split
      · omega
      · exact hs.deposit k
    · rw [State.wealth, State.wealth, holdings_congr husr h.now h.div,
        depositTotal_point hval, hsum]
      omega
  · rw [hval] at hk
    split at hk
    · rename_i hkey
      rw [hkey, (account_markedKey b uid).1, (account_markedKey b uid).2]
      exact h.holds hold
    · exact h.holds (hpay k hk)

end PaysOut

theorem SameLedger.paysOut (h : SameLedger s s') : PaysOut 0 s s' :=
  .same h.toSameAccounts.shape.extends h.usr h.deposit

theorem SameBooks.paysOut (h : SameBooks s s') : PaysOut 0 s s' :=
  .same h.extends h.usr fun k => by rw [h.deposit]

/-- The balance of an account after its dividend. -/
theorem Solvent.paid_nonneg (hs : Solvent s) (hmax : s.wealth ≤ ledgerMax) (b : UInt16)
    (uid : UInt32) : 0 ≤ (dividend s.srvs (s.record b uid) 0).2.1.weight.toInt ∧
      (dividend s.srvs (s.record b uid) 0).2.1.weight.toInt ≤ holding s.srvs (s.record b uid) := by
  have hle : holding s.srvs (s.record b uid) + (s.deposit.val 0).toInt ≤ s.wealth :=
    hs.holding_add_deposit_le b uid.toNat 0
  have hdep := hs.deposit 0
  obtain ⟨hexact, hnonneg, hpaid⟩ :=
    dividend_exact (v := s.srvs) 0 (hs.weight b uid.toNat)
      (by rw [← holding, ← State.record]; omega)
  rw [← State.record] at hexact hnonneg hpaid
  refine ⟨hnonneg, ?_⟩
  rw [holding]
  omega

/-- A posting that changes one deposit pays out the difference at most. -/
theorem Posting.paysOut {amount x : Int64} {key : UInt64} (h : Posting env s s' b uid amount u)
    (hdep : ∀ k, s'.deposit.val k = if k = key then x else s.deposit.val k)
    (hhold : s.Payable → x ≠ 0 → s.holds (depositBank key) (depositUser key))
    (hpay : Solvent s → s.wealth ≤ ledgerMax → 0 ≤ x.toInt ∧
      0 ≤ (dividend s.srvs (s.record b uid) 0).2.1.weight.toInt + amount.toInt ∧
      amount.toInt + x.toInt ≤ (s.deposit.val key).toInt) : PaysOut 0 s s' where
  nonneg := le_rfl
  solvent hs hmax := by
    rw [add_zero] at hmax ⊢
    obtain ⟨hx, hlow, hsum⟩ := hpay hs hmax
    have hle : holding s.srvs (s.record b uid) + (s.deposit.val key).toInt ≤ s.wealth :=
      hs.holding_add_deposit_le b uid.toNat key
    have hkey := hs.deposit key
    have hhigh : holding s.srvs (s.record b uid) + amount.toInt ≤ ledgerMax := by omega
    obtain ⟨hnonneg, hnew⟩ := h.weight_exact (hs.weight b uid.toNat) (by omega) hlow
      (lt_of_le_of_lt hhigh (by decide))
    refine ⟨⟨fun b' i => ?_, fun k => ?_⟩, ?_⟩
    · rw [h.get_usr]
      split
      · exact hnonneg
      · exact hs.weight b' i
    · rw [hdep]
      split
      · exact hx
      · exact hs.deposit k
    · have husr : s'.usr = Function.update s.usr b ((s.usr b).write uid.toNat u) := by
        rw [h.usr, Table.write_eq_set _ _ h.onFile]
      rw [State.wealth, State.wealth, holdings_write husr h.now h.div, depositTotal_point hdep]
      rw [State.record] at hnew
      omega
  grows := h.shape.extends
  payable hpay k hk := by
    rw [hdep] at hk
    split at hk
    · rename_i hkey
      rw [hkey]
      exact h.shape.extends.holds (hhold hpay hk)
    · exact h.shape.extends.holds (hpay k hk)

/-- A step of the block end creates no money. -/
theorem AccountStep.paysOut (h : AccountStep env s s') : PaysOut 0 s s' := by
  cases h with
  | same h => exact h.paysOut
  | @post key u h _ hdeposit =>
    refine h.paysOut hdeposit (fun _ hne => absurd rfl hne) fun hs hmax => ?_
    refine ⟨le_rfl, ?_, (add_zero _).le⟩
    exact add_nonneg (hs.paid_nonneg hmax _ _).1 (hs.deposit key)

theorem AccountStep.paysOut_of_run (h : Relation.ReflTransGen (AccountStep env) s s') :
    PaysOut 0 s s' := by
  induction h with
  | refl => exact .refl s
  | tail _ hstep ih => exact ih.trans_zero hstep.paysOut

/-- A record of this block has nothing due. -/
theorem due_now (hrpath : u.rpath = v.now) : due v u = 0 := by
  refine due_of_not_due fun hdue => ?_
  rw [dividendDue, hrpath] at hdue
  exact UInt32.lt_irrefl _ (UInt32.lt_of_lt_of_le hdue.1 v.periodStart_le)

theorem OwnerStep.paysOut {n : Int} (h : OwnerStep s s' n) : PaysOut n s s' := by
  cases h with
  | @intro b u old mass h hmass husr hold hweight hrpath hdep =>
    refine ⟨hmass, fun hs hmax => ?_, h, fun hpay k hk => h.holds (hpay k (hdep ▸ hk))⟩
    have hle := hs.holding_le b 0
    have hw := hs.weight b 0
    have hdue := due_nonneg s.srvs ((s.usr b).get 0)
    have hdeps := hs.depositTotal_nonneg
    rw [State.wealth, ledgerMax] at hmax
    rw [holding] at hle
    have hbound : 0 ≤ old.toInt ∧ old.toInt ≤ ((s.usr b).get 0).weight.toInt := by
      rcases hold with rfl | rfl
      · exact ⟨hw, le_rfl⟩
      · exact ⟨le_rfl, hw⟩
    have hsum : u.weight.toInt = old.toInt + mass.toInt := by
      rw [hweight]
      exact toInt_add ⟨by omega, by omega⟩
    refine ⟨⟨fun b' j => ?_, hdep ▸ hs.deposit⟩, ?_⟩
    · rw [husr]
      by_cases hb : b' = b
      · rw [hb, Function.update_self, Table.get_write]
        split
        · omega
        · exact hs.weight b j
      · rw [Function.update_of_ne hb]
        exact hs.weight b' j
    · rw [State.wealth, State.wealth, holdings_write husr h.now h.div, State.depositTotal, hdep,
        holding, holding, due_now hrpath, hsum, ← State.depositTotal]
      omega

end Esc
