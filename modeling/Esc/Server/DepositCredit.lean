import Esc.Server.Bankfee
import Esc.Server.DividendSweep
import Esc.Lib.Residue

/-!
# Deposits are credited once

The deposits of a block are booked by the dividend sweep, which empties the entries that it
takes, and by the loop over the deposits after it. What an account is to have, its balance
with the dividend that is due and the entries for it, is the same after each step.

The profit of a bank is followed in the same way, with the part of the fees that the
entries and the dividends will still bring. Sums are taken modulo the word size.
-/

namespace Esc

open Lib

variable {u : User} {v : Servers} {d d' : Map UInt64 Int64} {key : UInt64}

/-- The dividend that the account is still to be paid. -/
def pendingDividend (v : Servers) (u : User) : ZMod (2 ^ 64) :=
  if dividendDue v u then residue (dividendValue v u) else 0

/-- The entries for an account. -/
def entriesTo (deposit : Map UInt64 Int64) (b : UInt16) (uid : UInt32) : ZMod (2 ^ 64) :=
  Map.total (fun k dep => if depositBank k = b ∧ depositUser k = uid then residue dep else 0)
    deposit

/-- What an account is to have. -/
def State.expected (s : State) (b : UInt16) (uid : UInt32) : ZMod (2 ^ 64) :=
  residue (s.record b uid).weight + pendingDividend s.srvs (s.record b uid) +
    entriesTo s.deposit b uid

theorem residue_dividend (v : Servers) (u : User) (fee : Int64) :
    residue (dividend v u fee).2.1.weight = residue u.weight + pendingDividend v u := by
  rw [pendingDividend]
  split
  · rename_i hdue
    rw [dividend_of_due fee hdue, residue_add]
  · rename_i hdue
    rw [dividend_of_not_due fee hdue, add_zero]

theorem pendingDividend_congr {v' : Servers} (hnow : v'.now = v.now) (hdiv : v'.div = v.div)
    (u : User) : pendingDividend v' u = pendingDividend v u := by
  obtain ⟨hdue, hvalue, -⟩ := dividend_congr hnow hdiv u 0
  rw [pendingDividend, pendingDividend, hvalue]
  simp only [hdue]

theorem entriesTo_congr (h : ∀ k, d'.val k = d.val k) (b : UInt16) (uid : UInt32) :
    entriesTo d' b uid = entriesTo d b uid := by
  refine Map.total_congr (fun k => ?_) h
  split
  · exact residue_zero
  · rfl

/-- An entry is taken. -/
theorem entriesTo_take (h : ∀ k, d'.val k = if k = key then 0 else d.val k) (b : UInt16)
    (uid : UInt32) :
    entriesTo d' b uid = entriesTo d b uid -
      if depositBank key = b ∧ depositUser key = uid then residue (d.val key) else 0 := by
  have htotal := @Map.total_of_val _ _ _ _ _ _ _ _ _
    (fun k dep => if depositBank k = b ∧ depositUser k = uid then residue dep else 0) d d'
    (fun k => by split <;> [exact residue_zero; rfl]) key 0 h
  rw [entriesTo, entriesTo, htotal, residue_zero, ite_self, add_zero]

section Run

variable {env : Env} {s s' : State}

/-- The accounts get what they were to have, and those that are still due are as before. -/
structure Pays (s s' : State) : Prop where
  now : s'.srvs.now = s.srvs.now
  div : s'.srvs.div = s.srvs.div
  expected : ∀ b uid, s'.expected b uid = s.expected b uid
  due : ∀ b uid, dividendDue s'.srvs (s'.record b uid) → s'.record b uid = s.record b uid

theorem SameLedger.pays (h : SameLedger s s') : Pays s s' where
  now := h.now
  div := h.div
  expected b uid := by
    rw [State.expected, State.expected, h.record, pendingDividend_congr h.now h.div,
      entriesTo_congr h.deposit]
  due b uid _ := h.record b uid

theorem Posting.pays
    (h : Posting env s s' (depositBank key) (depositUser key) (s.deposit.val key) u)
    (hdeposit : ∀ k, s'.deposit.val k = if k = key then 0 else s.deposit.val k) : Pays s s' := by
  have hdue := (dividend_congr h.now h.div u 0).1.not.mpr h.not_due
  refine ⟨h.now, h.div, ?_, ?_⟩
  · intro b uid
    rw [State.expected, State.expected, entriesTo_take hdeposit]
    by_cases hat : b = depositBank key ∧ uid = depositUser key
    · obtain ⟨rfl, rfl⟩ := hat
      have hnone : pendingDividend s'.srvs u = 0 := if_neg hdue
      rw [h.record_self, h.weight, residue_add, residue_dividend, hnone, if_pos ⟨rfl, rfl⟩]
      ring
    · have hne : ¬(b = depositBank key ∧ uid.toNat = (depositUser key).toNat) :=
        fun hand => hat ⟨hand.1, UInt32.toNat_inj.mp hand.2⟩
      have hrecord : s'.record b uid = s.record b uid := h.record_ne hne
      rw [hrecord, pendingDividend_congr h.now h.div,
        if_neg fun hand => hat ⟨hand.1.symm, hand.2.symm⟩, sub_zero]
  · intro b uid hdue'
    by_cases hat : b = depositBank key ∧ uid = depositUser key
    · obtain ⟨rfl, rfl⟩ := hat
      rw [h.record_self] at hdue'
      exact absurd hdue' hdue
    · exact h.record_ne fun hand => hat ⟨hand.1, UInt32.toNat_inj.mp hand.2⟩

theorem Pays.refl (s : State) : Pays s s := ⟨rfl, rfl, fun _ _ => rfl, fun _ _ _ => rfl⟩

theorem Pays.trans {s₁ s₂ : State} (h : Pays s s₁) (h' : Pays s₁ s₂) : Pays s s₂ where
  now := h'.now.trans h.now
  div := h'.div.trans h.div
  expected b uid := (h'.expected b uid).trans (h.expected b uid)
  due b uid hdue := by
    have hrecord := h'.due b uid hdue
    rw [hrecord, (dividend_congr h'.now h'.div _ 0).1] at hdue
    exact hrecord.trans (h.due b uid hdue)

theorem AccountStep.pays (h : AccountStep env s s') : Pays s s' := by
  cases h with
  | same h => exact h.pays
  | post h _ hdeposit => exact h.pays hdeposit

theorem AccountStep.pays_of_run (h : Relation.ReflTransGen (AccountStep env) s s') : Pays s s' := by
  induction h with
  | refl => exact .refl s
  | tail _ hstep ih => exact ih.trans hstep.pays

/-- The dividend that the account has been paid between the two states. -/
def appliedDividend (s s' : State) (b : UInt16) (uid : UInt32) : ZMod (2 ^ 64) :=
  if dividendDue s.srvs (s.record b uid) ∧ ¬dividendDue s'.srvs (s'.record b uid) then
    residue (dividendValue s.srvs (s.record b uid))
  else 0

/-- When no entries are left, the account has its dividend and its entries. -/
theorem Pays.weight (h : Pays s s') (hempty : s'.deposit = ∅) (b : UInt16) (uid : UInt32) :
    residue (s'.record b uid).weight =
      residue (s.record b uid).weight + appliedDividend s s' b uid + entriesTo s.deposit b uid := by
  have hexpected := h.expected b uid
  have hnone : entriesTo s'.deposit b uid = 0 := by
    rw [entriesTo, hempty, Map.total_empty]
  rw [State.expected, State.expected, hnone, add_zero] at hexpected
  have happlied : appliedDividend s s' b uid =
      pendingDividend s.srvs (s.record b uid) - pendingDividend s'.srvs (s'.record b uid) := by
    rw [appliedDividend, pendingDividend, pendingDividend]
    by_cases hdue' : dividendDue s'.srvs (s'.record b uid)
    · rw [if_neg fun hand => hand.2 hdue', if_pos hdue']
      have hrecord := h.due b uid hdue'
      rw [hrecord] at hdue' ⊢
      obtain ⟨hdue, hvalue, -⟩ := dividend_congr h.now h.div (s.record b uid) 0
      rw [if_pos (hdue.mp hdue'), hvalue, sub_self]
    · rw [if_neg hdue', sub_zero]
      simp only [hdue', not_false_eq_true, and_true]
  rw [happlied, eq_sub_of_add_eq hexpected]
  ring

end Run

/-- The accounts of all banks. -/
def State.allAccounts (s : State) : Finset (UInt16 × UInt32) :=
  Finset.univ.filter fun a => s.HasAccount a.1 a.2

theorem State.mem_allAccounts {s : State} {a : UInt16 × UInt32} :
    a ∈ s.allAccounts ↔ s.HasAccount a.1 a.2 := by
  rw [State.allAccounts, Finset.mem_filter, and_iff_right (Finset.mem_univ a)]

/-- The total of all account weights. -/
def State.totalWeight (s : State) : ZMod (2 ^ 64) :=
  ∑ a ∈ s.allAccounts, residue (s.record a.1 a.2).weight

/-- The deposits are for existing accounts; bank 0 has none. -/
def State.Targets (s : State) : Prop :=
  ∀ k, s.deposit.val k ≠ 0 → depositBank k ≠ 0 ∧ s.HasAccount (depositBank k) (depositUser k)

def State.entries (s : State) : ZMod (2 ^ 64) := Map.total (fun _ dep => residue dep) s.deposit

/-- Each entry is for one account. -/
theorem State.Targets.sum_entriesTo {s : State} (h : s.Targets) :
    ∑ a ∈ s.allAccounts, entriesTo s.deposit a.1 a.2 = s.entries := by
  have hkeys : ∀ k v, s.deposit[k]? = some v → k ∈ (s.deposit.toList.map Prod.fst).toFinset :=
    fun k v hv => List.mem_toFinset.mpr (List.mem_map.mpr ⟨(k, v), Map.mem_toList.mpr hv, rfl⟩)
  have hentries : s.entries = ∑ k ∈ (s.deposit.toList.map Prod.fst).toFinset,
      residue (s.deposit.val k) :=
    Map.total_eq_sum s.deposit (fun _ => residue_zero) hkeys
  have hto : ∀ a : UInt16 × UInt32, entriesTo s.deposit a.1 a.2 =
      ∑ k ∈ (s.deposit.toList.map Prod.fst).toFinset,
        if depositBank k = a.1 ∧ depositUser k = a.2 then residue (s.deposit.val k) else 0 := by
    intro a
    refine Map.total_eq_sum s.deposit (fun k => ?_) hkeys
    split
    · exact residue_zero
    · rfl
  rw [hentries, Finset.sum_congr rfl fun a _ => hto a, Finset.sum_comm]
  refine Finset.sum_congr rfl fun k _ => ?_
  by_cases hzero : s.deposit.val k = 0
  · have hnone : ∀ a ∈ s.allAccounts, (if depositBank k = a.1 ∧ depositUser k = a.2 then
        residue (s.deposit.val k) else 0) = 0 := by
      intro a _
      rw [hzero, residue_zero, ite_self]
    rw [Finset.sum_eq_zero hnone, hzero, residue_zero]
  · rw [Finset.sum_eq_single (depositBank k, depositUser k)]
    · exact if_pos ⟨rfl, rfl⟩
    · intro a _ hne
      exact if_neg fun hand => hne (Prod.ext hand.1.symm hand.2.symm)
    · intro hmem
      rw [State.mem_allAccounts] at hmem
      exact absurd (h k hzero).2 hmem

section Fees

/-- What the bank gets of the dividend fee of an account; nothing if none is due. -/
def dividendFee (v : Servers) (u : User) : ZMod (2 ^ 64) :=
  residue (bankProfit (dividend v u 0).2.2)

/-- What the bank gets of the dividend fees of its accounts that are due. -/
def State.dividendFees (s : State) (b : UInt16) : ZMod (2 ^ 64) :=
  ∑ i ∈ Finset.range (s.srvs.node b).users.toNat, dividendFee s.srvs ((s.usr b).get i)

/-- The share of the bank in the plain entries for its accounts. -/
def lngShare (deposit : Map UInt64 Int64) (b : UInt16) : ZMod (2 ^ 64) :=
  Map.total (fun k dep => if depositBank k = b ∧ depositMarked k = false then
    residue (bankProfit (txsLngFee dep)) else 0) deposit

/-- The profit that the bank is to have. -/
def State.expectedFee (s : State) (b : UInt16) : ZMod (2 ^ 64) :=
  residue (s.bankFee.get b.toNat) + s.dividendFees b + lngShare s.deposit b

/-- The sweep takes a fee without a dividend when the dividend is the reserved value. -/
def missedFee (v : Servers) (u : User) : ZMod (2 ^ 64) :=
  if (dividend v u 0).1 = noDividend ∧ (dividend v u 0).2.1.weight ≠ 0 then dividendFee v u else 0

theorem dividendFee_of_not_due (h : ¬dividendDue v u) : dividendFee v u = 0 := by
  have hzero : bankProfit 0 = 0 := by decide
  rw [dividendFee, dividend_of_not_due 0 h, hzero, residue_zero]

theorem dividendFee_congr {v' : Servers} (hnow : v'.now = v.now) (hdiv : v'.div = v.div)
    (u : User) : dividendFee v' u = dividendFee v u := by
  rw [dividendFee, dividendFee, (dividend_congr hnow hdiv u 0).2.2]

theorem lngFee_zero : residue (bankProfit (txsLngFee 0)) = 0 := by
  have hzero : bankProfit (txsLngFee 0) = 0 := by decide
  rw [hzero, residue_zero]

theorem lngShare_congr (h : ∀ k, d'.val k = d.val k) (b : UInt16) :
    lngShare d' b = lngShare d b := by
  refine Map.total_congr (fun k => ?_) h
  split
  · exact lngFee_zero
  · rfl

theorem lngShare_take (h : ∀ k, d'.val k = if k = key then 0 else d.val k) (b : UInt16) :
    lngShare d' b = lngShare d b - if depositBank key = b ∧ depositMarked key = false then
      residue (bankProfit (txsLngFee (d.val key))) else 0 := by
  have htotal := @Map.total_of_val _ _ _ _ _ _ _ _ _
    (fun k dep => if depositBank k = b ∧ depositMarked k = false then
      residue (bankProfit (txsLngFee dep)) else 0) d d'
    (fun k => by split <;> [exact lngFee_zero; rfl]) key 0 h
  rw [lngShare, lngShare, htotal, lngFee_zero, ite_self, add_zero]

theorem depositMarked_depositKey (b : UInt16) (uid : UInt32) :
    depositMarked (depositKey b uid) = false := by
  have hb := b.toNat_lt
  have hu := uid.toNat_lt
  rw [depositMarked, decide_eq_false_iff_not, depositKey, UInt64.toNat_ofNat']
  omega

variable {env : Env} {s s' : State} {b : UInt16} {uid : UInt32}

theorem SameAccounts.dividendFees (h : SameAccounts s s') (b : UInt16) :
    s'.dividendFees b = s.dividendFees b := by
  rw [State.dividendFees, State.dividendFees, h.shape.users, h.usr]
  exact Finset.sum_congr rfl fun i _ => dividendFee_congr h.now h.div _

/-- The fee of a posted account is not due any more. -/
theorem Posting.dividendFees {amount : Int64} (h : Posting env s s' b uid amount u)
    (huser : uid < (s.srvs.node b).users) (b' : UInt16) :
    s'.dividendFees b' =
      s.dividendFees b' - if b' = b then dividendFee s.srvs (s.record b uid) else 0 := by
  rw [State.dividendFees, State.dividendFees, h.shape.users]
  by_cases hb : b' = b
  · subst hb
    rw [if_pos rfl, Lib.sum_range_point (UInt32.lt_iff_toNat_lt.mp huser)
      fun i _ hi => ?_]
    · have hself : (s'.usr b').get uid.toNat = u := h.record_self
      rw [hself, dividendFee_congr h.now h.div, dividendFee_of_not_due h.not_due, add_zero]
      rfl
    · rw [h.record_ne fun hand => hi hand.2, dividendFee_congr h.now h.div]
  · rw [if_neg hb, sub_zero]
    refine Finset.sum_congr rfl fun i _ => ?_
    rw [h.record_ne fun hand => hb hand.1, dividendFee_congr h.now h.div]

/-- The profit after a fee for bank `b`. -/
theorem residue_fee {fees : Table Int64} (hsize : b.toNat < fees.size) (fee : Int64) (b' : UInt16) :
    residue ((fees.modify b.toNat (· + fee)).get b'.toNat) =
      residue (fees.get b'.toNat) + if b' = b then residue fee else 0 := by
  by_cases hb : b' = b
  · rw [hb, Table.get_modify_self _ _ hsize, residue_add, if_pos rfl]
  · have hne : b'.toNat ≠ b.toNat := fun heq => hb (UInt16.toNat_inj.mp heq)
    rw [Table.get_modify_ne _ _ hne, if_neg hb, add_zero]

theorem Visited.expectedFee (h : Visited env s s' b uid) (hsize : b.toNat < s.bankFee.size)
    (huser : uid < (s.srvs.node b).users) (b' : UInt16) :
    s'.expectedFee b' = s.expectedFee b' +
      if b' = b then missedFee s.srvs (s.record b uid) else 0 := by
  cases h with
  | idle hdiv hweight h =>
      have hsame := s.addFee_same b (bankProfit (dividend s.srvs (s.record b uid) 0).2.2)
      have hmissed : missedFee s.srvs (s.record b uid) = dividendFee s.srvs (s.record b uid) :=
        if_pos ⟨hdiv, hweight⟩
      rw [hmissed, State.expectedFee, State.expectedFee, h, hsame.dividendFees,
        lngShare_congr hsame.deposit]
      have hfee : residue ((s.addFee b _).bankFee.get b'.toNat) = _ :=
        residue_fee hsize (bankProfit (dividend s.srvs (s.record b uid) 0).2.2) b'
      rw [hfee, dividendFee]
      ring
  | post hseen h hdeposit hfee =>
      rw [missedFee, if_neg hseen, ite_self, add_zero, State.expectedFee, State.expectedFee, hfee,
        residue_fee (by rwa [Table.size_modify]), residue_fee hsize, h.dividendFees huser,
        lngShare_take hdeposit, depositBank_depositKey, depositMarked_depositKey]
      by_cases hb : b' = b
      · simp only [if_pos hb, and_true, if_pos hb.symm, dividendFee]
        ring
      · simp only [if_neg hb, if_neg fun hand : b = b' ∧ _ => hb hand.1.symm]
        ring

theorem Deposited.size_bankFee {dep : Int64} (h : Deposited env s s' key dep) :
    s'.bankFee.size = s.bankFee.size := by
  rw [h.bankFee]
  dsimp only
  split
  · rfl
  · rfl

/-- A deposit brings its share once, a marked one brings none. -/
theorem Deposited.expectedFee {dep : Int64} {rest : Map UInt64 Int64}
    (h : Deposited env s s' key dep) (hrest : rest.val key = dep)
    (hsize : (depositBank key).toNat < s.bankFee.size)
    (huser : depositUser key < (s.srvs.node (depositBank key)).users) (b : UInt16) :
    (s'.withDeposit (rest.erase key)).expectedFee b = (s.withDeposit rest).expectedFee b := by
  obtain ⟨⟨s₁, u, hsame, hpost, -⟩, hfee⟩ := h
  have hfees : s'.dividendFees b = s.dividendFees b - if b = depositBank key then
      dividendFee s.srvs (s.record (depositBank key) (depositUser key)) else 0 := by
    rw [hpost.dividendFees (by rwa [hsame.shape.users]), hsame.dividendFees, hsame.record,
      dividendFee_congr hsame.now hsame.div]
  have hshare := lngShare_take (fun k => Map.val_erase rest key k) b
  rw [hrest] at hshare
  change residue (s'.bankFee.get b.toNat) + s'.dividendFees b + lngShare (rest.erase key) b =
    residue (s.bankFee.get b.toNat) + s.dividendFees b + lngShare rest b
  rw [hfees, hshare, hfee]
  dsimp only
  by_cases hmarked : depositMarked key
  · have hnone : ¬(depositBank key = b ∧ depositMarked key = false) := by
      simp [hmarked]
    rw [if_pos hmarked, residue_fee hsize, if_neg hnone, dividendFee]
    ring
  · rw [if_neg hmarked, residue_fee (by rwa [Table.size_modify]), residue_fee hsize, dividendFee]
    rw [Bool.not_eq_true] at hmarked
    by_cases hb : b = depositBank key
    · simp only [if_pos hb, if_pos (And.intro hb.symm hmarked)]
      ring
    · simp only [if_neg hb, if_neg fun hand : depositBank key = b ∧ _ => hb hand.1.symm]
      ring

end Fees

section Sweep

variable {env : Env} {s s' : State} {b : UInt16} {uid : UInt32}

theorem Visited.size_bankFee (h : Visited env s s' b uid) : s'.bankFee.size = s.bankFee.size := by
  cases h with
  | idle _ _ h => rw [h]; rfl
  | post _ _ _ hfee => rw [hfee]; rfl

theorem Visited.step (h : Visited env s s' b uid) (huser : uid < (s.srvs.node b).users) :
    AccountStep env s s' := by
  cases h with
  | idle _ _ h => exact .same (h ▸ s.addFee_same b _)
  | post _ h hdeposit _ => exact .of_posting h huser hdeposit

/-- The sweep that began in `s`, after the accounts `pre`. -/
structure Swept (env : Env) (s : State) (pre : List (UInt16 × UInt32)) (s' : State) : Prop where
  run : Relation.ReflTransGen (AccountStep env) s s'
  size : s'.bankFee.size = s.bankFee.size
  fee : ∀ b, s'.expectedFee b = s.expectedFee b +
    ((pre.filter fun a => a.1 = b).map fun a => missedFee s.srvs (s.record a.1 a.2)).sum

theorem swept_rule (env : Env) (hfees : s.srvs.nodes.size ≤ s.bankFee.size) :
    SweepRule env s (Swept env s) where
  start := ⟨.refl, rfl, fun b => by simp⟩
  visit pre b uid s₁ s₂ hnew haccount h hvisit := by
    obtain ⟨hrun, hsize, hfee⟩ := h.holds
    have huser : uid < (s₁.srvs.node b).users := by
      rw [h.shape.users]
      exact haccount.2
    have hbank : b.toNat < s₁.bankFee.size := by
      rw [hsize]
      exact lt_of_lt_of_le haccount.1 hfees
    refine ⟨hrun.tail (hvisit.step huser), hvisit.size_bankFee.trans hsize, fun b' => ?_⟩
    have hmissed : missedFee s₁.srvs (s₁.record b uid) = missedFee s.srvs (s.record b uid) := by
      rw [h.others b uid hnew, missedFee, missedFee, dividendFee_congr h.shape.now h.shape.div,
        (dividend_congr h.shape.now h.shape.div _ 0).2.2]
    rw [hvisit.expectedFee hbank huser, hfee, hmissed, List.filter_append, List.map_append,
      List.sum_append, add_assoc]
    by_cases hb : b' = b
    · simp [hb]
    · simp [hb, Ne.symm hb]
  save _ s₁ b undo h := by
    have hsame := s₁.saveUndo_same b undo
    refine ⟨h.run.tail (.same hsame), h.size, fun b' => ?_⟩
    rw [← h.fee b', State.expectedFee, State.expectedFee, hsame.dividendFees,
      lngShare_congr hsame.deposit, State.saveUndo_bankFee]

/-- The fees that the sweep takes for nothing in a bank. -/
def State.missedFees (s : State) (b : UInt16) : ZMod (2 ^ 64) :=
  ((dividendUsers s.srvs.now b (s.srvs.node b).users).map fun uid =>
    missedFee s.srvs (s.record b uid)).sum

end Sweep

section Credit

variable {env : Env} {s s' : State} {b : UInt16}

/-- The banks over which the sweep goes: all of them in the second half of a period. -/
def State.sweptBanks (s : State) : List UInt16 :=
  if s.srvs.now / blockSec % blockDiv < blockDiv / 2 then [] else s.banks

/-- The node table fits the bank profits, the files hold the accounts and the deposits are
for accounts of the node table. -/
structure State.Ready (s : State) : Prop where
  banks : s.srvs.nodes.size ≤ bankMax
  fees : s.srvs.nodes.size ≤ s.bankFee.size
  filed : s.Filed
  targets : s.Targets

/-- The accounts of a bank among those of the sweep. -/
theorem filter_turnAccounts (s : State) {banks : List UInt16} (hnodup : banks.Nodup) (b : UInt16) :
    (banks.flatMap s.turnAccounts).filter (fun a => a.1 = b) =
      if b ∈ banks then s.turnAccounts b else [] := by
  have hturn : ∀ b', (s.turnAccounts b').filter (fun a => a.1 = b) =
      if b' = b then s.turnAccounts b' else [] := by
    intro b'
    have hbank : ∀ a ∈ s.turnAccounts b', a.1 = b' := by
      intro a ha
      obtain ⟨uid, -, rfl⟩ := List.mem_map.mp ha
      rfl
    by_cases hb : b' = b
    · rw [if_pos hb, List.filter_eq_self.mpr fun a ha => decide_eq_true ((hbank a ha).trans hb)]
    · rw [if_neg hb, List.filter_eq_nil_iff.mpr fun a ha h =>
        hb ((hbank a ha).symm.trans (of_decide_eq_true h))]
  induction banks with
  | nil => rfl
  | cons b' banks ih =>
      obtain ⟨hnew, hrest⟩ := List.nodup_cons.mp hnodup
      rw [List.flatMap_cons, List.filter_append, hturn, ih hrest]
      by_cases hb : b' = b
      · subst hb
        simp [hnew]
      · simp [hb, Ne.symm hb]

theorem commitDividends_swept (h : s.Ready) :
    (∃ s', commitDividends env s = some s' ∧ Swept env s s.sweptAccounts s') ∨
      commitDividends env s = none ∧ ∃ b, s.Unreadable b := by
  refine ((swept_rule env h.fees).run h.banks h.filed).imp_left ?_
  rintro ⟨s', hrun, hend⟩
  exact ⟨s', hrun, hend.holds⟩

/-- The profit of a bank after the sweep. -/
theorem Swept.expectedFee (hswept : Swept env s s.sweptAccounts s')
    (hbanks : s.srvs.nodes.size ≤ bankMax) (b : UInt16) :
    s'.expectedFee b = s.expectedFee b + if b ∈ s.sweptBanks then s.missedFees b else 0 := by
  rw [hswept.fee, State.sweptAccounts, State.sweptBanks]
  split
  · simp
  · rw [filter_turnAccounts s (State.nodup_banks hbanks)]
    split
    · rw [State.turnAccounts, List.map_map]
      rfl
    · rfl

theorem AccountStep.targets (h : AccountStep env s s') (ht : s.Targets) : s'.Targets := by
  intro k hk
  have hshape := h.shape
  rw [State.HasAccount, hshape.size, hshape.users]
  cases h with
  | same h => exact ht k (h.deposit k ▸ hk)
  | post _ _ hdeposit =>
      rw [hdeposit] at hk
      split at hk
      · exact absurd rfl hk
      · exact ht k hk

theorem Swept.ready {pre : List (UInt16 × UInt32)} (hswept : Swept env s pre s') (h : s.Ready) :
    s'.Ready := by
  have hshape := AccountStep.shape_of_run hswept.run
  refine ⟨hshape.size ▸ h.banks, ?_, hshape.filed h.filed, ?_⟩
  · rw [hshape.size, hswept.size]
    exact h.fees
  · have hrun := hswept.run
    clear hswept hshape
    induction hrun with
    | refl => exact h.targets
    | tail _ hstep ih => exact hstep.targets ih

theorem State.Ready.payable (h : s.Ready) : s.Payable := by
  intro k hk
  obtain ⟨-, hbank, huser⟩ := h.targets k hk
  exact ⟨hbank, lt_of_lt_of_le (UInt32.lt_iff_toNat_lt.mp huser) (h.filed _ hbank)⟩

/-- The deposits bring their shares once. -/
theorem commitDeposit_fee (env : Env) (h : s.Ready) (b : UInt16) :
    (commitDeposit env s).expectedFee b = s.expectedFee b := by
  have hloop := @depositLoop_invariant env s h.payable
    (fun pre (p : DepositPass) => p.s.bankFee.size = s.bankFee.size ∧
      (p.s.withDeposit (s.deposit.without pre)).expectedFee b = s.expectedFee b) ⟨rfl, rfl⟩ ?_
  · obtain ⟨⟨-, hfee⟩, -⟩ := hloop
    rw [Map.without_toList] at hfee
    rw [← hfee, commitDeposit]
    generalize s.deposit.foldl (depositStep env) { s := s, u := env.junk } = p
    split
    · rfl
    · have hsame := p.s.saveUndo_same p.lastsvid p.undo
      change residue (p.s.bankFee.get b.toNat) + State.dividendFees (p.s.saveUndo _ _ _) b + _ =
        residue (p.s.bankFee.get b.toNat) + p.s.dividendFees b + _
      rw [hsame.dividendFees]
      rfl
  · rintro pre key dep p hleft hval hrun ⟨hsize, hfee⟩
    have hshape := AccountStep.shape_of_run hrun
    rw [Map.without_concat, ← hfee]
    by_cases hdep : dep = 0
    · have hshare : lngShare ((s.deposit.without pre).erase key) b =
          lngShare (s.deposit.without pre) b := by
        rw [lngShare_take (fun k => Map.val_erase _ key k), hleft, hdep, lngFee_zero, ite_self,
          sub_zero]
      rw [depositStep, if_pos hdep]
      exact ⟨hsize, congrArg (_ + ·) hshare⟩
    · obtain ⟨-, hbank, huser⟩ := h.targets key (hval ▸ hdep)
      have hfile := hshape.onFile (h.payable key (hval ▸ hdep)).2
      have hdeposited : Deposited env p.s (depositStep env p key dep).s key dep :=
        depositStep_deposited hdep (hshape.size ▸ hbank) hfile
      refine ⟨hdeposited.size_bankFee.trans hsize, hdeposited.expectedFee hleft ?_ ?_ b⟩
      · rw [hsize]
        exact lt_of_lt_of_le hbank h.fees
      · have husers := hshape.users (depositBank key)
        exact lt_of_lt_of_eq huser husers.symm

/-- What the bank gets of the fees of the dividends that were paid. -/
def appliedFees (s s' : State) (b : UInt16) : ZMod (2 ^ 64) :=
  ∑ i ∈ Finset.range (s.srvs.node b).users.toNat,
    if dividendDue s.srvs ((s.usr b).get i) ∧ ¬dividendDue s'.srvs ((s'.usr b).get i) then
      dividendFee s.srvs ((s.usr b).get i)
    else 0

theorem Pays.appliedFees (h : Pays s s') (husers : (s'.srvs.node b).users = (s.srvs.node b).users) :
    s.dividendFees b = s'.dividendFees b + Esc.appliedFees s s' b := by
  rw [State.dividendFees, State.dividendFees, Esc.appliedFees, husers, ← Finset.sum_add_distrib]
  refine Finset.sum_congr rfl fun i hi => ?_
  have hlt := lt_of_lt_of_le (Finset.mem_range.mp hi) (s.srvs.node b).users.toNat_lt.le
  have hnat : (UInt32.ofNat i).toNat = i := toNat_ofNat_of_lt hlt
  have hdue := h.due b (UInt32.ofNat i)
  rw [State.record, State.record, hnat] at hdue
  by_cases hdue' : dividendDue s'.srvs ((s'.usr b).get i)
  · rw [if_neg fun hand => hand.2 hdue', hdue hdue', dividendFee_congr h.now h.div, add_zero]
  · rw [dividendFee_of_not_due hdue', zero_add]
    split
    · rfl
    · rename_i hnot
      exact dividendFee_of_not_due fun hdue => hnot ⟨hdue, hdue'⟩

/-- The deposits of `s` have been credited in `s'`: each entry to its account, together with
the dividends that were paid, and the shares of the plain entries to the banks. -/
structure DepositsCredited (s s' : State) : Prop where
  account : ∀ b uid, residue (s'.record b uid).weight =
    residue (s.record b uid).weight + appliedDividend s s' b uid + entriesTo s.deposit b uid
  total : s'.totalWeight =
    s.totalWeight + s.entries + ∑ a ∈ s.allAccounts, appliedDividend s s' a.1 a.2
  fee : ∀ b : UInt16, residue (s'.bankFee.get b.toNat) =
    residue (s.bankFee.get b.toNat) + lngShare s.deposit b + appliedFees s s' b +
      if b ∈ s.sweptBanks then s.missedFees b else 0
  empty : s'.deposit = ∅

/-- Every deposit is credited once by the sweep and the loop over the deposits. The program
ends only at an account record without a message number. -/
theorem commitDeposit_credits_once (env : Env) (h : s.Ready) :
    (∃ s₁, commitDividends env s = some s₁ ∧ DepositsCredited s (commitDeposit env s₁)) ∨
      commitDividends env s = none ∧ ∃ b, s.Unreadable b := by
  refine (commitDividends_swept h).imp_left ?_
  rintro ⟨s₁, hs₁, hswept⟩
  have hready := hswept.ready h
  have hrun : Relation.ReflTransGen (AccountStep env) s (commitDeposit env s₁) :=
    hswept.run.trans (commitDeposit_run hready.payable)
  have hpays := AccountStep.pays_of_run hrun
  have hshape := AccountStep.shape_of_run hrun
  have haccount := hpays.weight rfl
  refine ⟨s₁, hs₁, haccount, ?_, fun b => ?_, rfl⟩
  · have haccounts : (commitDeposit env s₁).allAccounts = s.allAccounts := by
      ext a
      rw [State.mem_allAccounts, State.mem_allAccounts, State.HasAccount, State.HasAccount,
        hshape.size, hshape.users]
    rw [State.totalWeight, haccounts, Finset.sum_congr rfl fun a _ => haccount a.1 a.2,
      Finset.sum_add_distrib, Finset.sum_add_distrib, h.targets.sum_entriesTo, State.totalWeight]
    ring
  · have hfee := (commitDeposit_fee env hready b).trans (hswept.expectedFee h.banks b)
    have happlied := hpays.appliedFees (hshape.users b)
    have hnone : lngShare (commitDeposit env s₁).deposit b = 0 := Map.total_empty _
    rw [State.expectedFee, State.expectedFee, hnone, happlied] at hfee
    linear_combination hfee

end Credit

namespace Sample

def creditEnv : Env where
  svid := 1
  sha256 _ := 0
  signOpenBatch2 _ := true
  findKey _ := none
  junk := {}

/-- A bank with one account that has a plain and a marked deposit. -/
def creditState : State where
  srvs := { now := 512 * 1024, nodes := .ofList [{}, { users := 1 }] }
  last := {}
  usr b := if b = 1 then .ofList [{ msid := 1, weight := 1000 }] else .empty
  deposit := ((∅ : Map UInt64 Int64).adjust (depositKey 1 0) fun _ => 5000000).adjust
    (depositKey 1 0 + 0x1000000000000) fun _ => 70000
  bankFee := .ofList [0, 0]

end Sample

theorem creditState_ready : Sample.creditState.Ready := by
  refine ⟨by decide, by decide, fun b hb => ?_, fun k hk => ?_⟩
  · have hcases : b = 0 ∨ b = 1 := by
      change b.toNat < 2 at hb
      rw [← UInt16.toNat_inj, ← UInt16.toNat_inj]
      change b.toNat = 0 ∨ b.toNat = 1
      omega
    rcases hcases with rfl | rfl
    · decide
    · decide
  · rw [Sample.creditState, Map.val_adjust, Map.val_adjust, Map.val_empty] at hk
    by_cases hmarked : k = depositKey 1 0 + 0x1000000000000
    · rw [hmarked]
      decide
    · rw [if_neg hmarked] at hk
      by_cases hplain : k = depositKey 1 0
      · rw [hplain]
        decide
      · rw [if_neg hplain] at hk
        exact absurd rfl hk

theorem commitDeposit_credits_both :
    ∃ s₁, commitDividends Sample.creditEnv Sample.creditState = some s₁ ∧
      DepositsCredited Sample.creditState (commitDeposit Sample.creditEnv s₁) := by
  refine (commitDeposit_credits_once Sample.creditEnv creditState_ready).resolve_right
    fun hstop => ?_
  have hrun : (commitDividends Sample.creditEnv Sample.creditState).isSome = true := by
    decide +kernel
  rw [hstop.1] at hrun
  cases hrun

end Esc
