import Esc.Server.Funds
import Esc.Server.Ledger

/-!
# The books of a bank

A node keeps the sum of the weights and the XOR of the checksums of its accounts.
`check_nodehash` compares both with the account file. A posting changes one account
and exchanges its part in the two totals, so it keeps them correct when the account
is one of those that are counted.
-/

namespace Esc

open Lib

/-- The sum of the weights of the accounts of a bank, in 64 bits. -/
def State.bankWeight (s : State) (b : UInt16) : Int64 :=
  (s.usr b).accumulate (· + ·) 0 User.weight (s.srvs.node b).users.toNat

/-- The XOR of the checksums of the accounts of a bank. -/
def State.bankHash (s : State) (b : UInt16) : Hash :=
  (s.usr b).accumulate (· ^^^ ·) 0 User.csum (s.srvs.node b).users.toNat

/-- `check_nodehash` succeeds. -/
structure State.Booked (s : State) (b : UInt16) : Prop where
  weight : (s.srvs.node b).weight = s.bankWeight b
  hash : (s.srvs.node b).hash = s.bankHash b

instance (s : State) (b : UInt16) : Decidable (s.Booked b) :=
  decidable_of_iff ((s.srvs.node b).weight = s.bankWeight b ∧ (s.srvs.node b).hash = s.bankHash b)
    ⟨fun h => ⟨h.1, h.2⟩, fun h => ⟨h.weight, h.hash⟩⟩

section Totals

variable {s s' : State} {b : UInt16}

/-- The totals of a bank whose counted records did not change. -/
theorem State.bank_congr (husers : (s'.srvs.node b).users = (s.srvs.node b).users)
    (hrecord : ∀ i < (s.srvs.node b).users.toNat, (s'.usr b).get i = (s.usr b).get i) :
    s'.bankWeight b = s.bankWeight b ∧ s'.bankHash b = s.bankHash b := by
  rw [bankWeight, bankHash, husers]
  exact ⟨Table.accumulate_congr fun j hj => congrArg User.weight (hrecord j hj),
    Table.accumulate_congr fun j hj => congrArg User.csum (hrecord j hj)⟩

/-- What the records of a bank hold beyond the total of its node. -/
def State.excess (s : State) (b : UInt16) : Int64 := s.bankWeight b - (s.srvs.node b).weight

/-- The XOR of the records of a bank against the total of its node. -/
def State.hashError (s : State) (b : UInt16) : Hash := s.bankHash b ^^^ (s.srvs.node b).hash

theorem State.booked_iff : s.Booked b ↔ s.excess b = 0 ∧ s.hashError b = 0 := by
  have hhash : s.hashError b = 0 ↔ s.bankHash b = (s.srvs.node b).hash :=
    BitVec.xor_eq_zero_iff
  rw [hhash, excess]
  constructor
  · intro h
    exact ⟨by rw [h.weight, Int64.sub_self], h.hash.symm⟩
  · rintro ⟨hweight, hhash⟩
    exact ⟨by grind, hhash.symm⟩

theorem SameAccounts.excess (h : SameAccounts s s') :
    s'.excess b = s.excess b ∧ s'.hashError b = s.hashError b := by
  obtain ⟨hweight, hhash⟩ := @State.bank_congr s s' b (by rw [h.node]) (fun i _ => by rw [h.usr])
  rw [State.excess, State.hashError, hweight, hhash, h.node]
  exact ⟨rfl, rfl⟩

end Totals

/-- The dividend of the account, if one is due, is not the reserved value. -/
def Plain (v : Servers) (u : User) : Prop := dividendDue v u → dividendValue v u ≠ noDividend

instance (v : Servers) (u : User) : Decidable (Plain v u) := inferInstanceAs (Decidable (_ → _))

/-- What a dividend adds to an account and its caller does not book. -/
def unbooked (v : Servers) (u : User) : Int64 := if Plain v u then 0 else noDividend

theorem dividend_weight (v : Servers) (u : User) (fee : Int64) :
    (dividend v u fee).2.1.weight = u.weight + paid (dividend v u fee).1 + unbooked v u := by
  by_cases hdue : dividendDue v u
  · rw [dividend_of_due fee hdue]
    by_cases hvalue : dividendValue v u = noDividend
    · have hunbooked : unbooked v u = noDividend := if_neg fun h => h hdue hvalue
      simp [hunbooked, hvalue]
    · have hunbooked : unbooked v u = 0 := if_pos fun _ => hvalue
      have hpaid : paid (dividendValue v u) = dividendValue v u := if_neg hvalue
      simp [hunbooked, hpaid]
  · have hunbooked : unbooked v u = 0 := if_pos fun h => absurd h hdue
    simp [dividend_of_not_due fee hdue, hunbooked]

theorem unbooked_congr {v v' : Servers} (hnow : v'.now = v.now) (hdiv : v'.div = v.div) (u : User) :
    unbooked v' u = unbooked v u := by
  obtain ⟨hdue, hvalue, -⟩ := dividend_congr hnow hdiv u 0
  rw [unbooked, unbooked]
  refine if_congr ?_ rfl rfl
  rw [Plain, Plain, hdue, hvalue]

/-- The reserved value is odd, so no number of accounts makes up for it. -/
theorem ofNat_mul_noDividend {k : Nat} (hk : k < 2 ^ 63) (h : Int64.ofNat k * noDividend = 0) :
    k = 0 := by
  have hinverse : noDividend * 8070450532247928831 = 1 := by decide
  have hzero : Int64.ofNat k = 0 := by
    rw [← Int64.mul_one (Int64.ofNat k), ← hinverse, ← Int64.mul_assoc, h, Int64.zero_mul]
  have hint := congrArg Int64.toInt hzero
  rw [Int64.toInt_ofNat_of_lt hk] at hint
  simpa using hint

section Posting

variable {env : Env} {s s' : State} {b : UInt16} {uid : UInt32} {amount : Int64} {u : User}

theorem Posting.record_ne (h : Posting env s s' b uid amount u) {b' : UInt16} {i : Nat}
    (hne : ¬(b' = b ∧ i = uid.toNat)) : (s'.usr b').get i = (s.usr b').get i := by
  rw [h.usr]
  by_cases hb : b' = b
  · subst hb
    rw [Function.update_self, Table.get_set_ne _ _ fun hi => hne ⟨rfl, hi⟩]
  · rw [Function.update_of_ne hb]

theorem Posting.record_self (h : Posting env s s' b uid amount u) : s'.record b uid = u := by
  rw [State.record, h.usr, Function.update_self, Table.get_set_self _ _ h.onFile]

/-- A posting to a counted account keeps the hash of its bank, and its total but for what
the dividend does not book. -/
theorem Posting.excess (h : Posting env s s' b uid amount u)
    (huser : uid < (s.srvs.node b).users) :
    s'.excess b = s.excess b + unbooked s.srvs (s.record b uid) ∧
      s'.hashError b = s.hashError b := by
  have husers := h.shape.users b
  have hself : (s'.usr b).get uid.toNat = u := h.record_self
  have hlt : uid.toNat < (s.srvs.node b).users.toNat := UInt32.lt_iff_toNat_lt.mp huser
  have hrest : ∀ j < (s.srvs.node b).users.toNat, j ≠ uid.toNat →
      (s'.usr b).get j = (s.usr b).get j :=
    fun j _ hj => h.record_ne fun hjb => hj hjb.2
  have hweight : s'.bankWeight b + (s.record b uid).weight = s.bankWeight b + u.weight := by
    rw [State.bankWeight, husers, ← hself]
    exact Table.accumulate_exchange hlt fun j hj hne => congrArg User.weight (hrest j hj hne)
  have hhash : s'.bankHash b ^^^ (s.record b uid).csum = s.bankHash b ^^^ u.csum := by
    rw [State.bankHash, husers, ← hself]
    exact Table.accumulate_exchange hlt fun j hj hne => congrArg User.csum (hrest j hj hne)
  have hpost := h.weight
  rw [dividend_weight] at hpost
  constructor
  · rw [State.excess, State.excess, h.node]
    dsimp only
    grind
  · have hcancel := congrArg (· ^^^ (s.record b uid).csum) hhash
    simp only [BitVec.xor_assoc, BitVec.xor_self, BitVec.xor_zero] at hcancel
    rw [State.hashError, State.hashError, h.node, hcancel]
    calc s.bankHash b ^^^ (u.csum ^^^ (s.record b uid).csum) ^^^
          ((s.srvs.node b).hash ^^^ (s.record b uid).csum ^^^ u.csum)
        = s.bankHash b ^^^ (s.srvs.node b).hash ^^^ (u.csum ^^^ u.csum) ^^^
          ((s.record b uid).csum ^^^ (s.record b uid).csum) := by ac_rfl
      _ = s.bankHash b ^^^ (s.srvs.node b).hash := by simp

theorem Posting.excess_ne (h : Posting env s s' b uid amount u) {b' : UInt16} (hb : b' ≠ b) :
    s'.excess b' = s.excess b' ∧ s'.hashError b' = s.hashError b' := by
  obtain ⟨hweight, hhash⟩ :=
    State.bank_congr (h.shape.users b') fun i _ => h.record_ne fun hi => hb hi.1
  rw [State.excess, State.hashError, hweight, hhash, h.node_ne b' hb]
  exact ⟨rfl, rfl⟩

end Posting

end Esc
