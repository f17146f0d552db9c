import Esc.Office.Handlers
import Esc.Server.LoopSpec

/-!
# Reuse of deleted accounts

The office hands out the id of a deleted account when the record is nearly empty and old
enough, and the network tests the record again when the creation is processed. Both sides
compare weight and age on their own: the office also takes an account that holds exactly the
dividend fee, and it measures the age from the time of the request.
-/

namespace Esc

open Lib

/-- The office and the loop of `process_message` have the same accounts. -/
structure OfficeInStep (o : OfficeState) (L : Loop) : Prop where
  users : L.users = o.users
  record : ∀ uid < o.users, L.user uid.toNat = o.user uid

theorem overwriteDenied_eq_false {now : UInt32} {u : User} :
    overwriteDenied now u = false ↔
      u.stat &&& userStatDeleted ≠ 0 ∧ u.weight < txsDivFee ∧
        (u.lpath.toNat : Int) + userMinAge < now.toNat := by
  simp only [overwriteDenied, Bool.or_eq_false_iff, beq_eq_false_iff_ne, decide_eq_false_iff_not,
    not_le, Int64.not_le, and_assoc]
  refine and_congr_right fun _ => and_congr_right fun _ => ?_
  omega

/-- A creation in the place of an account succeeds if the account may be overwritten. -/
theorem createAccount_ok_iff (c : Ctx) {L : Loop} {nuser : UInt32} (hlt : nuser < L.users)
    (mass : Int64) (pkey : Hash) (time : UInt32) :
    (∃ L', createAccount c L nuser mass pkey time = .ok L') ↔
      overwriteDenied c.s.srvs.now (L.user nuser.toNat) = false := by
  constructor
  · rintro ⟨L', h⟩
    rcases createAccount_cases h with ⟨-, hallowed, -⟩ | ⟨heq, -⟩
    · exact hallowed
    · exact absurd hlt (heq ▸ UInt32.lt_irrefl _)
  · intro hallowed
    rw [createAccount, if_neg (UInt32.not_lt.mpr (UInt32.le_of_lt hlt)), if_pos hlt]
    simp only [Loop.fetch_val, hallowed]
    exact ⟨_, rfl⟩

/-- The id that `add_user` takes from the deleted accounts passes the test of
`process_message` exactly when the account does not hold the dividend fee and is old enough at
the time of the block. It is old enough unless the request was dated far after the block. -/
theorem addUser_overwrite_iff (env : OfficeEnv) (o : OfficeState) (abank : UInt16) (pk : Hash)
    (time : UInt32) (c : Ctx) (L : Loop) (mass : Int64) (pkey : Hash) (ttime : UInt32)
    (hsame : OfficeInStep o L) {nuser : UInt32} {rest : List UInt32}
    (hqueue : o.queue time = nuser :: rest) :
    ((∃ L', createAccount c L (o.addUser env abank pk time).1 mass pkey ttime = .ok L') ↔
      (o.user nuser).weight ≠ txsDivFee ∧
        ((o.user nuser).lpath.toNat : Int) + userMinAge < c.s.srvs.now.toNat) ∧
      ((time.toNat : Int) ≤ c.s.srvs.now.toNat + 7 * userMinAge →
        ((o.user nuser).lpath.toNat : Int) + userMinAge < c.s.srvs.now.toNat) := by
  have hpicked : (o.addUser env abank pk time).1 = nuser := by
    rw [OfficeState.addUser_of_cons hqueue]
  have hmem : nuser ∈ o.queue time := by
    rw [hqueue]
    exact List.mem_cons_self
  have hlt : nuser < o.users := o.deleted nuser (OfficeState.mem_of_mem_queue hmem)
  have hreusable := OfficeState.reusable_of_queue hqueue
  simp only [OfficeState.reusable, Bool.and_eq_true, decide_eq_true_eq, bne_iff_ne,
    officeUserMinAge] at hreusable
  obtain ⟨⟨hweight, hstat⟩, hage⟩ := hreusable
  rw [hpicked, createAccount_ok_iff c (hsame.users ▸ hlt), hsame.record nuser hlt,
    overwriteDenied_eq_false]
  constructor
  · constructor
    · rintro ⟨-, hless, hold⟩
      exact ⟨fun heq => Int64.lt_irrefl (heq ▸ hless), hold⟩
    · rintro ⟨hne, hold⟩
      exact ⟨hstat, Int64.lt_of_le_of_ne hweight hne, hold⟩
  · intro htime
    have hold := of_decide_eq_true hage
    omega

namespace Sample

/-- Account 1 was deleted at time 0 with the given weight. -/
def deletedAccount (weight : Int64) : User := { weight, stat := userStatDeleted }

def reuseOffice (weight : Int64) : OfficeState where
  svid := 1
  users := 2
  deletedUsers := [1]
  offifd := Table.ofList [{}, deletedAccount weight]
  onFile := Nat.le_refl 2
  deleted := by simp

def reuseLoop (weight : Int64) : Loop where
  port := 0
  ipv4 := 0
  acc := ⟨2, .empty, Table.ofList [{}, deletedAccount weight]⟩
  bro := []
  office := {}
  users := 2

/-- The creation is processed in a block at the time of the request. -/
def reuseCtx : Ctx where
  env := ⟨1, fun _ => 0, fun _ => true, fun _ => none, {}⟩
  s := { srvs := { now := 50000000 }, last := {}, usr := fun _ => .empty }
  msg := ⟨1, 1, 50000000, 0, 0, false, [], by decide⟩

theorem officeInStep_reuse (weight : Int64) :
    OfficeInStep (reuseOffice weight) (reuseLoop weight) where
  users := rfl
  record uid huid := by
    have hnone : (reuseLoop weight).changes[UInt32.ofNat uid.toNat]? = none :=
      Std.ExtTreeMap.getElem?_empty
    rw [Loop.user, hnone]
    rfl

end Sample

/-- An account with less than the dividend fee is created again. -/
theorem addUser_overwrite_light :
    ∃ L', createAccount Sample.reuseCtx (Sample.reuseLoop 0)
      ((Sample.reuseOffice 0).addUser Sample.fullDisk 1 7 50000000).1 userMinMass 7 50000000 =
        .ok L' := by
  have hqueue : (Sample.reuseOffice 0).queue 50000000 = [1] := by decide +kernel
  exact (addUser_overwrite_iff Sample.fullDisk (Sample.reuseOffice 0) 1 7 50000000 Sample.reuseCtx
    (Sample.reuseLoop 0) userMinMass 7 50000000 (Sample.officeInStep_reuse 0) hqueue).1.mpr
    (by decide +kernel)

/-- The office picks account 1, which holds exactly the dividend fee, and the network refuses
the creation. -/
theorem addUser_overwrite_refused :
    OfficeInStep (Sample.reuseOffice txsDivFee) (Sample.reuseLoop txsDivFee) ∧
      (Sample.reuseOffice txsDivFee).queue 50000000 = [1] ∧
      ((Sample.reuseOffice txsDivFee).addUser Sample.fullDisk 1 7 50000000).1 = 1 ∧
      (createAccount Sample.reuseCtx (Sample.reuseLoop txsDivFee) 1 userMinMass 7
        50000000).toOption.isNone := by
  exact ⟨Sample.officeInStep_reuse _, by decide +kernel, by decide +kernel, by decide +kernel⟩

end Esc
