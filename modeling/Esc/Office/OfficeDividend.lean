import Esc.Office.Office
import Esc.Server.Dividend

/-!
# The dividends of the office

When a dividend period starts, the office computes the dividends of all its accounts from the
account file of the ledger, and adds them to its own copy. The ledger pays an account when the
account is first touched in the period. Both take the age of the account into account, the office
at the start of the period and the ledger at the time of the touch.
-/

namespace Esc

open Lib

/-! ## The office -/

/-- The amount that `update_div` logs for a record. -/
def officeDividend (now newdiv : UInt32) (u : User) : Int64 :=
  let div :=
    if u.lpath < now - accountDormantAge then -txsGokFee u.weight
    else if u.lpath < now - accountInactiveAge then 0
    else (u.weight >>> 16) * Int64.ofNat newdiv.toNat
  let div := div - txsDivFee
  if div < -u.weight then -u.weight else div

namespace OfficeState

/-- The amount for one account. An account that the ledger does not have yet is read from the file
of the office. -/
def updateDivUser (o : OfficeState) (now newdiv : UInt32) (file : Table User)
    (user : Nat) : Int64 :=
  match file.read? user with
  | some u => officeDividend now newdiv u
  | none =>
    let u := o.offifd.get user
    if now ≤ u.rpath then 0 else officeDividend now newdiv { u with weight := userMinMass }

/-- `office::update_div`, as the amounts in the file that it writes. -/
def updateDiv (o : OfficeState) (now newdiv : UInt32) (file : Table User) : List Int64 :=
  if o.svid = 0 then []
  else (List.range o.users.toNat).map (o.updateDivUser now newdiv file)

/-- `office::process_div`, without the log. -/
def processDiv (o : OfficeState) (divs : List Int64) : OfficeState :=
  if o.svid = 0 then o
  else ((List.range o.users.toNat).zip divs).foldl (fun o p => o.addDeposit (.ofNat p.1) p.2) o

theorem size_addDeposit (o : OfficeState) (uid : UInt32) (mass : Int64) :
    (o.addDeposit uid mass).offifd.size = o.offifd.size := rfl

theorem user_addDeposit_self (o : OfficeState) {uid : UInt32} (h : uid.toNat < o.offifd.size)
    (mass : Int64) : ((o.addDeposit uid mass).user uid).weight = (o.user uid).weight + mass := by
  rw [addDeposit, user, putUser, Table.get_set_self _ _ h]

theorem user_addDeposit_ne (o : OfficeState) {uid other : UInt32} (h : uid ≠ other) (mass : Int64) :
    (o.addDeposit other mass).user uid = o.user uid := by
  rw [addDeposit, user, putUser]
  exact Table.get_set_ne _ _ (UInt32.toNat_inj.ne.mpr h)

/-- An account that no amount is for. -/
theorem user_foldl_addDeposit_of_forall {uid : UInt32} {ps : List (Nat × Int64)}
    (h : ∀ p ∈ ps, uid ≠ .ofNat p.1) (o : OfficeState) :
    (ps.foldl (fun o p => o.addDeposit (.ofNat p.1) p.2) o).user uid = o.user uid := by
  induction ps generalizing o with
  | nil => rfl
  | cons p ps ih =>
    obtain ⟨hp, hps⟩ := List.forall_mem_cons.mp h
    rw [List.foldl_cons, ih hps, user_addDeposit_ne o hp]

theorem size_foldl_addDeposit (ps : List (Nat × Int64)) (o : OfficeState) :
    (ps.foldl (fun o p => o.addDeposit (.ofNat p.1) p.2) o).offifd.size = o.offifd.size := by
  induction ps generalizing o with
  | nil => rfl
  | cons p ps ih => rw [List.foldl_cons, ih, size_addDeposit]

/-- Every account gets the amount that was logged for it. -/
theorem user_processDiv (o : OfficeState) (hsvid : o.svid ≠ 0) {uid : UInt32} (huid : uid < o.users)
    (now newdiv : UInt32) (file : Table User) :
    ((o.processDiv (o.updateDiv now newdiv file)).user uid).weight =
      (o.user uid).weight + o.updateDivUser now newdiv file uid.toNat := by
  have hlt : uid.toNat < o.users.toNat := UInt32.lt_iff_toNat_lt.mp huid
  have hsmall := o.users.toNat_lt
  obtain ⟨a, b, hsplit⟩ := List.append_of_mem (List.mem_range.mpr hlt)
  have hnodup : (a ++ uid.toNat :: b).Nodup := hsplit ▸ List.nodup_range
  rw [List.nodup_append, List.nodup_cons] at hnodup
  obtain ⟨-, ⟨hb, -⟩, ha⟩ := hnodup
  have hne {i : Nat} (hi : i ∈ List.range o.users.toNat) (hne : i ≠ uid.toNat) :
      uid ≠ .ofNat i := by
    intro heq
    rw [heq, UInt32.toNat_ofNat_of_lt' ((List.mem_range.mp hi).trans hsmall)] at hne
    exact hne rfl
  have hbefore : ∀ p ∈ a.map fun i => (i, o.updateDivUser now newdiv file i), uid ≠ .ofNat p.1 := by
    intro p hp
    obtain ⟨i, hi, rfl⟩ := List.mem_map.mp hp
    exact hne (hsplit ▸ List.mem_append_left _ hi) (ha i hi _ List.mem_cons_self)
  have hafter : ∀ p ∈ b.map fun i => (i, o.updateDivUser now newdiv file i), uid ≠ .ofNat p.1 := by
    intro p hp
    obtain ⟨i, hi, rfl⟩ := List.mem_map.mp hp
    exact hne (hsplit ▸ List.mem_append_right _ (List.mem_cons_of_mem _ hi))
      (ne_of_mem_of_not_mem hi hb)
  rw [processDiv, if_neg hsvid, updateDiv, if_neg hsvid, ← List.map_prod_left_eq_zip, hsplit,
    List.map_append, List.map_cons, List.foldl_append, List.foldl_cons,
    user_foldl_addDeposit_of_forall hafter, UInt32.ofNat_toNat, user_addDeposit_self,
    user_foldl_addDeposit_of_forall hbefore]
  rw [size_foldl_addDeposit]
  exact hlt.trans_le o.onFile

end OfficeState

/-! ## The ages of an account -/

inductive AgeClass where
  | dormant
  | inactive
  | active
deriving DecidableEq

/-- The age of an account that was last used at `lpath`. -/
def ageClass (now lpath : UInt32) : AgeClass :=
  if lpath < now - accountDormantAge then .dormant
  else if lpath < now - accountInactiveAge then .inactive
  else .active

/-- What an account of an age gets before the fee. -/
def AgeClass.share (u : User) (div : UInt32) : AgeClass → Int64
  | dormant => -txsGokFee u.weight
  | inactive => 0
  | active => (u.weight >>> 16) * Int64.ofNat div.toNat

/-- Less the fee, but no more is taken than there is. -/
def limited (weight share : Int64) : Int64 :=
  if share - txsDivFee < -weight then -weight else share - txsDivFee

theorem officeDividend_eq (now newdiv : UInt32) (u : User) :
    officeDividend now newdiv u = limited u.weight ((ageClass now u.lpath).share u newdiv) := by
  rw [officeDividend, ageClass]
  split
  · rfl
  · split <;> rfl

theorem dividendValue_eq (v : Servers) (u : User) :
    dividendValue v u = limited u.weight ((ageClass v.now u.lpath).share u v.div) := by
  rw [dividendValue, dividendAmount, ageClass]
  split
  · rfl
  · split <;> rfl

/-- Two shares come to the same if they are the same, or if both charges take the balance. -/
theorem limited_eq_iff (weight share share' : Int64) :
    limited weight share = limited weight share' ↔ share = share' ∨
      share - txsDivFee ≤ -weight ∧ share' - txsDivFee ≤ -weight := by
  rw [limited, limited, ← @Int64.sub_left_inj share share' txsDivFee]
  generalize share - txsDivFee = x
  generalize share' - txsDivFee = y
  generalize -weight = m
  simp only [Int64.lt_iff_toInt_lt, Int64.le_iff_toInt_le, ← Int64.toInt_inj]
  split <;> split <;> omega

/-- Two ages make no difference to an account. -/
def SameShare (u : User) (div : UInt32) (a b : AgeClass) : Prop :=
  a = b ∨ a.share u div = b.share u div ∨
    a.share u div - txsDivFee ≤ -u.weight ∧ b.share u div - txsDivFee ≤ -u.weight

/-- The office and the ledger credit the same amount to an account that was not touched since before
the period, if and only if the account has the same age at the start of the period and at its first
touch, or its balance and the rate make no difference between the two. -/
theorem processDiv_iff (v : Servers) (o : OfficeState) (hsvid : o.svid ≠ 0) (uid : UInt32)
    (huid : uid < o.users) (file : Table User) {u : User} (hread : file.read? uid.toNat = some u)
    (hdue : dividendDue v u) (fee : Int64) :
    ((o.processDiv (o.updateDiv v.periodStart v.div file)).user uid).weight =
        (o.user uid).weight + (dividend v u fee).1 ↔
      SameShare u v.div (ageClass v.periodStart u.lpath) (ageClass v.now u.lpath) := by
  rw [o.user_processDiv hsvid huid, OfficeState.updateDivUser, hread, dividend_of_due fee hdue]
  dsimp only
  rw [Int64.add_right_inj, officeDividend_eq, dividendValue_eq, limited_eq_iff, SameShare]
  refine ⟨.inr, fun h => h.elim (fun hage => .inl ?_) id⟩
  rw [hage]

namespace Sample

/-- The second block of a dividend period. -/
def secondBlock : Servers where
  now := 1572864000 + 512
  div := 655

/-- An account that was used a year before the period. -/
def yearOld : User where
  msid := 1
  lpath := 1572864000 - accountInactiveAge
  weight := 100000000000

/-- An account that was used a month before the period. -/
def monthOld : User where
  msid := 1
  lpath := 1572864000 - 30 * 24 * 3600
  weight := 100000000000

theorem oneAccount_onFile (u : User) : (1 : UInt32).toNat ≤ (Table.ofList [u]).size :=
  Nat.le_refl 1

theorem oneAccount_deleted : ∀ uid ∈ ([] : List UInt32), uid < 1 :=
  fun _ h => absurd h List.not_mem_nil

/-- An office with one account. -/
def oneAccount (u : User) : OfficeState where
  svid := 1
  users := 1
  offifd := Table.ofList [u]
  onFile := oneAccount_onFile u
  deleted := oneAccount_deleted

end Sample

/-- An account of the same age at both times gets the same from the office and the ledger. -/
theorem processDiv_monthOld :
    (((Sample.oneAccount Sample.monthOld).processDiv ((Sample.oneAccount Sample.monthOld).updateDiv
      Sample.secondBlock.periodStart 655 (.ofList [Sample.monthOld]))).user 0).weight =
      100000000000 + (dividend Sample.secondBlock Sample.monthOld 0).1 :=
  (processDiv_iff Sample.secondBlock (Sample.oneAccount Sample.monthOld) (by decide) 0 (by decide)
    (.ofList [Sample.monthOld]) rfl (by decide) 0).mpr (.inl (by decide))

/-- An account that becomes inactive between the start of the period and its first touch: the
office credits a dividend, and the ledger takes the fee. -/
theorem processDiv_yearOld :
    dividendDue Sample.secondBlock Sample.yearOld ∧
    (((Sample.oneAccount Sample.yearOld).processDiv ((Sample.oneAccount Sample.yearOld).updateDiv
      Sample.secondBlock.periodStart 655 (.ofList [Sample.yearOld]))).user 0).weight =
        100000000000 + 979450090 ∧
      (dividend Sample.secondBlock Sample.yearOld 0).1 = -20000000 := by
  decide

end Esc
