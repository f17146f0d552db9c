import Esc.Server.UndoBank
import Esc.Server.UndoLog

/-!
# The undo file of a block

During a block the records of a bank are changed many times. Each time `save_undo` is given the
records as they were, and it keeps only the first one of each account. So the undo file of a block
has the records from before the block of the accounts that were changed in it.
-/

namespace Esc

open Lib

/-- Records of a bank that are written at once, and the number of its accounts for `save_undo`. -/
structure BankUpdate where
  changes : Map UInt32 User
  users : UInt32 := 0

/-- The account file of a bank, its node record, and its undo file of the open block if there is
one. -/
structure BankFiles where
  usr : Table User
  node : Node
  und : Option (Table User) := none

namespace BankFiles

def undoFile (b : BankFiles) : Table User := b.und.getD .empty

/-- The records of the accounts before an update. -/
def undoRecords (b : BankFiles) (c : BankUpdate) : Map UInt32 User :=
  c.changes.map fun uid _ => b.usr.get uid.toNat

/-- `save_undo` for the accounts of an update. The file is created if it is not there. -/
def saved (b : BankFiles) (c : BankUpdate) : Node × Table User :=
  saveUndo b.node b.undoFile (b.undoRecords c) c.users

/-- Save the old records and write the new ones. `save_undo` asserts that every account has a
changed bit. -/
def update (b : BankFiles) (c : BankUpdate) : Option BankFiles :=
  if ∀ uid ∈ c.changes.keys, uid.toNat < (b.saved c).1.changed.size then
    some
      { usr := b.usr.writeAll UInt32.toNat c.changes
        node := (b.saved c).1
        und := some (b.saved c).2 }
  else none

def updates (b : BankFiles) (cs : List BankUpdate) : Option BankFiles := cs.foldlM update b

/-- The end of a block: `clear_undo`, and the next block has its own file. -/
def close (b : BankFiles) : BankFiles where
  usr := b.usr
  node := { b.node with changed := b.node.changed.mapIdx fun _ _ => false }

theorem users_close (b : BankFiles) : b.close.node.users = b.node.users := rfl

/-- Some blocks, each with its updates. -/
def blocks (b : BankFiles) (bs : List (List BankUpdate)) : Option BankFiles :=
  bs.foldlM (fun b cs => (b.updates cs).map close) b

/-- At the start of a block nothing is saved, and all accounts have a changed bit. -/
structure Fresh (b : BankFiles) : Prop where
  und : b.und = none
  changed : ∀ i, b.node.changed.get i = false
  bits : b.node.changed.size = 64 * (1 + b.node.users.toNat / 64)

end BankFiles

/-- The account is changed by one of the updates. -/
def Touched (cs : List BankUpdate) (uid : UInt32) : Prop := ∃ c ∈ cs, uid ∈ c.changes

theorem not_touched_nil (uid : UInt32) : ¬ Touched [] uid := by simp [Touched]

theorem touched_append {cs : List BankUpdate} {c : BankUpdate} {uid : UInt32} :
    Touched (cs ++ [c]) uid ↔ Touched cs uid ∨ uid ∈ c.changes := by
  simp [Touched, or_and_right, exists_or]

/-! ## The file that an update writes -/

/-- A set changed bit says that the account is in the undo file. -/
def Recorded (changed : Table Bool) (und : Table User) : Prop :=
  ∀ i, changed.get i → i < und.size

theorem Recorded.saveUndoUser {acc : Table Bool × Table User} (h : Recorded acc.1 acc.2)
    (uid : UInt32) (u : User) :
    Recorded (saveUndoUser acc uid u).1 (saveUndoUser acc uid u).2 ∧
      ∀ m, (saveUndoUser acc uid u).2.size ≤ m ↔ acc.2.size ≤ m ∧ uid.toNat < m := by
  rw [Esc.saveUndoUser]
  by_cases hbit : acc.1.get uid.toNat
  · rw [if_pos hbit]
    refine ⟨h, fun m => ⟨fun hle => ⟨hle, (h _ hbit).trans_le hle⟩, And.left⟩⟩
  · rw [if_neg hbit]
    refine ⟨fun i hi => ?_, fun m => max_le_iff⟩
    show i < max acc.2.size (uid.toNat + 1)
    by_cases heq : i = uid.toNat
    · rw [heq]
      exact lt_max_of_lt_right (Nat.lt_succ_self _)
    · rw [Table.get_set_ne _ _ heq] at hi
      exact lt_max_of_lt_left (h i hi)

/-- The undo file ends behind the last account that is saved. -/
theorem Recorded.foldl {changed : Table Bool} {und : Table User} (h : Recorded changed und)
    (undo : Map UInt32 User) :
    Recorded (undo.foldl Esc.saveUndoUser (changed, und)).1
        (undo.foldl Esc.saveUndoUser (changed, und)).2 ∧
      ∀ m, (undo.foldl Esc.saveUndoUser (changed, und)).2.size ≤ m ↔
        und.size ≤ m ∧ ∀ uid ∈ undo, uid.toNat < m := by
  obtain ⟨hrecorded, hsize⟩ := Map.foldl_invariant (f := Esc.saveUndoUser) (m := undo)
    (fun pre acc => Recorded acc.1 acc.2 ∧
      ∀ m, acc.2.size ≤ m ↔ und.size ≤ m ∧ ∀ p ∈ pre, p.1.toNat < m)
    (s := (changed, und)) ⟨h, by simp⟩ (by
      rintro pre uid u acc - - ⟨hacc, hle⟩
      obtain ⟨hnext, hstep⟩ := hacc.saveUndoUser uid u
      refine ⟨hnext, fun m => ?_⟩
      rw [hstep, hle, and_assoc, List.forall_mem_append, List.forall_mem_singleton])
  refine ⟨hrecorded, fun m => ?_⟩
  rw [hsize]
  refine and_congr_right fun _ => ⟨fun hall uid huid => ?_, fun hall p hp => ?_⟩
  · exact hall (uid, undo[uid]) (Map.mem_toList.mpr (Std.ExtTreeMap.getElem?_eq_some_getElem huid))
  · exact hall p.1 (Std.ExtTreeMap.mem_iff_isSome_getElem?.mpr
      (by rw [Map.mem_toList.mp hp]; rfl))

/-- `save_undo` extends the changed bits with the user count, and saves records. -/
theorem saveUndo_eq {n : Node} (hbits : n.changed.size = 64 * (1 + n.users.toNat / 64))
    (und : Table User) (undo : Map UInt32 User) (users : UInt32) :
    ∃ changed : Table Bool,
      changed.size = 64 * (1 + (saveUndo n und undo users).1.users.toNat / 64) ∧
      (∀ i, changed.get i = n.changed.get i) ∧ n.users ≤ (saveUndo n und undo users).1.users ∧
      (saveUndo n und undo users).1.changed = (undo.foldl saveUndoUser (changed, und)).1 ∧
      (saveUndo n und undo users).2 = (undo.foldl saveUndoUser (changed, und)).2 := by
  rw [saveUndo]
  by_cases hle : n.users ≤ users
  · rw [if_pos hle]
    refine ⟨n.changed.resize (64 * (1 + users.toNat / 64)), rfl, fun i => ?_, hle, rfl, rfl⟩
    show (if i < 64 * (1 + users.toNat / 64) then n.changed.get i else default) = n.changed.get i
    split
    · rfl
    · have husers := UInt32.le_iff_toNat_le.mp hle
      exact (n.changed.beyond i (by rw [hbits]; omega)).symm
  · rw [if_neg hle]
    exact ⟨n.changed, hbits, fun _ => rfl, UInt32.le_refl _, rfl, rfl⟩

/-! ## The updates of a block -/

namespace BankFiles

/-- The state of a bank in a block, after some updates. -/
structure Logged (before : BankFiles) (cs : List BankUpdate) (b : BankFiles) : Prop where
  bits : b.node.changed.size = 64 * (1 + b.node.users.toNat / 64)
  changed : ∀ uid : UInt32, b.node.changed.get uid.toNat = true ↔ Touched cs uid
  recorded : Recorded b.node.changed b.undoFile
  size : ∀ m, b.undoFile.size ≤ m ↔ ∀ uid, Touched cs uid → uid.toNat < m
  first : ∀ uid, Touched cs uid → b.undoFile.get uid.toNat = before.usr.get uid.toNat
  hole : ∀ uid : UInt32, ¬ Touched cs uid → b.undoFile.get uid.toNat = default
  kept : ∀ uid : UInt32, ¬ Touched cs uid → b.usr.get uid.toNat = before.usr.get uid.toNat
  users : before.node.users ≤ b.node.users

theorem Fresh.logged {b : BankFiles} (h : b.Fresh) : Logged b [] b where
  bits := h.bits
  changed uid := by simp [h.changed, Touched]
  recorded i hi := by simp [h.changed] at hi
  size m := by
    rw [undoFile, h.und]
    exact ⟨fun _ uid huid => absurd huid (not_touched_nil uid), fun _ => Nat.zero_le m⟩
  first uid huid := absurd huid (not_touched_nil uid)
  hole uid _ := by
    rw [undoFile, h.und]
    rfl
  kept _ _ := rfl
  users := UInt32.le_refl _

section Update

variable {before b b' : BankFiles} {cs : List BankUpdate} {c : BankUpdate}

theorem mem_undoRecords {uid : UInt32} : uid ∈ b.undoRecords c ↔ uid ∈ c.changes :=
  Std.ExtTreeMap.mem_map

theorem getElem?_undoRecords (uid : UInt32) :
    (b.undoRecords c)[uid]? = c.changes[uid]?.map fun _ => b.usr.get uid.toNat :=
  Std.ExtTreeMap.getElem?_map

theorem update_eq_some (h : b.update c = some b') :
    (∀ uid ∈ c.changes, uid.toNat < (b.saved c).1.changed.size) ∧
      b' = ⟨b.usr.writeAll UInt32.toNat c.changes, (b.saved c).1, some (b.saved c).2⟩ := by
  simp only [update, Std.ExtTreeMap.mem_keys] at h
  split at h
  · rename_i hchanges
    exact ⟨hchanges, (Option.some.inj h).symm⟩
  · cases h

/-- The changed bit and the version of every account after `save_undo`. -/
theorem Logged.saved (h : Logged before cs b)
    (hchanges : ∀ uid ∈ c.changes, uid.toNat < (b.saved c).1.changed.size) :
    (b.saved c).1.changed.size = 64 * (1 + (b.saved c).1.users.toNat / 64) ∧
      b.node.users ≤ (b.saved c).1.users ∧
      Recorded (b.saved c).1.changed (b.saved c).2 ∧
      (∀ m, (b.saved c).2.size ≤ m ↔ b.undoFile.size ≤ m ∧ ∀ uid ∈ c.changes, uid.toNat < m) ∧
      ∀ uid : UInt32, ((b.saved c).1.changed.get uid.toNat, (b.saved c).2.get uid.toNat) =
        savedSlot (b.node.changed.get uid.toNat) (b.undoFile.get uid.toNat)
          (b.undoRecords c)[uid]? := by
  obtain ⟨changed, hsize, hget, husers, hbits, hund⟩ := saveUndo_eq h.bits b.undoFile
    (b.undoRecords c) c.users
  rw [BankFiles.saved] at hchanges ⊢
  rw [hbits, size_foldl_saveUndoUser] at hchanges
  have hbefore : Recorded changed b.undoFile := fun i hi => h.recorded i (hget i ▸ hi)
  obtain ⟨hrecorded, hle⟩ := hbefore.foldl (b.undoRecords c)
  simp only [mem_undoRecords] at hle
  rw [hbits, hund, size_foldl_saveUndoUser]
  refine ⟨hsize, husers, hrecorded, hle, fun uid => ?_⟩
  rw [← hget]
  by_cases huid : uid.toNat < changed.size
  · exact get_foldl_saveUndoUser _ _ _ huid
  · -- without a changed bit, the account is behind the end of the file
    have hnone : (b.undoRecords c)[uid]? = none :=
      Std.ExtTreeMap.getElem?_eq_none fun hmem => huid (hchanges uid (mem_undoRecords.mp hmem))
    have hund : b.undoFile.size ≤ uid.toNat := by
      refine (h.size _).mpr fun uid' htouched => ?_
      have hbit : changed.get uid'.toNat = true := (hget _).trans ((h.changed uid').mpr htouched)
      by_contra hge
      rw [changed.beyond _ (by omega)] at hbit
      cases hbit
    have hund' :=
      (hle uid.toNat).mpr ⟨hund, fun uid' huid' => by have := hchanges uid' huid'; omega⟩
    rw [hnone, savedSlot, Table.beyond _ _ hund, Table.beyond _ _ hund', Table.beyond changed _
      (Nat.not_lt.mp huid), Table.beyond _ _ (by rw [size_foldl_saveUndoUser]; omega)]

theorem Logged.update (h : Logged before cs b) (hupdate : b.update c = some b') :
    Logged before (cs ++ [c]) b' := by
  obtain ⟨hchanges, rfl⟩ := update_eq_some hupdate
  obtain ⟨hbits, husers, hrecorded, hsize, hslot⟩ := h.saved hchanges
  have hmem (uid : UInt32) (huid : uid ∈ c.changes) :
      (b.undoRecords c)[uid]? = some (b.usr.get uid.toNat) := by
    rw [getElem?_undoRecords, Std.ExtTreeMap.getElem?_eq_some_getElem huid]
    rfl
  have hnone (uid : UInt32) (huid : uid ∉ c.changes) : (b.undoRecords c)[uid]? = none :=
    Std.ExtTreeMap.getElem?_eq_none fun hmem => huid (mem_undoRecords.mp hmem)
  have hbit (uid : UInt32) : (b.saved c).1.changed.get uid.toNat = (savedSlot
      (b.node.changed.get uid.toNat) (b.undoFile.get uid.toNat) (b.undoRecords c)[uid]?).1 :=
    congrArg Prod.fst (hslot uid)
  have hsaved (uid : UInt32) : (b.saved c).2.get uid.toNat = (savedSlot
      (b.node.changed.get uid.toNat) (b.undoFile.get uid.toNat) (b.undoRecords c)[uid]?).2 :=
    congrArg Prod.snd (hslot uid)
  refine ⟨hbits, fun uid => ?_, hrecorded, fun m => ?_, fun uid htouched => ?_,
    fun uid htouched => ?_, fun uid htouched => ?_, UInt32.le_trans h.users husers⟩
  · show (b.saved c).1.changed.get uid.toNat = true ↔ _
    rw [touched_append, ← h.changed uid, hbit]
    by_cases huid : uid ∈ c.changes
    · rw [hmem uid huid, savedSlot]
      split <;> simp [huid]
    · rw [hnone uid huid, savedSlot]
      simp [huid]
  · show (b.saved c).2.size ≤ m ↔ _
    rw [hsize, h.size]
    simp only [touched_append, or_imp, forall_and]
  · -- only the first version is kept, and until then the record is the one before the block
    show (b.saved c).2.get uid.toNat = _
    by_cases hold : Touched cs uid
    · rw [hsaved, (h.changed uid).mpr hold, ← h.first uid hold]
      cases (b.undoRecords c)[uid]? <;> rfl
    · have huid := (touched_append.mp htouched).resolve_left hold
      have hclear : b.node.changed.get uid.toNat = false :=
        Bool.eq_false_iff.mpr fun hset => hold ((h.changed uid).mp hset)
      rw [hsaved, hmem uid huid, hclear, ← h.kept uid hold]
      rfl
  · rw [touched_append, not_or] at htouched
    show (b.saved c).2.get uid.toNat = _
    rw [hsaved, hnone uid htouched.2]
    exact h.hole uid htouched.1
  · rw [touched_append, not_or] at htouched
    show (b.usr.writeAll UInt32.toNat c.changes).get uid.toNat = _
    rw [Table.get_writeAll (fun _ _ => UInt32.toNat_inj.mp),
      Std.ExtTreeMap.getElem?_eq_none htouched.2]
    exact h.kept uid htouched.1

/-- Accounts of the bank can always be changed. -/
theorem Logged.isSome_update (h : Logged before cs b)
    (hchanges : ∀ uid ∈ c.changes, uid < b.node.users) : (b.update c).isSome := by
  obtain ⟨changed, hsize, -, husers, hbits, -⟩ := saveUndo_eq h.bits b.undoFile (b.undoRecords c)
    c.users
  have hall : ∀ uid ∈ c.changes.keys, uid.toNat < (b.saved c).1.changed.size := by
    intro uid huid
    have hlt := UInt32.lt_iff_toNat_lt.mp (hchanges uid (Std.ExtTreeMap.mem_keys.mp huid))
    have hle := UInt32.le_iff_toNat_le.mp husers
    rw [BankFiles.saved, hbits, size_foldl_saveUndoUser, hsize]
    exact hlt.trans_le (by omega)
  rw [BankFiles.update, if_pos hall]
  rfl

theorem updates_cons (b : BankFiles) (c : BankUpdate) (cs : List BankUpdate) :
    b.updates (c :: cs) = (b.update c).bind fun b => b.updates cs :=
  List.foldlM_cons ..

theorem blocks_cons (b : BankFiles) (cs : List BankUpdate) (bs : List (List BankUpdate)) :
    b.blocks (cs :: bs) = ((b.updates cs).map close).bind fun b => b.blocks bs :=
  List.foldlM_cons ..

theorem Logged.updates {cs' : List BankUpdate} (h : Logged before cs b)
    (hupdates : b.updates cs' = some b') : Logged before (cs ++ cs') b' := by
  induction cs' generalizing cs b with
  | nil =>
    obtain rfl := Option.some.inj hupdates
    rw [List.append_nil]
    exact h
  | cons c cs' ih =>
    rw [updates_cons] at hupdates
    obtain ⟨b₁, hfirst, hrest⟩ := Option.bind_eq_some_iff.mp hupdates
    have hnext := ih (h.update hfirst) hrest
    rwa [List.append_assoc] at hnext

/-- The state at the end of the updates of a block. -/
theorem Fresh.updates (h : before.Fresh) (hupdates : before.updates cs = some b) :
    Logged before cs b :=
  h.logged.updates hupdates

theorem Logged.close (h : Logged before cs b) : b.close.Fresh where
  und := rfl
  changed i := by
    show (b.node.changed.mapIdx fun _ _ => false).get i = false
    rw [Table.get_mapIdx]
    split <;> rfl
  bits := h.bits

theorem Fresh.blocks {bs : List (List BankUpdate)} (h : before.Fresh)
    (hblocks : before.blocks bs = some b) : b.Fresh ∧ before.node.users ≤ b.node.users := by
  induction bs generalizing before with
  | nil =>
    obtain rfl := Option.some.inj hblocks
    exact ⟨h, UInt32.le_refl _⟩
  | cons cs bs ih =>
    rw [blocks_cons] at hblocks
    obtain ⟨b₁, hfirst, hrest⟩ := Option.bind_eq_some_iff.mp hblocks
    obtain ⟨b₂, hupdates, rfl⟩ := Option.map_eq_some_iff.mp hfirst
    obtain ⟨hfresh, hle⟩ := ih (h.updates hupdates).close hrest
    exact ⟨hfresh, UInt32.le_trans (h.updates hupdates).users hle⟩

end Update

/-- The version of an account in the undo file of a block is its record from before the block. -/
theorem Logged.version {before b : BankFiles} {cs : List BankUpdate} (h : Logged before cs b)
    (uid : UInt32) [Decidable (Touched cs uid)] :
    version b.undoFile uid.toNat =
      if Touched cs uid then (some (before.usr.get uid.toNat)).filter fun u => u.msid ≠ 0
      else none := by
  split
  · rename_i htouched
    have hsize : uid.toNat < b.undoFile.size :=
      (h.recorded _ ((h.changed uid).mpr htouched))
    rw [Esc.version, Table.read?, if_pos hsize, h.first uid htouched]
  · rename_i htouched
    rw [Esc.version, Table.read?, h.hole uid htouched]
    split <;> rfl

end BankFiles

end Esc
