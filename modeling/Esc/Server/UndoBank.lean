import Esc.Default

/-!
# Rolling back the accounts of a bank

An undo file has, at the place of an account, the first version that the account had in a block.
Other places are empty: there is a hole in the file, or its end. `undo_bank` goes through the
accounts with one descriptor for each undo file and one for the account file, and takes the version
of the oldest file that has one.

A read behind the end of a file does not move its descriptor, a seek does. Neither matters, since no
later account has a version in that file.
-/

namespace Esc

open Lib

/-- The version of an account in an undo file; a record without a message id is none. -/
def version (t : Table User) (i : Nat) : Option User := (t.read? i).filter fun u => u.msid ≠ 0

/-- The first version of an account in a row of undo files. -/
def firstVersion (und : List (Table User)) (i : Nat) : Option User :=
  und.findSome? fun t => version t i

/-- A descriptor of a file of records. The position is counted in records. -/
structure RecordFile where
  file : Table User
  position : Nat := 0

namespace RecordFile

/-- Read one record, if there is one. -/
def read (f : RecordFile) : Option User × RecordFile :=
  match f.file.read? f.position with
  | none => (none, f)
  | some u => (some u, { f with position := f.position + 1 })

/-- Seek over one record. -/
def skip (f : RecordFile) : RecordFile := { f with position := f.position + 1 }

def write (f : RecordFile) (u : User) : RecordFile where
  file := f.file.write f.position u
  position := f.position + 1

/-- The descriptor stands at an account, or at or behind the end of a file that ends before it. -/
def At (f : RecordFile) (i : Nat) : Prop :=
  f.position = i ∨ f.file.size ≤ f.position ∧ f.file.size ≤ i

theorem file_read (f : RecordFile) : f.read.2.file = f.file := by
  rw [read]
  split <;> rfl

theorem At.skip {f : RecordFile} {i : Nat} (h : f.At i) : f.skip.At (i + 1) := by
  rcases h with h | ⟨hpos, hi⟩
  · exact .inl (congrArg (· + 1) h)
  · exact .inr ⟨hpos.trans (Nat.le_succ _), hi.trans (Nat.le_succ _)⟩

theorem At.read {f : RecordFile} {i : Nat} (h : f.At i) :
    f.read.1 = f.file.read? i ∧ f.read.2.At (i + 1) := by
  by_cases hend : f.file.size ≤ f.position
  · have hle : f.file.size ≤ i := h.elim (fun heq => heq ▸ hend) And.right
    have hnone : f.file.read? f.position = none := if_neg (Nat.not_lt.mpr hend)
    rw [RecordFile.read, hnone]
    exact ⟨(if_neg (Nat.not_lt.mpr hle)).symm, .inr ⟨hend, hle.trans (Nat.le_succ _)⟩⟩
  · have heq : f.position = i := h.resolve_right fun hle => hend hle.1
    have hsome : f.file.read? f.position = some (f.file.get i) := by
      rw [heq] at hend ⊢
      exact if_pos (Nat.not_le.mp hend)
    rw [RecordFile.read, hsome]
    refine ⟨?_, .inl (congrArg (· + 1) heq)⟩
    rw [← heq, hsome, heq]

end RecordFile

/-! ## `undo_bank` -/

/-- The search for the version of an account. The files behind the one that has it are moved on. -/
def undoRead : List RecordFile → Option User × List RecordFile
  | [] => (none, [])
  | f :: fs =>
    match f.read.1.filter fun u => u.msid ≠ 0 with
    | some u => (some u, f.read.2 :: fs.map RecordFile.skip)
    | none => ((undoRead fs).1, f.read.2 :: (undoRead fs).2)

/-- The step for one account, with the undo files and the account file. -/
def undoUser (acc : List RecordFile × RecordFile) : List RecordFile × RecordFile :=
  match undoRead acc.1 with
  | (some u, ud) => (ud, acc.2.write u)
  | (none, ud) => (ud, acc.2.read.2)

/-- The loop of `server::undo_bank` over the accounts of a bank, in commit mode. -/
def undoBank (usr : Table User) (und : List (Table User)) (users : Nat) : Table User :=
  ((List.range users).foldl (fun acc _ => undoUser acc)
    (und.map fun t => { file := t }, { file := usr })).2.file

/-- All files stand at an account. -/
def AllAt (und : List (Table User)) (fs : List RecordFile) (i : Nat) : Prop :=
  fs.map RecordFile.file = und ∧ ∀ f ∈ fs, f.At i

/-- The search finds the first version, and moves all files to the next account. -/
theorem undoRead_spec {und : List (Table User)} {fs : List RecordFile} {i : Nat}
    (h : AllAt und fs i) :
    (undoRead fs).1 = firstVersion und i ∧ AllAt und (undoRead fs).2 (i + 1) := by
  induction fs generalizing und with
  | nil =>
    obtain ⟨rfl, -⟩ := h
    exact ⟨rfl, rfl, fun f hf => absurd hf List.not_mem_nil⟩
  | cons f fs ih =>
    obtain ⟨rfl, hall⟩ := h
    obtain ⟨hf, hfs⟩ := List.forall_mem_cons.mp hall
    obtain ⟨hread, hnext⟩ := hf.read
    have hversion : (f.read.1.filter fun u => u.msid ≠ 0) = version f.file i := by
      rw [hread, version]
    rw [undoRead, hversion, List.map_cons, firstVersion, List.findSome?_cons]
    cases version f.file i with
    | some u =>
      refine ⟨rfl, ?_, List.forall_mem_cons.mpr ⟨hnext, fun g hg => ?_⟩⟩
      · rw [List.map_cons, f.file_read, List.map_map]
        rfl
      · obtain ⟨g', hg', rfl⟩ := List.mem_map.mp hg
        exact (hfs g' hg').skip
    | none =>
      obtain ⟨hfirst, hfiles, hrest⟩ := ih ⟨rfl, hfs⟩
      refine ⟨hfirst, ?_, List.forall_mem_cons.mpr ⟨hnext, hrest⟩⟩
      rw [List.map_cons, f.file_read, hfiles]

/-- The account that a rollback leaves. -/
def restored (usr : Table User) (und : List (Table User)) (i : Nat) : User :=
  (firstVersion und i).getD (usr.get i)

/-- The state of the loop before an account: the accounts in front of it are restored. -/
structure UndoneTo (usr : Table User) (und : List (Table User)) (i : Nat)
    (acc : List RecordFile × RecordFile) : Prop where
  files : AllAt und acc.1 i
  position : acc.2.position = i
  size : acc.2.file.size = usr.size
  get : ∀ j, acc.2.file.get j = if j < i then restored usr und j else usr.get j

theorem UndoneTo.step {usr : Table User} {und : List (Table User)} {i : Nat}
    {acc : List RecordFile × RecordFile} (h : UndoneTo usr und i acc) (hi : i < usr.size) :
    UndoneTo usr und (i + 1) (undoUser acc) := by
  obtain ⟨hfirst, hnext⟩ := undoRead_spec h.files
  have hsucc (j : Nat) : (if j < i + 1 then restored usr und j else usr.get j) =
      if j = i then restored usr und i else if j < i then restored usr und j else usr.get j := by
    by_cases hj : j = i
    · rw [hj, if_pos (Nat.lt_succ_self i), if_pos rfl]
    · rw [if_neg hj]
      congr 1
      exact propext ⟨fun h => by omega, fun h => by omega⟩
  rw [undoUser]
  cases hread : undoRead acc.1 with
  | mk r ud =>
    rw [hread] at hfirst hnext
    have hrestored : restored usr und i = r.getD (usr.get i) := by
      rw [restored, ← hfirst]
    cases r with
    | some u =>
      refine ⟨hnext, congrArg (· + 1) h.position, ?_, fun j => ?_⟩
      · show max acc.2.file.size (acc.2.position + 1) = usr.size
        rw [h.size, h.position]
        omega
      · show (acc.2.file.write acc.2.position u).get j = _
        rw [Table.get_write, h.get, h.position, hsucc, hrestored]
        rfl
    | none =>
      have hlive : acc.2.read = (some (usr.get i), { acc.2 with position := i + 1 }) := by
        rw [RecordFile.read, h.position, Table.read?, if_pos (by rw [h.size]; exact hi), h.get,
          if_neg (Nat.lt_irrefl i)]
      dsimp only
      rw [hlive]
      refine ⟨hnext, rfl, h.size, fun j => ?_⟩
      rw [h.get, hsucc, hrestored]
      by_cases hj : j = i
      · rw [hj, if_neg (Nat.lt_irrefl i), if_pos rfl]
        rfl
      · rw [if_neg hj]

/-- Every account below the count is restored, and no other is changed. -/
theorem get_undoBank {usr : Table User} {users : Nat} (hsize : users ≤ usr.size)
    (und : List (Table User)) (i : Nat) :
    (undoBank usr und users).get i = if i < users then restored usr und i else usr.get i := by
  have hloop (n : Nat) (hn : n ≤ users) : UndoneTo usr und n
      ((List.range n).foldl (fun acc _ => undoUser acc)
        (und.map fun t => { file := t }, { file := usr })) := by
    induction n with
    | zero =>
      refine ⟨⟨?_, fun f hf => ?_⟩, rfl, rfl, fun j => (if_neg (Nat.not_lt_zero j)).symm⟩
      · rw [List.range_zero, List.foldl_nil, List.map_map]
        exact List.map_id und
      · obtain ⟨t, -, rfl⟩ := List.mem_map.mp hf
        exact .inl rfl
    | succ n ih =>
      rw [List.range_succ, List.foldl_append, List.foldl_cons, List.foldl_nil]
      exact (ih (by omega)).step (by omega)
  exact (hloop users (Nat.le_refl _)).get i

end Esc
