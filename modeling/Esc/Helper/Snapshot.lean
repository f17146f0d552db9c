import Esc.Server.UndoBank

/-!
# Snapshots of the accounts

Once in a dividend period `db_backup` replaces the undo files of a block by files that have a
version of every account. The version is the first one in the undo files from that block on, or the
record in the account file.

The undo files are read at places that are computed for each account. The function that seeks takes
the place in bytes as an `int`.
-/

namespace Esc

open Lib

/-- `FileWrapper::seek` to an account. A negative place is refused by the system. -/
def RecordFile.seek (f : RecordFile) (user : UInt32) : RecordFile :=
  let position := Int32.ofNat (user.toNat * 128)
  if position < 0 then f else { f with position := position.toNatClampNeg / 128 }

/-- The search in the undo files. What is not read stays in the record. -/
def backupRead (user : UInt32) : List RecordFile → User → User × List RecordFile
  | [], usr => (usr, [])
  | f :: fs, usr =>
    let f := f.seek user
    let usr := f.read.1.getD usr
    if usr.msid ≠ 0 then (usr, f.read.2 :: fs)
    else ((backupRead user fs usr).1, f.read.2 :: (backupRead user fs usr).2)

/-- The record in the last undo file, read once more. -/
def backupLatest (user : UInt32) (files : List RecordFile) (usr : User) : User × List RecordFile :=
  match files.getLast? with
  | none => (usr, files)
  | some f =>
    let f := f.seek user
    let latest := f.read.1.getD default
    (if latest.msid ≠ 0 then latest else usr, files.dropLast ++ [f.read.2])

/-- The undo files and the account file. -/
structure Backup where
  files : List RecordFile
  bank : RecordFile

/-- The step of `db_backup` for one account. -/
def Backup.user (b : Backup) (user : UInt32) : User × Backup :=
  let (usr, files) := backupRead user b.files default
  if usr.msid ≠ 0 then (usr, ⟨files, b.bank.skip⟩)
  else
    let (usr, files) := backupLatest user files (b.bank.read.1.getD usr)
    (usr, ⟨files, b.bank.read.2⟩)

/-- The records that are written for the accounts. -/
def Backup.users (b : Backup) : List Nat → List User
  | [] => []
  | user :: users => (b.user (.ofNat user)).1 :: ((b.user (.ofNat user)).2).users users

/-- The snapshot file that `db_backup` writes for a bank. -/
def dbBackup (usr : Table User) (und : List (Table User)) (users : Nat) : Table User :=
  .ofList (Backup.users ⟨und.map fun t => { file := t }, { file := usr }⟩ (List.range users))

/-! ## The history of a bank -/

/-- The undo files of the blocks, with those that are missing from a block on created. -/
def created (und : Nat → Option (Table User)) (block last n : Nat) : Option (Table User) :=
  if block ≤ n ∧ n ≤ last + 1 then some ((und n).getD .empty) else und n

/-- The account file of a bank, the undo files of the blocks, and the number of accounts at the end
of each block. Blocks are numbered; the one behind the last closed one is open. -/
structure BankHistory where
  usr : Table User
  und : Nat → Option (Table User)
  users : Nat → Nat
  last : Nat
  users_mono : Monotone users
  onFile : users last ≤ usr.size

namespace BankHistory

/-- The undo files from a block to the open one, as far as there are any. -/
def files (h : BankHistory) (block : Nat) : List (Table User) :=
  (List.range' block (h.last + 2 - block)).filterMap h.und

/-- `undo_bank` to the end of a block. -/
def undo (h : BankHistory) (block : Nat) : Table User :=
  undoBank h.usr (h.files (block + 1)) (h.users block)

def isSnapshotDirectory (block : Nat) : Bool := block % blockDiv.toNat = 0

/-- The snapshot file of a closed block. A missing undo file is created. -/
def snapshot (h : BankHistory) (block : Nat) : Table User :=
  dbBackup h.usr
    ((List.range' block (h.last + 2 - block)).filterMap (created h.und block h.last))
    (h.users block)

/-- `db_backup`: the snapshot takes the place of the undo file of the block. -/
def backup (h : BankHistory) (block : Nat) : BankHistory :=
  if isSnapshotDirectory block then
    { h with und := Function.update (created h.und block h.last) block (some (h.snapshot block)) }
  else h

end BankHistory

/-! ## Small banks -/

section Small

variable {und : List (Table User)} {fs : List RecordFile} {i : Nat}

theorem seek_of_lt (f : RecordFile) (hi : i < 2 ^ 24) :
    f.seek (.ofNat i) = { f with position := i } := by
  have hnat : (UInt32.ofNat i).toNat = i := UInt32.toNat_ofNat_of_lt' (hi.trans (by decide))
  have hint : (Int32.ofNat (i * 128)).toInt = i * 128 := by
    rw [Int32.toInt_ofNat_of_lt (by omega)]
    omega
  have hneg : ¬ Int32.ofNat (i * 128) < 0 := by
    rw [Int32.lt_iff_toInt_lt, hint]
    show ¬ (i * 128 : Int) < 0
    omega
  rw [RecordFile.seek, hnat, if_neg hneg, Int32.toNatClampNeg, hint]
  congr 1
  omega

theorem firstVersion_cons (t : Table User) (und : List (Table User)) (i : Nat) :
    firstVersion (t :: und) i = (version t i).or (firstVersion und i) := by
  rw [firstVersion, List.findSome?_cons]
  cases version t i <;> rfl

theorem firstVersion_append (und und' : List (Table User)) (i : Nat) :
    firstVersion (und ++ und') i = (firstVersion und i).or (firstVersion und' i) :=
  List.findSome?_append

theorem msid_of_version {t : Table User} {u : User} (h : version t i = some u) : u.msid ≠ 0 := by
  rw [version, Option.filter_eq_some_iff] at h
  exact of_decide_eq_true h.2

theorem msid_of_firstVersion {u : User} (h : firstVersion und i = some u) : u.msid ≠ 0 := by
  obtain ⟨t, -, hversion⟩ := List.exists_of_findSome?_eq_some h
  exact msid_of_version hversion

/-- What is left of a record by a read at the place of an account. -/
theorem getD_read (f : RecordFile) (i : Nat) {usr : User} (husr : usr.msid = 0) :
    ∃ v, ({ f with position := i } : RecordFile).read.1.getD usr = (version f.file i).getD v ∧
      v.msid = 0 := by
  have hread : ({ f with position := i } : RecordFile).read.1 = f.file.read? i := by
    rw [RecordFile.read]
    dsimp only
    cases f.file.read? i <;> rfl
  rw [hread, version]
  cases f.file.read? i with
  | none => exact ⟨usr, rfl, husr⟩
  | some u =>
    by_cases hu : u.msid = 0
    · refine ⟨u, ?_, hu⟩
      have hfilter : (some u).filter (fun u => u.msid ≠ 0) = none :=
        Option.filter_some_neg (decide_eq_false (not_not_intro hu))
      rw [hfilter]
      rfl
    · refine ⟨usr, ?_, husr⟩
      have hfilter : (some u).filter (fun u => u.msid ≠ 0) = some u :=
        Option.filter_some_pos (decide_eq_true hu)
      rw [hfilter]

/-- The search at the place of an account. -/
theorem backupRead_spec (hi : i < 2 ^ 24) (hfs : fs.map RecordFile.file = und) {usr : User}
    (husr : usr.msid = 0) :
    (backupRead (.ofNat i) fs usr).2.map RecordFile.file = und ∧
      ∃ v, (backupRead (.ofNat i) fs usr).1 = (firstVersion und i).getD v ∧ v.msid = 0 := by
  induction fs generalizing und usr with
  | nil =>
    subst hfs
    exact ⟨rfl, usr, rfl, husr⟩
  | cons f fs ih =>
    subst hfs
    obtain ⟨v, hv, hzero⟩ := getD_read f i husr
    rw [backupRead, seek_of_lt f hi, List.map_cons, firstVersion_cons, hv]
    cases hversion : version f.file i with
    | some u =>
      rw [Option.getD_some, if_pos (msid_of_version hversion), List.map_cons, RecordFile.file_read]
      exact ⟨rfl, v, rfl, hzero⟩
    | none =>
      obtain ⟨hfiles, hrest⟩ := ih rfl hzero
      rw [Option.getD_none, if_neg (not_not_intro hzero)]
      refine ⟨?_, hrest⟩
      rw [List.map_cons, RecordFile.file_read, hfiles]

/-- The last file has no version either. -/
theorem backupLatest_spec (hi : i < 2 ^ 24) (hfs : fs.map RecordFile.file = und)
    (hnone : firstVersion und i = none) (usr : User) :
    (backupLatest (.ofNat i) fs usr).2.map RecordFile.file = und ∧
      (backupLatest (.ofNat i) fs usr).1 = usr := by
  subst hfs
  rw [backupLatest]
  cases hlast : fs.getLast? with
  | none => exact ⟨rfl, rfl⟩
  | some f =>
    have hfs := List.dropLast_append_getLast? f hlast
    have hf : version f.file i = none := by
      rw [← hfs, List.map_append, firstVersion_append] at hnone
      have := (Option.or_eq_none_iff.mp hnone).2
      rw [List.map_cons, firstVersion_cons] at this
      exact (Option.or_eq_none_iff.mp this).1
    obtain ⟨v, hv, hzero⟩ := getD_read f i (show (default : User).msid = 0 from rfl)
    dsimp only
    rw [seek_of_lt f hi, hv, hf, Option.getD_none, if_neg (not_not_intro hzero)]
    refine ⟨?_, rfl⟩
    nth_rewrite 2 [← hfs]
    rw [List.map_append, List.map_append, List.map_cons, RecordFile.file_read]
    rfl

/-- The files before the step for an account. -/
structure BackupAt (usr : Table User) (und : List (Table User)) (i : Nat) (b : Backup) : Prop where
  files : b.files.map RecordFile.file = und
  bank : b.bank = ⟨usr, i⟩

theorem BackupAt.user {usr : Table User} {b : Backup} (h : BackupAt usr und i b)
    (hi : i < 2 ^ 24) (hsize : i < usr.size) :
    (b.user (.ofNat i)).1 = restored usr und i ∧
      BackupAt usr und (i + 1) (b.user (.ofNat i)).2 := by
  obtain ⟨hfiles, v, hv, hzero⟩ :=
    backupRead_spec hi h.files (show (default : User).msid = 0 from rfl)
  have hread : b.bank.read = (some (usr.get i), ⟨usr, i + 1⟩) := by
    rw [h.bank, RecordFile.read, Table.read?, if_pos hsize]
  rw [Backup.user, restored]
  cases hfirst : firstVersion und i with
  | some u =>
    rw [hfirst, Option.getD_some] at hv
    dsimp only
    rw [hv, if_pos (msid_of_firstVersion hfirst)]
    exact ⟨rfl, hfiles, by rw [h.bank]; rfl⟩
  | none =>
    rw [hfirst, Option.getD_none] at hv
    dsimp only
    rw [hv, if_neg (not_not_intro hzero), hread]
    obtain ⟨hlast, hrecord⟩ := backupLatest_spec hi hfiles hfirst (usr.get i)
    exact ⟨hrecord, hlast, rfl⟩

end Small

/-! ## The snapshot file -/

/-- The files after the steps for some accounts. -/
def Backup.after (b : Backup) (users : List Nat) : Backup :=
  users.foldl (fun b user => (b.user (.ofNat user)).2) b

theorem Backup.users_append (b : Backup) (l l' : List Nat) :
    b.users (l ++ l') = b.users l ++ (b.after l).users l' := by
  induction l generalizing b with
  | nil => rfl
  | cons user l ih =>
    rw [List.cons_append, users, users, ih, List.cons_append]
    rfl

theorem Backup.length_users (b : Backup) (l : List Nat) : (b.users l).length = l.length := by
  induction l generalizing b with
  | nil => rfl
  | cons user l ih => rw [users, List.length_cons, List.length_cons, ih]

theorem Backup.after_succ (b : Backup) (n : Nat) :
    b.after (List.range (n + 1)) = ((b.after (List.range n)).user (.ofNat n)).2 := by
  rw [after, List.range_succ, List.foldl_append]
  rfl

/-- The descriptors that `db_backup` opens. -/
def Backup.opened (usr : Table User) (und : List (Table User)) : Backup where
  files := und.map fun t => { file := t }
  bank := { file := usr }

theorem size_dbBackup (usr : Table User) (und : List (Table User)) (users : Nat) :
    (dbBackup usr und users).size = users := by
  show (Backup.users _ _).length = users
  rw [Backup.length_users, List.length_range]

/-- The record of an account is written by its own step. -/
theorem get_dbBackup (usr : Table User) (und : List (Table User)) {users i : Nat} (hi : i < users) :
    (dbBackup usr und users).get i =
      (((Backup.opened usr und).after (List.range i)).user (.ofNat i)).1 := by
  obtain ⟨k, rfl⟩ := Nat.exists_eq_add_of_lt hi
  show (Backup.users (Backup.opened usr und) (List.range (i + k + 1)))[i]?.getD default = _
  rw [Nat.add_assoc, List.range_add, Backup.users_append, List.getElem?_append_right
    (by rw [Backup.length_users, List.length_range]), Backup.length_users, List.length_range,
    Nat.sub_self, List.range_succ_eq_map, List.map_cons, Backup.users]
  rfl

theorem get_dbBackup_of_le {usr : Table User} {users : Nat} (hsize : users ≤ usr.size)
    (hsmall : users ≤ 2 ^ 24) (und : List (Table User)) {i : Nat} (hi : i < users) :
    (dbBackup usr und users).get i = restored usr und i := by
  have hloop (n : Nat) (hn : n < users) :
      BackupAt usr und n ((Backup.opened usr und).after (List.range n)) := by
    induction n with
    | zero =>
      refine ⟨?_, rfl⟩
      show (und.map fun t => RecordFile.mk t 0).map RecordFile.file = und
      rw [List.map_map]
      exact List.map_id und
    | succ n ih =>
      rw [Backup.after_succ]
      exact ((ih (by omega)).user (by omega) (by omega)).2
  rw [get_dbBackup usr und hi]
  exact ((hloop i hi).user (by omega) (by omega)).1

/-! ## Rolling back over a snapshot -/

/-- A snapshot file in front of the files that it was made from changes no account. -/
theorem restored_snapshot {usr snapshot : Table User} {und rest : List (Table User)} {i : Nat}
    (hsize : i < snapshot.size) (hget : snapshot.get i = restored usr und i)
    (hrest : firstVersion und i = none → firstVersion rest i = none) (earlier : List (Table User)) :
    restored usr (earlier ++ snapshot :: rest) i = restored usr (earlier ++ und) i := by
  have hread : snapshot.read? i = some (restored usr und i) := by
    rw [Table.read?, if_pos hsize, hget]
  rw [restored, restored, firstVersion_append, firstVersion_append, firstVersion_cons]
  cases firstVersion earlier i with
  | some u => rfl
  | none =>
    rw [Option.none_or, Option.none_or, version, hread]
    by_cases hzero : (restored usr und i).msid = 0
    · -- only a blank record in the account file is left out of the snapshot
      have hfilter : (some (restored usr und i)).filter (fun u => u.msid ≠ 0) = none :=
        Option.filter_some_neg (decide_eq_false (not_not_intro hzero))
      have hnone : firstVersion und i = none := by
        cases hfirst : firstVersion und i with
        | none => rfl
        | some u =>
          rw [restored, hfirst, Option.getD_some] at hzero
          exact absurd hzero (msid_of_firstVersion hfirst)
      rw [hfilter, Option.none_or, hrest hnone, hnone]
    · have hfilter : (some (restored usr und i)).filter (fun u => u.msid ≠ 0) =
          some (restored usr und i) := Option.filter_some_pos (decide_eq_true hzero)
      rw [hfilter]
      rfl

theorem firstVersion_filterMap (und : Nat → Option (Table User)) (blocks : List Nat) (i : Nat) :
    firstVersion (blocks.filterMap und) i =
      blocks.findSome? fun n => (und n).bind fun t => version t i := by
  induction blocks with
  | nil => rfl
  | cons n blocks ih =>
    rw [List.findSome?_cons, ← ih, List.filterMap_cons]
    cases und n with
    | none => rfl
    | some t =>
      rw [Option.bind_some]
      show firstVersion (t :: blocks.filterMap und) i = _
      rw [firstVersion_cons]
      cases version t i <;> rfl

theorem firstVersion_created (und : Nat → Option (Table User)) (block last : Nat)
    (blocks : List Nat) (i : Nat) :
    firstVersion (blocks.filterMap (created und block last)) i =
      firstVersion (blocks.filterMap und) i := by
  rw [firstVersion_filterMap, firstVersion_filterMap]
  congr 1
  funext n
  rw [created]
  split
  · cases und n <;> rfl
  · rfl

namespace BankHistory

variable (h : BankHistory) {block target i : Nat}

theorem und_backup (hdir : isSnapshotDirectory block) :
    (h.backup block).und =
      Function.update (created h.und block h.last) block (some (h.snapshot block)) := by
  rw [backup, if_pos hdir]

theorem last_backup : (h.backup block).last = h.last := by
  rw [backup]
  split <;> rfl

theorem usr_backup : (h.backup block).usr = h.usr := by
  rw [backup]
  split <;> rfl

theorem users_backup : (h.backup block).users = h.users := by
  rw [backup]
  split <;> rfl

/-- The snapshot is no file of other blocks. -/
theorem filterMap_backup (hdir : isSnapshotDirectory block) {blocks : List Nat}
    (hblocks : block ∉ blocks) :
    blocks.filterMap (h.backup block).und = blocks.filterMap (created h.und block h.last) := by
  refine List.filterMap_congr fun n hn => ?_
  rw [und_backup h hdir, Function.update_of_ne]
  rintro rfl
  exact hblocks hn

/-- The undo files that a rollback behind the snapshot block reads. -/
theorem files_backup_of_le (hdir : isSnapshotDirectory block) (htarget : block ≤ target) :
    firstVersion ((h.backup block).files (target + 1)) i =
      firstVersion (h.files (target + 1)) i := by
  have hblocks : block ∉ List.range' (target + 1) (h.last + 2 - (target + 1)) := by
    rw [List.mem_range'_1]
    omega
  rw [files, last_backup, filterMap_backup h hdir hblocks, firstVersion_created, files]

theorem files_split (hblock : block ≤ h.last) (htarget : target < block) : h.files (target + 1) =
    (List.range' (target + 1) (block - (target + 1))).filterMap h.und ++ h.files block := by
  have hcount : h.last + 2 - (target + 1) = block - (target + 1) + (h.last + 2 - block) := by omega
  have hnext : target + 1 + 1 * (block - (target + 1)) = block := by omega
  rw [files, files, hcount, ← List.range'_append, hnext, List.filterMap_append]

theorem range'_last (hblock : block ≤ h.last) :
    List.range' block (h.last + 2 - block) =
      block :: List.range' (block + 1) (h.last + 1 - block) := by
  have hcount : h.last + 2 - block = h.last + 1 - block + 1 := by omega
  rw [hcount, List.range'_succ]

/-- The files from the snapshot block on. -/
theorem files_backup (hdir : isSnapshotDirectory block) (hblock : block ≤ h.last) :
    (h.backup block).files block = h.snapshot block ::
      (List.range' (block + 1) (h.last + 1 - block)).filterMap (created h.und block h.last) := by
  have hblocks : block ∉ List.range' (block + 1) (h.last + 1 - block) := by
    rw [List.mem_range'_1]
    omega
  rw [← filterMap_backup h hdir hblocks, files, last_backup, h.range'_last hblock,
    List.filterMap_cons_some]
  rw [und_backup h hdir, Function.update_self]

/-- A rollback in front of the snapshot block, or to it. -/
theorem restored_backup (hdir : isSnapshotDirectory block) (hblock : block ≤ h.last)
    (hsmall : h.users block ≤ 2 ^ 24) (hi : i < h.users block) (htarget : target < block) :
    restored h.usr ((h.backup block).files (target + 1)) i =
      restored h.usr (h.files (target + 1)) i := by
  have hsize : i < (h.snapshot block).size := by
    rw [snapshot, size_dbBackup]
    exact hi
  have hget := get_dbBackup_of_le ((h.users_mono hblock).trans h.onFile) hsmall
    ((List.range' block (h.last + 2 - block)).filterMap (created h.und block h.last)) hi
  have hearlier : (List.range' (target + 1) (block - (target + 1))).filterMap (h.backup block).und =
      (List.range' (target + 1) (block - (target + 1))).filterMap h.und := by
    refine List.filterMap_congr fun n hn => ?_
    rw [List.mem_range'_1] at hn
    rw [und_backup h hdir, Function.update_of_ne (by omega), created, if_neg (by omega)]
  rw [files_split _ (by rw [last_backup]; exact hblock) htarget, hearlier,
    h.files_backup hdir hblock, restored_snapshot hsize hget]
  · rw [h.files_split hblock htarget, restored, restored, firstVersion_append, firstVersion_append,
      firstVersion_created, files]
  · intro hnone
    rw [h.range'_last hblock, ← List.singleton_append, List.filterMap_append,
      firstVersion_append] at hnone
    exact (Option.or_eq_none_iff.mp hnone).2

/-- A small bank is rolled back alike. -/
theorem get_undo_backup (hblock : block ≤ h.last) (htarget : target ≤ h.last)
    (hsmall : h.users block ≤ 2 ^ 24) (hi : i < h.users target) :
    ((h.backup block).undo target).get i = (h.undo target).get i := by
  have hsize : h.users target ≤ h.usr.size := (h.users_mono htarget).trans h.onFile
  rw [undo, undo, usr_backup, users_backup, get_undoBank hsize, get_undoBank hsize, if_pos hi,
    if_pos hi]
  by_cases hdir : isSnapshotDirectory block
  · rcases Nat.lt_or_ge target block with hlt | hle
    · exact h.restored_backup hdir hblock hsmall (hi.trans_le (h.users_mono hlt.le)) hlt
    · rw [restored, restored, h.files_backup_of_le hdir hle]
  · rw [backup, if_neg hdir]

end BankHistory

/-! ## Large banks

The record of account `2 ^ 24` starts at byte `2 ^ 31`, which is a negative `int`. The seek fails,
and the undo file is read where the search for an earlier account has left it. -/

namespace Sample

/-- A record after some messages. -/
def withMsid (msid : UInt32) : User := { (default : User) with msid := msid }

/-- A file with the same record for every account. -/
def column (n : Nat) (u : User) : Table User where
  size := n
  get i := if i < n then u else default
  beyond _ hi := if_neg (Nat.not_lt.mpr hi)

/-- Every account below `2 ^ 24` has a version in block 2048. In the open block account 0 has
another one. -/
def largeUndo (n : Nat) : Option (Table User) :=
  if n = 2048 then some (column (2 ^ 24) (withMsid 1))
  else if n = 2049 then some (column 1 (withMsid 2)) else none

def largeBank (n : Nat) : BankHistory where
  usr := column n (withMsid 3)
  und := largeUndo
  users _ := n
  last := 2048
  users_mono := monotone_const
  onFile := Nat.le_refl n

theorem read?_column {n i : Nat} (hi : i < n) (u : User) : (column n u).read? i = some u := by
  have hget : (column n u).get i = u := if_pos hi
  rw [Table.read?, hget]
  exact if_pos hi

theorem read?_column_of_le {n i : Nat} (hi : n ≤ i) (u : User) : (column n u).read? i = none :=
  if_neg (Nat.not_lt.mpr hi)

theorem seek_refused (f : RecordFile) : f.seek (.ofNat (2 ^ 24)) = f := by
  rw [RecordFile.seek]
  exact if_pos (by decide)

/-- The files before the step for an account. -/
def largeFiles (n i : Nat) : Backup where
  files := [⟨column (2 ^ 24) (withMsid 1), i⟩, ⟨column 1 (withMsid 2), 0⟩]
  bank := ⟨column n (withMsid 3), i⟩

/-- The search stops at the first file, and the second one is not moved. -/
theorem user_largeFiles (n : Nat) {i : Nat} (hi : i < 2 ^ 24) :
    ((largeFiles n i).user (.ofNat i)).2 = largeFiles n (i + 1) := by
  have hread : (RecordFile.mk (column (2 ^ 24) (withMsid 1)) i).read =
      (some (withMsid 1), ⟨column (2 ^ 24) (withMsid 1), i + 1⟩) := by
    rw [RecordFile.read, read?_column hi]
  have hmsid : (withMsid 1).msid ≠ 0 := by decide
  rw [Backup.user, largeFiles, backupRead, seek_of_lt _ hi]
  dsimp only
  rw [hread, Option.getD_some, if_pos hmsid, if_pos hmsid]
  rfl

theorem after_largeFiles (n : Nat) {i : Nat} (hi : i ≤ 2 ^ 24) :
    (largeFiles n 0).after (List.range i) = largeFiles n i := by
  induction i with
  | zero => rfl
  | succ i ih => rw [Backup.after_succ, ih (by omega), user_largeFiles n (by omega)]

/-- The version of account 0 is taken for account `2 ^ 24`. -/
theorem user_largeFiles_refused (n : Nat) :
    ((largeFiles n (2 ^ 24)).user (.ofNat (2 ^ 24))).1 = withMsid 2 := by
  have hread : (RecordFile.mk (column (2 ^ 24) (withMsid 1)) (2 ^ 24)).read =
      (none, ⟨column (2 ^ 24) (withMsid 1), 2 ^ 24⟩) := by
    rw [RecordFile.read, read?_column_of_le (Nat.le_refl _)]
  have hread' : (RecordFile.mk (column 1 (withMsid 2)) 0).read =
      (some (withMsid 2), ⟨column 1 (withMsid 2), 1⟩) := by
    rw [RecordFile.read, read?_column Nat.one_pos]
  have hblank : ¬ (default : User).msid ≠ 0 := by decide
  have hmsid : (withMsid 2).msid ≠ 0 := by decide
  rw [Backup.user, largeFiles, backupRead, seek_refused]
  dsimp only
  rw [hread, Option.getD_none, if_neg hblank, backupRead, seek_refused]
  dsimp only
  rw [hread', Option.getD_some, if_pos hmsid, if_pos hmsid]

theorem largeUndo_files :
    (List.range' 2048 2).filterMap largeUndo =
      [column (2 ^ 24) (withMsid 1), column 1 (withMsid 2)] := by
  have hblock : largeUndo 2048 = some (column (2 ^ 24) (withMsid 1)) := by
    rw [largeUndo, if_pos rfl]
  have hopen : largeUndo (2048 + 1) = some (column 1 (withMsid 2)) := by
    rw [largeUndo, if_neg (by decide), if_pos rfl]
  rw [List.range'_succ, List.range'_succ, List.range'_zero, List.filterMap_cons_some hblock,
    List.filterMap_cons_some hopen, List.filterMap_nil]

theorem largeBank_blocks (n : Nat) : (largeBank n).last + 2 - 2048 = 2 := by
  have hlast : (largeBank n).last = 2048 := rfl
  rw [hlast]

theorem created_largeUndo :
    (List.range' 2048 2).filterMap (created largeUndo 2048 2048) =
      (List.range' 2048 2).filterMap largeUndo := by
  refine List.filterMap_congr fun n hn => ?_
  rw [List.mem_range'_1] at hn
  have hcases : n = 2048 ∨ n = 2049 := by omega
  rw [created, if_pos (by omega)]
  rcases hcases with rfl | rfl
  · rw [largeUndo, if_pos rfl, Option.getD_some]
  · rw [largeUndo, if_neg (by decide), if_pos rfl, Option.getD_some]

theorem get_snapshot_largeBank {n : Nat} (hn : 2 ^ 24 < n) :
    ((largeBank n).snapshot 2048).get (2 ^ 24) = withMsid 2 := by
  have hsnapshot : (largeBank n).snapshot 2048 = dbBackup (column n (withMsid 3))
      ((List.range' 2048 2).filterMap (created largeUndo 2048 2048)) n := by
    rw [BankHistory.snapshot, largeBank_blocks]
    rfl
  have hopened : Backup.opened (column n (withMsid 3))
      [column (2 ^ 24) (withMsid 1), column 1 (withMsid 2)] = largeFiles n 0 := rfl
  rw [hsnapshot, created_largeUndo, largeUndo_files, get_dbBackup _ _ hn, hopened,
    after_largeFiles n (Nat.le_refl _), user_largeFiles_refused]

theorem undo_largeBank {n : Nat} (hn : 2 ^ 24 < n) :
    (((largeBank n).backup 2048).undo 2047).get (2 ^ 24) = withMsid 2 ∧
      ((largeBank n).undo 2047).get (2 ^ 24) = withMsid 3 := by
  have hdir : BankHistory.isSnapshotDirectory 2048 := by decide
  have hsize : (largeBank n).users 2047 ≤ (largeBank n).usr.size := Nat.le_refl n
  have hcount : 2 ^ 24 < (largeBank n).users 2047 := hn
  rw [BankHistory.undo, BankHistory.undo, BankHistory.usr_backup, BankHistory.users_backup,
    get_undoBank hsize, get_undoBank hsize, if_pos hcount, if_pos hcount]
  constructor
  · have hread : ((largeBank n).snapshot 2048).read? (2 ^ 24) = some (withMsid 2) := by
      rw [Table.read?, get_snapshot_largeBank hn, BankHistory.snapshot, size_dbBackup]
      exact if_pos hn
    rw [restored, BankHistory.files_backup _ hdir (Nat.le_refl _), firstVersion_cons, version,
      hread]
    rfl
  · have hnone : firstVersion ((largeBank n).files 2048) (2 ^ 24) = none := by
      have hfiles : (largeBank n).files 2048 = (List.range' 2048 2).filterMap largeUndo := by
        rw [BankHistory.files, largeBank_blocks]
        rfl
      rw [hfiles, largeUndo_files, firstVersion_cons, firstVersion_cons, version, version,
        read?_column_of_le (Nat.le_refl _), read?_column_of_le (by decide)]
      rfl
    rw [restored, hnone]
    exact if_pos hn

end Sample

/-- A snapshot of a bank with a number of accounts leaves every rollback as it was. -/
def PreservesUndo (users : Nat) : Prop :=
  ∀ (h : BankHistory) (block target : Nat), h.users block = users → block ≤ h.last →
    target ≤ h.last → ∀ i < h.users target,
      ((h.backup block).undo target).get i = (h.undo target).get i

theorem preservesUndo_iff (users : Nat) : PreservesUndo users ↔ users ≤ 2 ^ 24 := by
  refine ⟨fun h => ?_, fun hsmall h block target husers hblock htarget i hi => ?_⟩
  · by_contra hlarge
    obtain ⟨hbackup, hundo⟩ := Sample.undo_largeBank (Nat.not_le.mp hlarge)
    have htarget : 2047 ≤ 2048 := Nat.le_succ _
    have heq := h (Sample.largeBank users) 2048 2047 rfl (Nat.le_refl _) htarget (2 ^ 24)
      (Nat.not_le.mp hlarge)
    rw [hbackup, hundo] at heq
    exact absurd heq (by decide)
  · exact h.get_undo_backup hblock htarget (husers.trans_le hsmall) hi

/-- In a bank of `2 ^ 24 + 1` accounts, the last account is rolled back to a version of the first
one. -/
theorem undo_largeBank_backup :
    2 ^ 24 < (Sample.largeBank (2 ^ 24 + 1)).users 2047 ∧
      (((Sample.largeBank (2 ^ 24 + 1)).backup 2048).undo 2047).get (2 ^ 24) ≠
        ((Sample.largeBank (2 ^ 24 + 1)).undo 2047).get (2 ^ 24) := by
  have hn : 2 ^ 24 < 2 ^ 24 + 1 := Nat.lt_succ_self _
  obtain ⟨hbackup, hundo⟩ := Sample.undo_largeBank hn
  refine ⟨hn, ?_⟩
  rw [hbackup, hundo]
  decide

end Esc
