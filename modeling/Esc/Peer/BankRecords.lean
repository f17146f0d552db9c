import Esc.Helper.Snapshot
import Esc.Lib.Backlog
import Esc.Peer.BankTransfer

/-!
# The records that a synchronising node is sent

`write_bank` goes through the accounts like `undo_bank`. When no undo file has a version of an
account, the record is read from the account file, and then the last undo file is looked at once
more: the server may have saved a version in the meantime. The function steps back over the record
that it has read last.

Behind the end of the file nothing has been read, and the step back leads to the record of another
account.
-/

namespace Esc

open Lib

variable {acc : List RecordFile × RecordFile} {n : Nat} {g : Nat → User}

def maxUndo : Nat := 128

/-- Seek back over one record. At the start of the file the system refuses it. -/
def RecordFile.back (f : RecordFile) : RecordFile := { f with position := f.position - 1 }

/-- The last undo file, looked at once more. -/
def confirm (ud : List RecordFile) (u : User) : User × List RecordFile :=
  match ud.getLast? with
  | none => (u, ud)
  | some ld =>
    let v := ld.back.read.1.getD default
    (if v.msid ≠ 0 then v else u, ud.dropLast ++ [ld.back.read.2])

/-- The step of `write_bank` for one account, with the undo files and the account file. -/
def bankUser (acc : List RecordFile × RecordFile) : User × (List RecordFile × RecordFile) :=
  match undoRead acc.1 with
  | (some u, ud) => (u, (ud, acc.2.skip))
  | (none, ud) =>
    ((confirm ud (acc.2.read.1.getD default)).1,
      ((confirm ud (acc.2.read.1.getD default)).2, acc.2.read.2))

/-- The loop of `write_bank` over the accounts. -/
def bankUsers (acc : List RecordFile × RecordFile) : Nat → List User
  | 0 => []
  | n + 1 => (bankUser acc).1 :: bankUsers (bankUser acc).2 n

/-- The records that the loop computes. -/
def bankRecords (usr : Table User) (und : List (Table User)) (users : Nat) : List User :=
  bankUsers (und.map fun t => { file := t }, { file := usr }) users

/-! ## One account -/

/-- Accounts with a version in one of the files. -/
def recordedBy (und : List (Table User)) (k : Nat) : Bool := (firstVersion und k).isSome

/-- The place in the last undo file before an account. Behind the end it is moved on for every
account with a version in an earlier file, and back for every other one. -/
def lastPlace (und : List (Table User)) (t : Table User) (k : Nat) : Nat :=
  min k t.size + backlog (recordedBy und) t.size k

/-- The account is sent as the last record of the last undo file: it is behind the end of that file
and in none of the others, and in no stretch of accounts before it, behind the end, those in the
other files have a majority. -/
structure Stale (und : List (Table User)) (t : Table User) (k : Nat) : Prop where
  beyond : t.size ≤ k
  nonempty : 0 < t.size
  msid : (t.get (t.size - 1)).msid ≠ 0
  unrecorded : firstVersion und k = none
  minority : ∀ j, t.size ≤ j → j < k → 2 * upCount (recordedBy und) j k ≤ k - j

variable {usr t : Table User} {und : List (Table User)} {k : Nat}

/-- The stretches say whether the file stands at its end. -/
theorem minority_iff : (∀ j, t.size ≤ j → j < k → 2 * upCount (recordedBy und) j k ≤ k - j) ↔
    backlog (recordedBy und) t.size k = 0 := by
  rw [← Nat.le_zero, ← Nat.not_lt, lt_backlog_iff]
  simp only [not_exists, not_and, Nat.add_zero, Nat.not_lt]

theorem lastPlace_of_lt (hk : k < t.size) : lastPlace und t k = k := by
  rw [lastPlace, backlog_of_le hk.le, Nat.min_eq_left hk.le, Nat.add_zero]

theorem lastPlace_of_le (hk : t.size ≤ k) :
    lastPlace und t k = t.size + backlog (recordedBy und) t.size k := by
  rw [lastPlace, Nat.min_eq_right hk]

/-- The last file is moved on with the earlier ones. -/
theorem lastPlace_succ_of_some {u : User} (h : firstVersion und k = some u) :
    lastPlace und t (k + 1) = lastPlace und t k + 1 := by
  have hup : recordedBy und k = true := by rw [recordedBy, h]; rfl
  rcases Nat.lt_or_ge k t.size with hk | hk
  · rw [lastPlace_of_lt hk, lastPlace, backlog_of_le hk, Nat.min_eq_left hk, Nat.add_zero]
  · rw [lastPlace_of_le hk, lastPlace_of_le (hk.trans (Nat.le_succ k)), backlog_succ hk, if_pos hup]
    rfl

theorem lastPlace_succ_of_lt (hk : k < t.size) : lastPlace und t (k + 1) = k + 1 := by
  rw [lastPlace, backlog_of_le hk, Nat.min_eq_left hk, Nat.add_zero]

theorem lastPlace_succ_of_none (h : firstVersion und k = none) (hk : t.size ≤ k) :
    lastPlace und t (k + 1) = t.size + (backlog (recordedBy und) t.size k - 1) := by
  have hup : ¬ recordedBy und k = true := by rw [recordedBy, h]; exact Bool.false_ne_true
  rw [lastPlace_of_le (hk.trans (Nat.le_succ k)), backlog_succ hk, if_neg hup]

theorem undoRead_append (fs gs : List RecordFile) :
    undoRead (fs ++ gs) =
      if (undoRead fs).1.isSome then
        ((undoRead fs).1, (undoRead fs).2 ++ gs.map RecordFile.skip)
      else ((undoRead gs).1, (undoRead fs).2 ++ (undoRead gs).2) := by
  induction fs with
  | nil => rfl
  | cons f fs ih =>
    rw [List.cons_append, undoRead, undoRead]
    cases f.read.1.filter fun u => u.msid ≠ 0 with
    | some u =>
      dsimp only
      rw [List.map_append]
      rfl
    | none =>
      dsimp only
      rw [ih]
      split <;> rfl

theorem confirm_append (fs : List RecordFile) (ld : RecordFile) (u : User) :
    confirm (fs ++ [ld]) u =
      (if (ld.back.read.1.getD default).msid ≠ 0 then ld.back.read.1.getD default else u,
        fs ++ [ld.back.read.2]) := by
  rw [confirm, List.getLast?_concat, List.dropLast_concat]

/-- The files before the step for an account. -/
structure BankAt (usr : Table User) (und : List (Table User)) (t : Table User) (k : Nat)
    (acc : List RecordFile × RecordFile) : Prop where
  files : ∃ fs, acc.1 = fs ++ [⟨t, lastPlace und t k⟩] ∧ AllAt und fs k
  bank : acc.2 = ⟨usr, k⟩

variable {fs : List RecordFile}

/-- The search stops before the last file. -/
theorem undoRead_of_some (h : AllAt und fs k) (ld : RecordFile) {u : User}
    (hu : firstVersion und k = some u) :
    undoRead (fs ++ [ld]) = (some u, (undoRead fs).2 ++ [ld.skip]) := by
  rw [undoRead_append, (undoRead_spec h).1, hu]
  rfl

/-- The search reaches the last file when the earlier ones have no version. -/
theorem undoRead_of_none (h : AllAt und fs k) (ld : RecordFile)
    (hnone : firstVersion und k = none) :
    undoRead (fs ++ [ld]) =
      (ld.read.1.filter fun u => u.msid ≠ 0, (undoRead fs).2 ++ [ld.read.2]) := by
  have hlast : undoRead [ld] = (ld.read.1.filter fun u => u.msid ≠ 0, [ld.read.2]) := by
    rw [undoRead]
    cases ld.read.1.filter fun u => u.msid ≠ 0 <;> rfl
  rw [undoRead_append, (undoRead_spec h).1, hnone, hlast]
  rfl

theorem read_of_lt {p : Nat} (hp : p < t.size) :
    (RecordFile.mk t p).read = (some (t.get p), ⟨t, p + 1⟩) := by
  rw [RecordFile.read, Table.read?, if_pos hp]

theorem read_of_le {p : Nat} (hp : t.size ≤ p) : (RecordFile.mk t p).read = (none, ⟨t, p⟩) := by
  rw [RecordFile.read, Table.read?, if_neg (Nat.not_lt.mpr hp)]

/-- The second look at the last file, behind its end: one record back, if the end has been
reached by reads alone. -/
theorem confirm_beyond (hk : t.size ≤ k) (hnone : firstVersion und k = none)
    (fs : List RecordFile) (u : User) :
    (confirm (fs ++ [⟨t, lastPlace und t k⟩]) u).2 = fs ++ [⟨t, lastPlace und t (k + 1)⟩] ∧
      (Stale und t k → (confirm (fs ++ [⟨t, lastPlace und t k⟩]) u).1 = t.get (t.size - 1)) ∧
      (¬ Stale und t k → (confirm (fs ++ [⟨t, lastPlace und t k⟩]) u).1 = u) := by
  rw [confirm_append, lastPlace_of_le hk, lastPlace_succ_of_none hnone hk, RecordFile.back]
  by_cases hread : backlog (recordedBy und) t.size k = 0 ∧ 0 < t.size
  · obtain ⟨hzero, hpos⟩ := hread
    have hplace : t.size + 0 - 1 < t.size := by omega
    have hnext : t.size + 0 - 1 + 1 = t.size + (0 - 1) := by omega
    rw [hzero, read_of_lt hplace, hnext]
    refine ⟨rfl, fun hstale => if_pos hstale.msid, fun hstale => ?_⟩
    by_cases hmsid : (t.get (t.size - 1)).msid ≠ 0
    · exact absurd ⟨hk, hpos, hmsid, hnone, minority_iff.mpr hzero⟩ hstale
    · exact if_neg hmsid
  · have hplace : t.size ≤ t.size + backlog (recordedBy und) t.size k - 1 := by omega
    have hnext : t.size + backlog (recordedBy und) t.size k - 1 =
        t.size + (backlog (recordedBy und) t.size k - 1) := by omega
    rw [read_of_le hplace, hnext]
    refine ⟨rfl, fun hstale => absurd ⟨minority_iff.mp hstale.minority, hstale.nonempty⟩
      hread, fun _ => ?_⟩
    have hblank : ¬ (default : User).msid ≠ 0 := by decide
    show (if (default : User).msid ≠ 0 then default else u) = u
    exact if_neg hblank

theorem bankUser_of_none {ud : List RecordFile} (hread : undoRead acc.1 = (none, ud))
    (hbank : acc.2 = ⟨usr, k⟩) (hk : k < usr.size) :
    bankUser acc = ((confirm ud (usr.get k)).1, (confirm ud (usr.get k)).2, ⟨usr, k + 1⟩) := by
  rw [bankUser, hread, hbank, read_of_lt hk]
  rfl

theorem restored_append (und : List (Table User)) (t : Table User) :
    restored usr (und ++ [t]) k = ((firstVersion und k).or (version t k)).getD (usr.get k) := by
  rw [restored, firstVersion_append, firstVersion_cons]
  congr 2
  exact Option.or_none

/-- The step for one account. -/
theorem BankAt.user (h : BankAt usr und t k acc) (hsize : k < usr.size) :
    BankAt usr und t (k + 1) (bankUser acc).2 ∧
      (Stale und t k → (bankUser acc).1 = t.get (t.size - 1)) ∧
      (¬ Stale und t k → (bankUser acc).1 = restored usr (und ++ [t]) k) := by
  obtain ⟨⟨fs, hfs, hall⟩, hbank⟩ := h
  have hnext := (undoRead_spec hall).2
  rw [restored_append]
  cases hfirst : firstVersion und k with
  | some u =>
    have hread := undoRead_of_some hall ⟨t, lastPlace und t k⟩ hfirst
    have huser : bankUser acc = (u, (undoRead fs).2 ++ [⟨t, lastPlace und t (k + 1)⟩],
        ⟨usr, k + 1⟩) := by
      rw [bankUser, hfs, hread, hbank, lastPlace_succ_of_some hfirst]
      rfl
    rw [huser]
    refine ⟨⟨⟨_, rfl, hnext⟩, rfl⟩, fun hstale => ?_, fun _ => rfl⟩
    rw [hstale.unrecorded] at hfirst
    cases hfirst
  | none =>
    have hread := undoRead_of_none hall ⟨t, lastPlace und t k⟩ hfirst
    rw [← hfs] at hread
    rcases Nat.lt_or_ge k t.size with hk | hk
    · have hnot : ¬ Stale und t k := fun hstale => absurd hstale.beyond (Nat.not_le.mpr hk)
      have hplace : lastPlace und t (k + 1) = k + 1 := lastPlace_succ_of_lt hk
      rw [lastPlace_of_lt hk, read_of_lt hk] at hread
      rw [version, Table.read?, if_pos hk]
      by_cases hmsid : (t.get k).msid ≠ 0
      · have hfilter : (some (t.get k)).filter (fun u => u.msid ≠ 0) = some (t.get k) :=
          Option.filter_some_pos (decide_eq_true hmsid)
        have huser : bankUser acc = (t.get k, (undoRead fs).2 ++ [⟨t, k + 1⟩], ⟨usr, k + 1⟩) := by
          rw [bankUser, hread, hfilter, hbank]
          rfl
        rw [huser, hfilter]
        exact ⟨⟨⟨_, by rw [hplace], hnext⟩, rfl⟩, fun hstale => absurd hstale hnot, fun _ => rfl⟩
      · -- the second look is at the same record
        have hfilter : (some (t.get k)).filter (fun u => u.msid ≠ 0) = none :=
          Option.filter_some_neg (decide_eq_false hmsid)
        have hback : (RecordFile.mk t (k + 1)).back = ⟨t, k⟩ := rfl
        rw [hfilter] at hread
        rw [bankUser_of_none hread hbank hsize, confirm_append, hback, read_of_lt hk,
          Option.getD_some, if_neg hmsid, hfilter]
        exact ⟨⟨⟨_, by rw [hplace], hnext⟩, rfl⟩, fun hstale => absurd hstale hnot, fun _ => rfl⟩
    · have hend : t.size ≤ lastPlace und t k := by
        rw [lastPlace_of_le hk]
        exact Nat.le_add_right _ _
      have hversion : version t k = none := by
        rw [version, Table.read?, if_neg (Nat.not_lt.mpr hk)]
        rfl
      rw [read_of_le hend] at hread
      obtain ⟨hfiles, hstale, hkept⟩ := confirm_beyond hk hfirst (undoRead fs).2 (usr.get k)
      rw [bankUser_of_none hread hbank hsize, hversion]
      exact ⟨⟨⟨_, hfiles, hnext⟩, rfl⟩, hstale, hkept⟩

instance (und : List (Table User)) (t : Table User) (k : Nat) : Decidable (Stale und t k) :=
  decidable_of_iff (t.size ≤ k ∧ 0 < t.size ∧ (t.get (t.size - 1)).msid ≠ 0 ∧
      firstVersion und k = none ∧ backlog (recordedBy und) t.size k = 0)
    ⟨fun h => ⟨h.1, h.2.1, h.2.2.1, h.2.2.2.1, minority_iff.mpr h.2.2.2.2⟩,
      fun h => ⟨h.beyond, h.nonempty, h.msid, h.unrecorded, minority_iff.mp h.minority⟩⟩

/-- The record that is sent for an account. -/
def sentRecord (usr : Table User) (und : List (Table User)) (t : Table User) (k : Nat) : User :=
  if Stale und t k then t.get (t.size - 1) else restored usr (und ++ [t]) k

/-- A stale account has no version. -/
theorem Stale.restored (h : Stale und t k) : restored usr (und ++ [t]) k = usr.get k := by
  have hversion : version t k = none := by
    rw [version, Table.read?, if_neg (Nat.not_lt.mpr h.beyond)]
    rfl
  rw [restored_append, h.unrecorded, hversion]
  rfl

theorem sentRecord_eq_iff : sentRecord usr und t k = Esc.restored usr (und ++ [t]) k ↔
    (Stale und t k → t.get (t.size - 1) = usr.get k) := by
  rw [sentRecord]
  by_cases hstale : Stale und t k
  · rw [if_pos hstale, hstale.restored]
    exact ⟨fun h _ => h, fun h => h hstale⟩
  · rw [if_neg hstale]
    exact ⟨fun _ h => absurd h hstale, fun _ => rfl⟩

/-- The loop over the accounts. -/
theorem BankAt.users (h : BankAt usr und t k acc) (hsize : k + n ≤ usr.size) :
    bankUsers acc n = (List.range' k n).map (sentRecord usr und t) := by
  induction n generalizing k acc with
  | zero => rfl
  | succ n ih =>
    obtain ⟨hnext, hstale, hright⟩ := h.user (by omega)
    have hsent : (bankUser acc).1 = sentRecord usr und t k := by
      rw [sentRecord]
      split
      · rename_i hcase
        exact hstale hcase
      · rename_i hcase
        exact hright hcase
    rw [bankUsers, List.range'_succ, List.map_cons, hsent, ih hnext (by omega)]

/-- All accounts of a bank, with the undo files from oldest to newest. -/
theorem bankRecords_eq (usr : Table User) (und : List (Table User)) (t : Table User) {users : Nat}
    (hsize : users ≤ usr.size) :
    bankRecords usr (und ++ [t]) users = (List.range users).map (sentRecord usr und t) := by
  have hstart : BankAt usr und t 0
      ((und ++ [t]).map fun t => { file := t }, { file := usr }) := by
    refine ⟨⟨und.map fun t => { file := t }, ?_, ?_, fun f hf => ?_⟩, rfl⟩
    · rw [List.map_append, lastPlace, Nat.zero_min]
      rfl
    · rw [List.map_map]
      exact List.map_id und
    · obtain ⟨t, -, rfl⟩ := List.mem_map.mp hf
      exact .inl rfl
  rw [bankRecords, hstart.users (by omega), List.range_eq_range']

/-! ## The records of a block -/

section Serve

variable (sha256 : List UInt8 → Hash) (debug : Bool) (bank : UInt16)

/-- The checksum of a record in its place. -/
def csumFits (u : User) (k : Nat) : Bool := u.csum = csumOf sha256 u bank (.ofNat k)

/-- The records that are sent, in chunks. A debug build checks each record, and leaves before the
chunk with a wrong one is sent. -/
def sentRecords (rs : List User) : List User :=
  let fit := (rs.zipIdx.takeWhile fun p => csumFits sha256 bank p.1 p.2).length
  if debug ∧ fit < rs.length then rs.take (messageChunk * (fit / messageChunk)) else rs

variable {sha256 debug bank}

theorem mem_zipIdx_map_range {p : User × Nat} :
    p ∈ ((List.range n).map g).zipIdx ↔ p.2 < n ∧ p.1 = g p.2 := by
  rw [List.mem_zipIdx_iff_getElem?, List.getElem?_map]
  constructor
  · intro hp
    obtain ⟨i, hi, heq⟩ := Option.map_eq_some_iff.mp hp
    obtain ⟨hlt, rfl⟩ := List.getElem?_eq_some_iff.mp hi
    rw [List.length_range] at hlt
    rw [List.getElem_range] at heq
    exact ⟨hlt, heq.symm⟩
  · rintro ⟨hlt, heq⟩
    rw [List.getElem?_range hlt, heq]
    rfl

/-- A record with a wrong checksum is found. -/
theorem length_takeWhile_lt_iff :
    (((List.range n).map g).zipIdx.takeWhile fun p => csumFits sha256 bank p.1 p.2).length < n ↔
      ¬ ∀ i < n, csumFits sha256 bank (g i) i := by
  have hlength : ((List.range n).map g).zipIdx.length = n := by simp
  have hle := (List.takeWhile_prefix (l := ((List.range n).map g).zipIdx)
    fun p => csumFits sha256 bank p.1 p.2).length_le
  have hall : (∀ i < n, csumFits sha256 bank (g i) i) ↔
      ∀ p ∈ ((List.range n).map g).zipIdx, csumFits sha256 bank p.1 p.2 := by
    constructor
    · intro h p hp
      obtain ⟨hlt, heq⟩ := mem_zipIdx_map_range.mp hp
      rw [heq]
      exact h p.2 hlt
    · intro h i hi
      exact h (g i, i) (mem_zipIdx_map_range.mpr ⟨hi, rfl⟩)
  rw [hall, ← List.takeWhile_eq_self_iff, ← not_iff_not, not_not, Nat.not_lt]
  constructor
  · intro hge
    exact (List.takeWhile_prefix _).eq_of_length (by omega)
  · intro heq
    rw [heq, hlength]

/-- All records are sent, or the first one with a wrong checksum is not. -/
theorem sentRecords_iff {f : Nat → User} :
    (∀ i < n, (sentRecords sha256 debug bank ((List.range n).map g))[i]? = some (f i)) ↔
      (∀ i < n, g i = f i) ∧ (debug → ∀ i < n, csumFits sha256 bank (g i) i) := by
  have hlength : ((List.range n).map g).length = n := by rw [List.length_map, List.length_range]
  rw [sentRecords, hlength]
  by_cases hleave : debug ∧ (((List.range n).map g).zipIdx.takeWhile
      fun p => csumFits sha256 bank p.1 p.2).length < n
  · rw [if_pos hleave]
    obtain ⟨hdebug, hlt⟩ := hleave
    refine ⟨fun h => ?_, fun h => absurd (h.2 hdebug) (length_takeWhile_lt_iff.mp hlt)⟩
    have hnone := h _ hlt
    rw [List.getElem?_eq_none] at hnone
    · cases hnone
    · rw [List.length_take]
      exact (Nat.min_le_left _ _).trans (Nat.mul_div_le _ _)
  · rw [if_neg hleave]
    have hfits : debug → ∀ i < n, csumFits sha256 bank (g i) i := by
      intro hdebug
      by_contra hnot
      exact hleave ⟨hdebug, length_takeWhile_lt_iff.mpr hnot⟩
    have hget (i : Nat) (hi : i < n) : ((List.range n).map g)[i]? = some (g i) := by
      rw [List.getElem?_map, List.getElem?_range hi]
      rfl
    constructor
    · intro h
      exact ⟨fun i hi => Option.some.inj ((hget i hi).symm.trans (h i hi)), hfits⟩
    · rintro ⟨h, -⟩ i hi
      rw [hget i hi, h i hi]

variable (sha256 debug bank)

namespace BankHistory

variable (h : BankHistory) (target : Nat)

/-- The undo files of the closed blocks behind the target. -/
def closedFiles : List (Table User) :=
  (List.range' (target + 1) (h.last - target)).filterMap (created h.und (target + 1) h.last)

/-- The undo file of the open block. -/
def openFile : Table User := (h.und (h.last + 1)).getD .empty

/-- `write_bank` for a closed block: a block that is too old is refused. A missing undo file is
created. -/
def writeBank : Option (List User) :=
  if maxUndo < 1 + (h.last + 1 - target) then none
  else some (sentRecords sha256 debug bank (bankRecords h.usr
    ((List.range' (target + 1) (h.last + 1 - target)).filterMap (created h.und (target + 1) h.last))
    (h.users target)))

/-- What is sent for a closed block is what `undo_bank` restores. -/
def Serves : Prop :=
  ∀ rs, h.writeBank sha256 debug bank target = some rs →
    ∀ i < h.users target, rs[i]? = some ((h.undo target).get i)

variable {h target}

theorem servedFiles (htarget : target ≤ h.last) :
    (List.range' (target + 1) (h.last + 1 - target)).filterMap (created h.und (target + 1) h.last) =
      h.closedFiles target ++ [h.openFile] := by
  have hcount : h.last + 1 - target = h.last - target + 1 := by omega
  have hlast : target + 1 + 1 * (h.last - target) = h.last + 1 := by omega
  have hopen : created h.und (target + 1) h.last (h.last + 1) = some h.openFile := by
    rw [created, if_pos (by omega), openFile]
  rw [hcount, List.range'_concat, hlast, List.filterMap_append, closedFiles,
    List.filterMap_cons_some hopen, List.filterMap_nil]

theorem get_undo (htarget : target ≤ h.last) {i : Nat} (hi : i < h.users target) :
    (h.undo target).get i = restored h.usr (h.closedFiles target ++ [h.openFile]) i := by
  have hcount : h.last + 2 - (target + 1) = h.last + 1 - target := by omega
  rw [undo, get_undoBank ((h.users_mono htarget).trans h.onFile), if_pos hi, ← servedFiles htarget,
    restored, restored, firstVersion_created, files, hcount]

variable {sha256 debug bank}

/-- A block that is not too old is served right when no account is sent as the last record of the
last undo file, unless it is the same, and when in a debug build all checksums fit. -/
theorem serves_iff (target : Fin (h.last + 1)) : h.Serves sha256 debug bank target ↔
    maxUndo < 1 + (h.last + 1 - target) ∨
      (∀ i < h.users target, Stale (h.closedFiles target) h.openFile i →
        h.openFile.get (h.openFile.size - 1) = h.usr.get i) ∧
      (debug → ∀ i < h.users target, csumFits sha256 bank ((h.undo target).get i) i) := by
  have htarget : target ≤ h.last := Nat.lt_succ_iff.mp target.isLt
  rw [Serves, writeBank]
  by_cases hold : maxUndo < 1 + (h.last + 1 - target)
  · rw [if_pos hold]
    exact ⟨fun _ => .inl hold, fun _ rs hrs => by cases hrs⟩
  · have hsize : h.users target ≤ h.usr.size := (h.users_mono htarget).trans h.onFile
    rw [if_neg hold, servedFiles htarget, bankRecords_eq _ _ _ hsize]
    simp only [Option.some.injEq, forall_eq', hold, false_or, sentRecords_iff]
    have hright : (∀ i < h.users target,
        sentRecord h.usr (h.closedFiles target) h.openFile i = (h.undo target).get i) ↔
          ∀ i < h.users target, Stale (h.closedFiles target) h.openFile i →
            h.openFile.get (h.openFile.size - 1) = h.usr.get i := by
      refine forall₂_congr fun i hi => ?_
      rw [get_undo htarget hi, sentRecord_eq_iff]
    rw [← hright]
    refine and_congr_right fun heq => imp_congr_right fun _ => forall₂_congr fun i hi => ?_
    rw [heq i hi]

end BankHistory

end Serve

namespace Sample

theorem messageInOpenBlock_onFile :
    2 ≤ (Table.ofList [withMsid 5, withMsid 7]).size := Nat.le_refl 2

/-- Two accounts, of which the first has sent a message in the open block. -/
def messageInOpenBlock : BankHistory where
  usr := .ofList [withMsid 5, withMsid 7]
  und n := if n = 1 then some (.ofList [withMsid 4]) else none
  users _ := 2
  last := 0
  users_mono := monotone_const
  onFile := messageInOpenBlock_onFile

end Sample

/-- The second account is sent as the first one was before its message. -/
theorem writeBank_openBlock :
    Sample.messageInOpenBlock.writeBank (fun _ => 0) false 1 0 =
        some [Sample.withMsid 4, Sample.withMsid 4] ∧
      (Sample.messageInOpenBlock.undo 0).get 1 = Sample.withMsid 7 ∧
      ¬ Sample.messageInOpenBlock.Serves (fun _ => 0) false 1 0 := by
  have hsent : Sample.messageInOpenBlock.writeBank (fun _ => 0) false 1 0 =
      some [Sample.withMsid 4, Sample.withMsid 4] := by decide +kernel
  have hundo : (Sample.messageInOpenBlock.undo 0).get 1 = Sample.withMsid 7 := by decide +kernel
  refine ⟨hsent, hundo, fun h => ?_⟩
  have hrecord := h _ hsent 1 (by decide)
  rw [hundo] at hrecord
  exact absurd (Option.some.inj hrecord) (by decide)

end Esc
