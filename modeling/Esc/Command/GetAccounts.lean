import Esc.Helper.BlockFileReader
import Esc.Peer.BankTransfer
import Esc.Server.BlockUndo

/-!
# The accounts of a bank at a block

`GetAccounts::prepareResponse` reads the account file and, next to it, the undo file of the
requested block. A version in the undo file takes the place of the record.

The undo file of a block has the records from before the block. The records at the end of the block
would be in the undo files of the later blocks.
-/

namespace Esc

open Lib

inductive AccountsError where
  | bankNotFound
  | undoNotFound
deriving DecidableEq

/-- The bytes of a file of records. -/
def recordBytes (t : Table User) : List UInt8 :=
  userCodec.encodeAll ((List.range t.size).map t.get)

/-- The reader of an undo file, which is never in an archive. -/
def undoReader : Option (Table User) → BlockFileReader
  | none => {}
  | some t => .atPos (recordBytes t) 0

/-- The loop of `prepareResponse` for one account. `none` is a write behind the end of the response
buffer, or a failed assertion of the reader. -/
def accountsUser (length : UInt32) (user : Nat) (fd : RecordFile) (undo : BlockFileReader) :
    Option (User × RecordFile × BlockFileReader) :=
  if 128 * (user + 1) ≤ length.toNat then
    (undo.read 128).map fun r =>
      let u : User := if r.1.length < 128 then default else userCodec.decode r.1
      (if u.msid ≠ 0 then u else fd.read.1.getD default, fd.read.2, r.2)
  else none

/-- The loop over a number of accounts. -/
def accountsUsers (length : UInt32) :
    Nat → Nat → RecordFile → BlockFileReader → Option (List User)
  | 0, _, _, _ => some []
  | n + 1, user, fd, undo =>
    (accountsUser length user fd undo).bind fun r =>
      (accountsUsers length n (user + 1) r.2.1 r.2.2).map fun us => r.1 :: us

/-- `GetAccounts::prepareResponse` with the account file and the undo file of the block. The length
of the response is kept in 32 bits. -/
def prepareAccounts (usr und : Option (Table User)) (lastUsers : UInt32) :
    Option (Except AccountsError (List User)) :=
  match usr with
  | none => some (.error .bankNotFound)
  | some usr =>
    if (undoReader und).isOpen then
      (accountsUsers (.ofNat (lastUsers.toNat * 128)) lastUsers.toNat 0 { file := usr }
        (undoReader und)).map .ok
    else some (.error .undoNotFound)

/-! ## The records that are read -/

section Reads

variable {t : Table User}

theorem length_recordBytes (t : Table User) : (recordBytes t).length = 128 * t.size := by
  rw [recordBytes, Codec.length_encodeAll, List.length_map, List.length_range, Nat.mul_comm]
  rfl

theorem slice_recordBytes {k : Nat} (hk : k < t.size) :
    slice (recordBytes t) (128 * k) 128 = userCodec.encode (t.get k) := by
  have hlength : ((List.range t.size).map t.get).length = t.size := by
    rw [List.length_map, List.length_range]
  have hdrop := userCodec.drop_encodeAll ((List.range t.size).map t.get) (m := k)
    (by rw [hlength]; exact hk.le)
  have hcons : ((List.range t.size).map t.get).drop k =
      t.get k :: ((List.range t.size).map t.get).drop (k + 1) := by
    rw [List.drop_eq_getElem_cons (by rw [hlength]; exact hk), List.getElem_map, List.getElem_range]
  rw [slice, recordBytes, Nat.mul_comm]
  show ((userCodec.encodeAll _).drop (k * userCodec.width)).take userCodec.width = _
  rw [hdrop, hcons, Codec.encodeAll_cons, List.take_left' (userCodec.length_encode _)]

/-- A read at the end of a file. -/
theorem read_end {file : List UInt8} {size : Nat} (hlength : file.length = 128 * size)
    (hsize : size ≤ 2 ^ 24) :
    (BlockFileReader.atPos file file.length).read 128 =
      if size < 2 ^ 24 then some ([], .atPos file file.length) else none := by
  have hcurrent : file.length % 2 ^ 32 = file.length := Nat.mod_eq_of_lt (by omega)
  have hstop : (BlockFileReader.atPos file file.length).stop = file.length := Nat.mod_eq_of_lt (by
    show file.length + 0 < _
    omega)
  have hsum : (128 + file.length) % 2 ^ 32 = 128 + file.length := Nat.mod_eq_of_lt (by omega)
  have hrest : (file.length + 2 ^ 32 - file.length) % 2 ^ 32 = 0 := by
    rw [Nat.add_sub_cancel_left, Nat.mod_self]
  have hfd : (BlockFileReader.atPos file file.length).fd = some file := rfl
  have hposition : (BlockFileReader.atPos file file.length).position = file.length := rfl
  have hcount : (128 : UInt32).toNat = 128 := rfl
  have hslice : slice file file.length 0 = [] := List.take_zero
  simp only [BlockFileReader.read, hfd, hstop, hposition, hcurrent, hcount, hsum,
    if_pos (show file.length < 128 + file.length by omega), hrest, hslice]
  by_cases hsmall : size < 2 ^ 24
  · rw [if_neg (by omega), if_pos hsmall]
    rfl
  · rw [if_pos (by omega), if_neg hsmall]

/-- One read of the undo file, or none at its end. -/
theorem read_undo (hsize : t.size < 2 ^ 33) {k : Nat} (hk : min k t.size ≤ 2 ^ 24) :
    (BlockFileReader.atPos (recordBytes t) (128 * min k t.size)).read 128 =
      if min k t.size < 2 ^ 24 then
        some (if k < t.size then userCodec.encode (t.get k) else [],
          .atPos (recordBytes t) (128 * min (k + 1) t.size))
      else none := by
  have hlength := length_recordBytes t
  by_cases hend : k < t.size
  · rw [Nat.min_eq_left hend.le] at hk ⊢
    have hinside : 128 * k + 128 ≤ (recordBytes t).length := by omega
    have hread := BlockFileReader.read_at (w := 128) (by omega) (by decide) hinside (by omega)
    have hiff : 128 * k < 2 ^ 31 ↔ k < 2 ^ 24 := by omega
    have hnext : 128 * min (k + 1) t.size = 128 * k + 128 := by omega
    rw [if_pos hend, hnext, ← slice_recordBytes hend]
    simp only [← hiff]
    exact hread
  · have hmin : min k t.size = t.size := Nat.min_eq_right (Nat.not_lt.mp hend)
    have hmin' : min (k + 1) t.size = t.size := by omega
    rw [hmin] at hk
    rw [if_neg hend, hmin, hmin', ← hlength]
    exact read_end hlength hk

/-- The account that is put in the response. -/
def answered (usr t : Table User) (k : Nat) : User := (version t k).getD (usr.get k)

/-- The read of an account stays in the buffer, and the reader below `2 ^ 31`. -/
def InReach (length : UInt32) (t : Table User) (k : Nat) : Prop :=
  128 * (k + 1) ≤ length.toNat ∧ min k t.size < 2 ^ 24

instance (length : UInt32) (t : Table User) (k : Nat) : Decidable (InReach length t k) :=
  inferInstanceAs (Decidable (_ ∧ _))

/-- A record of the undo file counts when it has a message id. -/
theorem answered_eq (usr t : Table User) (k : Nat) :
    answered usr t k =
      if (if k < t.size then t.get k else default).msid ≠ 0 then
        (if k < t.size then t.get k else default)
      else usr.get k := by
  rw [answered, version, Table.read?]
  by_cases hk : k < t.size
  · rw [if_pos hk, if_pos hk]
    by_cases hmsid : (t.get k).msid ≠ 0
    · have hfilter : (some (t.get k)).filter (fun u => u.msid ≠ 0) = some (t.get k) :=
        Option.filter_some_pos (decide_eq_true hmsid)
      rw [hfilter, if_pos hmsid, Option.getD_some]
    · have hfilter : (some (t.get k)).filter (fun u => u.msid ≠ 0) = none :=
        Option.filter_some_neg (decide_eq_false hmsid)
      rw [hfilter, if_neg hmsid, Option.getD_none]
  · rw [if_neg hk, if_neg hk]
    exact (if_neg (not_not_intro rfl)).symm

variable {usr : Table User} {und : Option (Table User)} {length : UInt32} {k : Nat}
  {fd : RecordFile}

theorem accountsUser_eq (hsize : t.size < 2 ^ 33) (hk : min k t.size ≤ 2 ^ 24) (hfd : fd.At k)
    (hfile : fd.file = usr) :
    accountsUser length k fd (.atPos (recordBytes t) (128 * min k t.size)) =
      if InReach length t k then
        some (answered usr t k, fd.read.2, .atPos (recordBytes t) (128 * min (k + 1) t.size))
      else none := by
  have hlive : fd.read.1.getD default = usr.get k := by
    rw [hfd.read.1, hfile, Table.read?]
    split
    · rfl
    · rename_i hend
      exact (usr.beyond k (Nat.not_lt.mp hend)).symm
  have hrecord :
      (if (if k < t.size then userCodec.encode (t.get k) else []).length < 128 then default
        else userCodec.decode (if k < t.size then userCodec.encode (t.get k) else [])) =
        if k < t.size then t.get k else default := by
    by_cases hend : k < t.size
    · have hlength : ¬ (userCodec.encode (t.get k)).length < 128 := by
        rw [userCodec.length_encode]
        decide
      rw [if_pos hend, if_pos hend, if_neg hlength, Codec.decode_encode_self]
    · rw [if_neg hend, if_neg hend]
      rfl
  rw [accountsUser, read_undo hsize hk, hlive]
  by_cases hread : min k t.size < 2 ^ 24
  · rw [if_pos hread, Option.map_some]
    dsimp only
    rw [hrecord, ← answered_eq]
    simp only [InReach, hread, and_true]
  · have hnot : ¬ InReach length t k := fun h => hread h.2
    rw [if_neg hread, Option.map_none, if_neg hnot]
    split <;> rfl

/-- The response has all accounts, if all reads succeed. -/
theorem accountsUsers_eq (hsize : t.size < 2 ^ 33) (hk : min k t.size ≤ 2 ^ 24) (hfd : fd.At k)
    (hfile : fd.file = usr) (n : Nat) :
    accountsUsers length n k fd (.atPos (recordBytes t) (128 * min k t.size)) =
      if ∀ j ∈ List.range' k n, InReach length t j then
        some ((List.range' k n).map (answered usr t))
      else none := by
  induction n generalizing k fd with
  | zero => rfl
  | succ n ih =>
    rw [accountsUsers, accountsUser_eq hsize hk hfd hfile, List.range'_succ]
    simp only [List.forall_mem_cons, List.map_cons]
    by_cases hread : InReach length t k
    · have hnext : min (k + 1) t.size ≤ 2 ^ 24 := by
        have := hread.2
        omega
      rw [if_pos hread, Option.bind_some, ih hnext hfd.read.2 (fd.file_read.trans hfile)]
      simp only [hread, true_and]
      split <;> rfl
    · rw [if_neg hread, if_neg fun h => hread h.1]
      rfl

/-- The reads of all accounts succeed in a bank that is small enough. -/
theorem forall_inReach_iff (lastUsers : UInt32) :
    (∀ j ∈ List.range' 0 lastUsers.toNat, InReach (.ofNat (lastUsers.toNat * 128)) t j) ↔
      lastUsers.toNat < 2 ^ 25 ∧ (lastUsers.toNat ≤ 2 ^ 24 ∨ t.size < 2 ^ 24) := by
  have hlength : (UInt32.ofNat (lastUsers.toNat * 128)).toNat = lastUsers.toNat * 128 % 2 ^ 32 :=
    UInt32.toNat_ofNat'
  simp only [InReach, hlength, List.mem_range'_1]
  constructor
  · intro h
    by_cases hzero : lastUsers.toNat = 0
    · omega
    · have hlast := h (lastUsers.toNat - 1) (by omega)
      omega
  · rintro ⟨hbuffer, hreader⟩ j hj
    omega

theorem isOpen_undoReader (und : Option (Table User)) :
    (undoReader und).isOpen ↔ ∃ t, und = some t ∧ 0 < t.size := by
  cases und with
  | none => simp [undoReader, BlockFileReader.isOpen]
  | some t =>
    have hopen : (undoReader (some t)).isOpen = decide (0 < (recordBytes t).length) := rfl
    rw [hopen, decide_eq_true_iff, length_recordBytes]
    simp

/-- The response for an undo file that has records. -/
theorem prepareAccounts_eq_ok (hsize : ∀ t, und = some t → t.size < 2 ^ 33) {lastUsers : UInt32}
    {rs : List User} :
    prepareAccounts (some usr) und lastUsers = some (.ok rs) ↔
      ∃ t, und = some t ∧ 0 < t.size ∧ lastUsers.toNat < 2 ^ 25 ∧
        (lastUsers.toNat ≤ 2 ^ 24 ∨ t.size < 2 ^ 24) ∧
        rs = (List.range lastUsers.toNat).map (answered usr t) := by
  rw [prepareAccounts]
  by_cases hopen : (undoReader und).isOpen
  · obtain ⟨t, rfl, hpos⟩ := (isOpen_undoReader und).mp hopen
    have hstart : (RecordFile.mk usr 0).At 0 := .inl rfl
    have hzero : min 0 t.size ≤ 2 ^ 24 := by omega
    have hreader : undoReader (some t) = .atPos (recordBytes t) (128 * min 0 t.size) := by
      rw [Nat.zero_min]
      rfl
    rw [if_pos hopen, hreader, accountsUsers_eq (hsize t rfl) hzero hstart rfl,
      ← List.range_eq_range']
    simp only [Option.some.injEq, exists_eq_left', hpos, true_and]
    rw [← and_assoc, ← forall_inReach_iff, ← List.range_eq_range']
    by_cases hread : ∀ j ∈ List.range lastUsers.toNat, InReach (.ofNat (lastUsers.toNat * 128)) t j
    · rw [if_pos hread]
      simp only [Option.map_some, Option.some.injEq, Except.ok.injEq, eq_comm, iff_true_intro hread,
        true_and]
    · rw [if_neg hread]
      simp only [hread, false_and, iff_false]
      exact Option.some_ne_none _ ∘ Eq.symm
  · rw [if_neg hopen]
    constructor
    · intro h
      cases h
    · rintro ⟨t, hund, hpos, -⟩
      exact absurd ((isOpen_undoReader und).mpr ⟨t, hund, hpos⟩) hopen

end Reads

/-! ## The requested block -/

instance (cs : List BankUpdate) (uid : UInt32) : Decidable (Touched cs uid) :=
  inferInstanceAs (Decidable (∃ c ∈ cs, uid ∈ c.changes))

/-- A closed block of a bank, with the blocks after it and the updates of the open block. The undo
file is deleted when the directory of the block is archived. -/
structure BlockHistory where
  before : BankFiles
  changes : List BankUpdate
  after : BankFiles
  later : List (List BankUpdate)
  last : BankFiles
  opened : List BankUpdate
  live : BankFiles
  archived : Bool := false
  fresh : before.Fresh
  run : before.updates changes = some after
  closed : after.close.blocks later = some last
  current : last.updates opened = some live

namespace BlockHistory

variable (h : BlockHistory)

/-- The response to a request for the block, with the user count of the last block. -/
def response : Option (Except AccountsError (List User)) :=
  prepareAccounts (some h.live.usr) (if h.archived then none else h.after.und) h.last.node.users

/-- The response has the records from the end of the block. -/
def Answers : Prop :=
  ∃ rs, h.response = some (.ok rs) ∧
    ∀ uid : UInt32, uid < h.after.node.users → rs[uid.toNat]? = some (h.after.usr.get uid.toNat)

/-- An account of which the undo file of the block has a version. -/
def Versioned (uid : UInt32) : Prop :=
  Touched h.changes uid ∧ (h.before.usr.get uid.toNat).msid ≠ 0

instance (uid : UInt32) : Decidable (h.Versioned uid) := inferInstanceAs (Decidable (_ ∧ _))

theorem logged : BankFiles.Logged h.before h.changes h.after := h.fresh.updates h.run

theorem users_le : h.after.node.users ≤ h.last.node.users := (h.logged.close.blocks h.closed).2

theorem answered_history (uid : UInt32) :
    answered h.live.usr h.after.undoFile uid.toNat =
      if h.Versioned uid then h.before.usr.get uid.toNat else h.live.usr.get uid.toNat := by
  rw [answered, h.logged.version]
  by_cases htouched : Touched h.changes uid
  · rw [if_pos htouched]
    by_cases hmsid : (h.before.usr.get uid.toNat).msid ≠ 0
    · have hfilter : (some (h.before.usr.get uid.toNat)).filter (fun u => u.msid ≠ 0) =
          some (h.before.usr.get uid.toNat) := Option.filter_some_pos (decide_eq_true hmsid)
      have hv : h.Versioned uid := ⟨htouched, hmsid⟩
      rw [hfilter, if_pos hv, Option.getD_some]
    · have hfilter : (some (h.before.usr.get uid.toNat)).filter (fun u => u.msid ≠ 0) = none :=
        Option.filter_some_neg (decide_eq_false hmsid)
      have hv : ¬ h.Versioned uid := fun hv => hmsid hv.2
      rw [hfilter, if_neg hv, Option.getD_none]
  · have hv : ¬ h.Versioned uid := fun hv => htouched hv.1
    rw [if_neg htouched, if_neg hv, Option.getD_none]

theorem size_lt : h.after.undoFile.size < 2 ^ 33 := by
  have hle := (h.logged.size (2 ^ 32)).mpr fun uid _ => uid.toNat_lt
  omega

/-- The undo file has a record exactly when the block has changed an account. -/
theorem undoFile_pos : 0 < h.after.undoFile.size ↔ ∃ uid, Touched h.changes uid := by
  rw [← Nat.not_le, h.logged.size 0]
  simp

theorem und_eq_some_iff (t : Table User) :
    (if h.archived then none else h.after.und) = some t ∧ 0 < t.size ↔
      (¬ h.archived ∧ ∃ uid, Touched h.changes uid) ∧ t = h.after.undoFile := by
  rw [← h.undoFile_pos, BankFiles.undoFile]
  cases h.archived with
  | true => simp
  | false =>
    cases h.after.und with
    | none => simp [Table.empty]
    | some t' =>
      simp only [Bool.false_eq_true, if_false, Option.some.injEq, not_false_eq_true, true_and,
        Option.getD_some]
      constructor
      · rintro ⟨rfl, hpos⟩
        exact ⟨hpos, rfl⟩
      · rintro ⟨hpos, rfl⟩
        exact ⟨rfl, hpos⟩

theorem und_size_lt {t : Table User} (ht : (if h.archived then none else h.after.und) = some t) :
    t.size < 2 ^ 33 := by
  by_cases hpos : 0 < t.size
  · obtain ⟨-, rfl⟩ := (h.und_eq_some_iff t).mp ⟨ht, hpos⟩
    exact h.size_lt
  · omega

/-- When there is a response, and the records in it. -/
theorem response_eq_ok {rs : List User} : h.response = some (.ok rs) ↔
    (¬ h.archived ∧ ∃ uid, Touched h.changes uid) ∧ h.last.node.users.toNat < 2 ^ 25 ∧
      (h.last.node.users.toNat ≤ 2 ^ 24 ∨ ∀ uid, Touched h.changes uid → uid.toNat + 1 < 2 ^ 24) ∧
      rs = (List.range h.last.node.users.toNat).map (answered h.live.usr h.after.undoFile) := by
  have hbound : h.after.undoFile.size < 2 ^ 24 ↔
      ∀ uid, Touched h.changes uid → uid.toNat + 1 < 2 ^ 24 := by
    have hle := h.logged.size (2 ^ 24 - 1)
    simp only [Nat.lt_sub_iff_add_lt] at hle
    rw [← hle]
    omega
  rw [response, prepareAccounts_eq_ok fun t => h.und_size_lt, ← hbound]
  constructor
  · rintro ⟨t, hund, hpos, hrest⟩
    obtain ⟨hblock, rfl⟩ := (h.und_eq_some_iff t).mp ⟨hund, hpos⟩
    exact ⟨hblock, hrest⟩
  · rintro ⟨hblock, hrest⟩
    obtain ⟨hund, hpos⟩ := (h.und_eq_some_iff h.after.undoFile).mpr ⟨hblock, rfl⟩
    exact ⟨_, hund, hpos, hrest⟩

theorem getElem?_answered {uid : UInt32} (huid : uid < h.after.node.users) :
    ((List.range h.last.node.users.toNat).map (answered h.live.usr h.after.undoFile))[uid.toNat]? =
      some (if h.Versioned uid then h.before.usr.get uid.toNat else h.live.usr.get uid.toNat) := by
  have hlt : uid.toNat < h.last.node.users.toNat :=
    (UInt32.lt_iff_toNat_lt.mp huid).trans_le (UInt32.le_iff_toNat_le.mp h.users_le)
  rw [List.getElem?_map, List.getElem?_range hlt, ← h.answered_history]
  rfl

/-- The response is right only where the block and the later ones leave the records alone: an
account with a version is answered as it was before the block, every other one as it is now. -/
theorem answers_iff : h.Answers ↔
    (¬ h.archived ∧ ∃ uid, Touched h.changes uid) ∧ h.last.node.users.toNat < 2 ^ 25 ∧
      (h.last.node.users.toNat ≤ 2 ^ 24 ∨ ∀ uid, Touched h.changes uid → uid.toNat + 1 < 2 ^ 24) ∧
      ∀ uid : UInt32, uid < h.after.node.users →
        (if h.Versioned uid then h.before.usr.get uid.toNat else h.live.usr.get uid.toNat) =
          h.after.usr.get uid.toNat := by
  constructor
  · rintro ⟨rs, hresponse, hright⟩
    obtain ⟨hblock, hbuffer, hreader, rfl⟩ := h.response_eq_ok.mp hresponse
    refine ⟨hblock, hbuffer, hreader, fun uid huid => ?_⟩
    exact Option.some.inj ((h.getElem?_answered huid).symm.trans (hright uid huid))
  · rintro ⟨hblock, hbuffer, hreader, hright⟩
    refine ⟨_, h.response_eq_ok.mpr ⟨hblock, hbuffer, hreader, rfl⟩, fun uid huid => ?_⟩
    rw [h.getElem?_answered huid, hright uid huid]

end BlockHistory

namespace Sample

/-- A bank with one account that has sent one message. -/
def firstMessage : BankFiles where
  usr := .ofList [{ (default : User) with msid := 1 }]
  node := { users := 1, changed := ⟨64, fun _ => false, fun _ _ => rfl⟩ }

/-- The second message of the account. -/
def secondMessage : BankUpdate where
  changes := (∅ : Map UInt32 User).insert 0 { (default : User) with msid := 2 }

theorem firstMessage_fresh : firstMessage.Fresh := ⟨rfl, fun _ => rfl, rfl⟩

theorem isSome_secondMessage : (firstMessage.update secondMessage).isSome := by
  refine firstMessage_fresh.logged.isSome_update fun uid huid => ?_
  rcases Map.mem_insert_iff.mp huid with rfl | hempty
  · decide
  · exact absurd hempty Std.ExtTreeMap.not_mem_empty

/-- The files after the second message. -/
@[irreducible] def twoMessages : BankFiles :=
  (firstMessage.update secondMessage).get isSome_secondMessage

theorem twoMessages_eq : firstMessage.update secondMessage = some twoMessages := by
  unfold twoMessages
  exact (Option.some_get isSome_secondMessage).symm

theorem twoMessages_users : twoMessages.node.users = 1 := by
  obtain ⟨-, heq⟩ := BankFiles.update_eq_some twoMessages_eq
  rw [heq, BankFiles.saved, saveUndo_node]
  rfl

theorem twoMessages_get : twoMessages.usr.get 0 = { (default : User) with msid := 2 } := by
  obtain ⟨-, heq⟩ := BankFiles.update_eq_some twoMessages_eq
  have hget := Table.get_writeAll (fun _ _ => UInt32.toNat_inj.mp) firstMessage.usr
    secondMessage.changes 0
  rw [heq]
  refine hget.trans ?_
  rw [secondMessage, Map.getElem?_insert_same]
  rfl

/-- The block of the second message is the last one. -/
def secondBlockHistory : BlockHistory where
  before := firstMessage
  changes := [secondMessage]
  after := twoMessages
  later := []
  last := twoMessages.close
  opened := []
  live := twoMessages.close
  fresh := firstMessage_fresh
  run := by
    rw [BankFiles.updates_cons, twoMessages_eq]
    rfl
  closed := rfl
  current := rfl

end Sample

/-- The account has sent its second message in the block, and the response has the record from
before it. -/
theorem response_secondBlock :
    Sample.secondBlockHistory.response = some (.ok [{ (default : User) with msid := 1 }]) ∧
      (Sample.secondBlockHistory.after.usr.get 0).msid = 2 ∧
      ¬ Sample.secondBlockHistory.Answers := by
  have htouched : Touched Sample.secondBlockHistory.changes 0 :=
    ⟨Sample.secondMessage, List.mem_singleton_self _, Map.mem_insert_iff.mpr (.inl rfl)⟩
  have hversioned : Sample.secondBlockHistory.Versioned 0 := ⟨htouched, by decide⟩
  have husers : Sample.secondBlockHistory.last.node.users = 1 :=
    (BankFiles.users_close Sample.twoMessages).trans Sample.twoMessages_users
  have hanswered : answered Sample.secondBlockHistory.live.usr
      Sample.secondBlockHistory.after.undoFile 0 = { (default : User) with msid := 1 } := by
    refine (Sample.secondBlockHistory.answered_history 0).trans ?_
    rw [if_pos hversioned]
    rfl
  have hresponse : Sample.secondBlockHistory.response =
      some (.ok [{ (default : User) with msid := 1 }]) := by
    refine Sample.secondBlockHistory.response_eq_ok.mpr
      ⟨⟨Bool.false_ne_true, 0, htouched⟩, ?_, .inl ?_, ?_⟩
    · rw [husers]
      decide
    · rw [husers]
      decide
    · rw [husers]
      show _ = [answered _ _ 0]
      rw [hanswered]
  have hafter : Sample.secondBlockHistory.after = Sample.twoMessages := rfl
  have hend : Sample.secondBlockHistory.after.usr.get 0 = { (default : User) with msid := 2 } := by
    rw [hafter, Sample.twoMessages_get]
  refine ⟨hresponse, congrArg User.msid hend, ?_⟩
  rintro ⟨rs, hok, hright⟩
  obtain rfl := Except.ok.inj (Option.some.inj (hresponse.symm.trans hok))
  have hcount : (0 : UInt32) < Sample.secondBlockHistory.after.node.users := by
    rw [hafter, Sample.twoMessages_users]
    decide
  have hrecord : some { (default : User) with msid := 1 } =
      some (Sample.secondBlockHistory.after.usr.get 0) := hright 0 hcount
  rw [hend] at hrecord
  exact absurd (congrArg User.msid (Option.some.inj hrecord)) (by decide)

end Esc
