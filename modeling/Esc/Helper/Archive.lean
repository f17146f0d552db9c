import Esc.Helper.Address
import Esc.Helper.BlockFileReader
import Esc.Lib.Map
import Esc.Peer.BankTransfer

/-!
# Archived blocks

`createArch` puts the files of a block into one file: the header, a table of jump
positions, the files with a fixed place in the table and all files named `*.msg` in the
order of their names. `getFileHandle` finds a file again through the table, and a message
through the node and the number at the start of its name and the place they have in the
message list of the block.

The archive holds the fixed files and the messages only, and the header is read together
with the table behind it. For the other files the window that `getFileHandle` finds is the
file, if the place of a message in the list is its place among the message files. A block
directory can hold message files that are not in the list, such as those of bad messages,
which have the hash in their name.
-/

namespace Esc

open Lib

variable {k n width : Nat} {p : List UInt8}

/-! ## Names -/

/-- The files with a fixed place in the archive, in this order. -/
inductive FixedFile where
  | servers
  | signaturesOk
  | signaturesNo
  | hlog
  | msglist
deriving DecidableEq

namespace FixedFile

def all : List FixedFile := [servers, signaturesOk, signaturesNo, hlog, msglist]

/-- The place in the table. -/
def index : FixedFile → Nat
  | servers => 0
  | signaturesOk => 1
  | signaturesNo => 2
  | hlog => 3
  | msglist => 4

def name : FixedFile → Text
  | servers => "servers.srv".toList
  | signaturesOk => "signatures.ok".toList
  | signaturesNo => "signatures.no".toList
  | hlog => "hlog.hlg".toList
  | msglist => "msglist.dat".toList

end FixedFile

def headerName : Text := "header.hdr".toList

/-- The file name has the extension of a message. -/
def isMsg (name : Text) : Bool := ".msg".toList.isSuffixOf name

/-- The digits that `printf` makes with `%x` and zeros up to a width. -/
def hexLower (width n : Nat) : Text := (hexText width n).map Char.toLower

/-- The start of the name of a message file. -/
def msgStem (type : UInt8) (node : UInt16) (msid : UInt32) : Text :=
  hexLower 2 type.toNat ++ '_' :: (hexLower 4 node.toNat ++ '_' :: hexLower 8 msid.toNat)

/-- `FileName::getMsg`. -/
def msgName (type : UInt8) (node : UInt16) (msid : UInt32) : Text :=
  msgStem type node msid ++ ".msg".toList

/-- The digits of a number after a mark `0x`, if there is one. -/
def markedHex : Text → Text × Text
  | '0' :: 'x' :: t => (['0', 'x'], t.takeWhile isHex)
  | '0' :: 'X' :: t => (['0', 'X'], t.takeWhile isHex)
  | t => ([], t.takeWhile isHex)

/-- A conversion `%X` of `sscanf` with a width: the number of 32 bits and what is left of the
text. The white space in front does not count for the width, sign and mark do. -/
def scanHex (width : Nat) (s : Text) : Option (UInt32 × Text) :=
  let (sign, t) := takeSign (s.dropWhile isspace)
  let (mark, digits) := markedHex (t.take (width - sign.length))
  if digits = [] then none
  else some (.ofInt (signed sign (hexNat digits)), t.drop (mark.length + digits.length))

/-- Node and number of a message as `sscanf` reads them from a file name with the format
`%2X_%4X_%8X`. A variable that is not read keeps what was in memory. -/
def scanMsgName (stray : UInt32 × UInt32) (name : Text) : UInt32 × UInt32 :=
  match scanHex 2 name with
  | some (_, '_' :: s) =>
      match scanHex 4 s with
      | some (node, '_' :: s) => (node, ((scanHex 8 s).map Prod.fst).getD stray.2)
      | some (node, _) => (node, stray.2)
      | none => stray
  | _ => stray

/-- The small letters have the values of the big ones. -/
theorem hexVal_toLower {c : Char} (hc : c ∈ hexText width n) : hexVal c.toLower = hexVal c := by
  obtain ⟨i, -, rfl⟩ := List.mem_map.mp hc
  have hall : ∀ d : Fin 16, hexVal ("0123456789ABCDEF".toList.getD d '0').toLower =
      hexVal ("0123456789ABCDEF".toList.getD d '0') := by decide
  exact hall ⟨_, Nat.mod_lt _ (by decide)⟩

theorem length_hexLower (width n : Nat) : (hexLower width n).length = width := by
  rw [hexLower, List.length_map, length_hexText]

theorem hexDigits_hexLower (width n : Nat) : HexDigits (hexLower width n) := by
  intro c hc
  obtain ⟨upper, hupper, rfl⟩ := List.mem_map.mp hc
  rw [isHex, hexVal_toLower hupper]
  exact hexDigits_hexText width n upper hupper

theorem hexNat_hexLower (h : n < 16 ^ width) : hexNat (hexLower width n) = n := by
  rw [hexLower, hexNat, List.foldl_map]
  refine Eq.trans ?_ (hexNat_hexText h)
  apply List.foldl_ext
  intro k c hc
  rw [hexVal_toLower hc]

/-- Digits have no mark. -/
theorem markedHex_digits {s : Text} (h : HexDigits s) : markedHex s = ([], s) := by
  unfold markedHex
  split
  · exact absurd (h 'x' (by simp)) (by decide)
  · exact absurd (h 'X' (by simp)) (by decide)
  · rw [List.takeWhile_eq_self_iff.mpr h]

/-- Digits that fill the width are read as their number. -/
theorem scanHex_digits {s : Text} (h : HexDigits s) (hne : s ≠ []) (rest : Text) :
    scanHex s.length (s ++ rest) = some (.ofNat (hexNat s), rest) := by
  obtain ⟨c, t, rfl⟩ := List.exists_cons_of_ne_nil hne
  have hc := h c List.mem_cons_self
  have hspace : (c :: t ++ rest).dropWhile isspace = c :: t ++ rest :=
    List.dropWhile_cons_of_neg (by rw [isspace_of_isHex hc]; exact Bool.false_ne_true)
  have hsign : takeSign (c :: t ++ rest) = ([], c :: t ++ rest) :=
    takeSign_of_ne (ne_of_isHex hc rfl) (ne_of_isHex hc rfl) (t ++ rest)
  have hnumber : UInt32.ofInt (signed [] (hexNat (c :: t))) = .ofNat (hexNat (c :: t)) := by
    apply UInt32.toNat_inj.mp
    rw [UInt32.ofInt, UInt32.toNat_ofNat', UInt32.toNat_ofNat', signed, if_neg (by simp)]
    omega
  simp only [scanHex, hspace, hsign, List.length_nil, Nat.sub_zero, List.take_left,
    markedHex_digits h, if_neg hne, Nat.zero_add, List.drop_left, hnumber]

theorem scanHex_hexLower (hwidth : width ≠ 0) (h : n < 16 ^ width) (rest : Text) :
    scanHex width (hexLower width n ++ rest) = some (.ofNat n, rest) := by
  have hne : hexLower width n ≠ [] := by
    intro hnil
    have hlength := length_hexLower width n
    rw [hnil] at hlength
    exact hwidth hlength.symm
  have hscan := scanHex_digits (hexDigits_hexLower width n) hne rest
  rwa [length_hexLower, hexNat_hexLower h] at hscan

/-- The name of a message file is read as its node and number, whatever follows them. -/
theorem scanMsgName_msgStem (stray : UInt32 × UInt32) (type : UInt8) (node : UInt16)
    (msid : UInt32) (rest : Text) :
    scanMsgName stray (msgStem type node msid ++ rest) = (node.toUInt32, msid) := by
  have htype := @scanHex_hexLower _ 2 (by decide) type.toNat_lt
  have hnode := @scanHex_hexLower _ 4 (by decide) node.toNat_lt
  have hmsid := @scanHex_hexLower _ 8 (by decide) msid.toNat_lt
  have hvalue : UInt32.ofNat node.toNat = node.toUInt32 := by simp
  simp only [scanMsgName, msgStem, List.append_assoc, List.cons_append, htype, hnode, hmsid,
    Option.map_some, Option.getD_some, UInt32.ofNat_toNat, hvalue]

theorem isMsg_msgName (type : UInt8) (node : UInt16) (msid : UInt32) :
    isMsg (msgName type node msid) = true :=
  List.isSuffixOf_iff_suffix.mpr (List.suffix_append _ _)

/-! ## The directory and the archive -/

/-- An entry of the message list. -/
structure MessageRecord where
  nodeId : UInt16
  nodeMsid : UInt32
  hash : Hash := 0
deriving DecidableEq

def MessageRecord.encode (r : MessageRecord) : List UInt8 :=
  bytesLE 2 r.nodeId.toNat ++ (bytesLE 4 r.nodeMsid.toNat ++ bytesLE 32 r.hash.toNat)

/-- The message list: the number of messages, their hash, the records and what follows. -/
def msgList (hash : Hash) (records : List MessageRecord) (rest : List UInt8) : List UInt8 :=
  bytesLE 4 records.length ++ (bytesLE 32 hash.toNat ++
    ((records.map MessageRecord.encode).flatten ++ rest))

/-- The directory of a block: its regular files by name. The header has the size of
`ServersHeader` and the number of messages, and for every message of the list there is a
file. -/
structure BlockDirectory where
  files : Map Text (List UInt8)
  hash : Hash := 0
  records : List MessageRecord
  rest : List UInt8 := []
  header_length : (files.val headerName).length = 218
  messageCount : ofLE (slice (files.val headerName) 8 4) = records.length
  msglist : files[FixedFile.msglist.name]? = some (msgList hash records rest)
  held : ∀ r ∈ records, ∃ type, files.val (msgName type r.nodeId r.nodeMsid) ≠ []

namespace BlockDirectory

def header (d : BlockDirectory) : List UInt8 := d.files.val headerName

/-- The content of a fixed file; a missing file counts as empty. -/
def content (d : BlockDirectory) (file : FixedFile) : List UInt8 := d.files.val file.name

/-- The files `*.msg` in the order of their names, without empty files. -/
def msgFiles (d : BlockDirectory) : List (Text × List UInt8) :=
  d.files.toList.filter fun p => isMsg p.1 ∧ p.2 ≠ []

end BlockDirectory

/-- Jump positions of the fixed files of these sizes; 0 stands for no file. -/
def fixedJumps : Nat → List Nat → List Nat
  | _, [] => []
  | offset, size :: sizes =>
      (if 0 < size then offset else 0) :: fixedJumps (offset + size) sizes

/-- Jump positions of the messages. -/
def msgJumps : Nat → List Nat → List Nat
  | _, [] => []
  | offset, size :: sizes => offset :: msgJumps (offset + size) sizes

/-- `LibArchive::createArch`. Sizes and positions are 32-bit numbers. -/
def createArch (d : BlockDirectory) : List UInt8 :=
  let fixed := FixedFile.all.map d.content
  let sizes := fixed.map fun file => file.length % 2 ^ 32
  let msgs := d.msgFiles.map Prod.snd
  let offset := d.header.length + (fixed.length + msgs.length) * 4
  let jumps := fixedJumps offset sizes ++ msgJumps (offset + sizes.sum) (msgs.map List.length)
  d.header ++ ((jumps.map (bytesLE 4)).flatten ++
    ((fixed.filter fun file => 0 < file.length % 2 ^ 32).flatten ++ msgs.flatten))

/-- The number of `n` bytes at an offset of the archive. -/
def numberAt (arch : List UInt8) (offset n : Nat) : Nat := ofLE (slice arch offset n)

/-- The entry of the jump table. -/
def jumpAt (arch : List UInt8) (k : Nat) : Nat := numberAt arch (218 + 4 * k) 4

/-- Node and number of an entry of the message list at `list`. -/
def recordAt (arch : List UInt8) (list i : Nat) : Nat × Nat :=
  (numberAt arch (list + (36 + 38 * i)) 2, numberAt arch (list + (36 + 38 * i + 2)) 4)

/-- The first used position of the fixed files from number `k` on, or the end. -/
def nextJump (arch : List UInt8) (k : Nat) : Nat :=
  (((List.range' k (5 - k)).map (jumpAt arch)).find? (0 < ·)).getD (arch.length % 2 ^ 32)

/-- The size of the window from `offset` to `next`, a number of 64 bits. -/
def sizeTo (next offset : Nat) : Nat := (next + 2 ^ 64 - offset) % 2 ^ 64

/-- `LibArchive::getFileHandle`: offset and size of a file. The type in the name of a message
is not looked at. -/
def getFileHandle (stray : UInt32 × UInt32) (arch : List UInt8) (name : Text) :
    Option (Nat × Nat) :=
  let list := jumpAt arch 4
  if isMsg name then
    if list = 0 then none
    else
      let (node, msid) := scanMsgName stray name
      let count := numberAt arch list 4
      let records := (List.range count).map (recordAt arch list)
      (records.findIdx? fun r => r = (node.toNat, msid.toNat)).map fun i =>
        let offset := jumpAt arch (5 + i)
        let next := if i < count - 1 then jumpAt arch (5 + i + 1) else arch.length % 2 ^ 32
        (offset, sizeTo next offset)
  else if name = FixedFile.msglist.name then
    if list = 0 then none
    else if numberAt arch 8 4 = 0 then some (list, sizeTo arch.length list)
    else some (list, (jumpAt arch 5 + 2 ^ 32 - list) % 2 ^ 32)
  else if name = headerName then some (0, nextJump arch 0)
  else do
    let file ← FixedFile.all.find? (·.name = name)
    let offset := jumpAt arch file.index
    if offset = 0 then none
    else some (offset, sizeTo (nextJump arch (file.index + 1)) offset)

/-- A reader on the archive. -/
def openFromArch (stray : UInt32 × UInt32) (arch : List UInt8) (name : Text) : BlockFileReader :=
  match getFileHandle stray arch name with
  | none => {}
  | some (offset, size) => { fd := some arch, seek := offset, fileSize := size, position := offset }

/-- A reader on the directory. -/
def openFile (d : BlockDirectory) (name : Text) : BlockFileReader :=
  match d.files[name]? with
  | none => {}
  | some data => { fd := some data, fileSize := data.length }

theorem fixedJumps_getElem? (offset : Nat) (parts : List (List UInt8)) (k : Nat) :
    (fixedJumps offset (parts.map List.length))[k]? =
      parts[k]?.map fun p => if 0 < p.length then offset + startOf parts k else 0 := by
  induction parts generalizing offset k with
  | nil => rfl
  | cons p parts ih =>
      cases k with
      | zero => rfl
      | succ k =>
          rw [List.map_cons, fixedJumps, List.getElem?_cons_succ, List.getElem?_cons_succ, ih,
            startOf_cons]
          simp only [Nat.add_assoc]

theorem msgJumps_getElem? (offset : Nat) (parts : List (List UInt8)) (k : Nat) :
    (msgJumps offset (parts.map List.length))[k]? =
      parts[k]?.map fun _ => offset + startOf parts k := by
  induction parts generalizing offset k with
  | nil => rfl
  | cons p parts ih =>
      cases k with
      | zero => rfl
      | succ k =>
          rw [List.map_cons, msgJumps, List.getElem?_cons_succ, List.getElem?_cons_succ, ih,
            startOf_cons]
          simp only [Nat.add_assoc]

theorem flatten_filter_nonempty (parts : List (List UInt8)) :
    (parts.filter fun p => 0 < p.length).flatten = parts.flatten := by
  induction parts with
  | nil => rfl
  | cons p parts ih =>
      cases p with
      | nil => exact ih
      | cons b p =>
          rw [List.filter_cons_of_pos (by simp), List.flatten_cons, List.flatten_cons, ih]

theorem length_flatten_bytesLE (jumps : List Nat) :
    ((jumps.map (bytesLE 4)).flatten).length = 4 * jumps.length := by
  induction jumps with
  | nil => rfl
  | cons j jumps ih =>
      rw [List.map_cons, List.flatten_cons, List.length_append, ih, length_bytesLE,
        List.length_cons]
      omega

theorem startOf_bytesLE (jumps : List Nat) (h : k ≤ jumps.length) :
    startOf (jumps.map (bytesLE 4)) k = 4 * k := by
  unfold startOf
  rw [← List.map_take, length_flatten_bytesLE, List.length_take, Nat.min_eq_left h]

namespace BlockDirectory

variable (d : BlockDirectory)

/-- The files behind the table. -/
def parts : List (List UInt8) := FixedFile.all.map d.content ++ d.msgFiles.map Prod.snd

/-- Where they start. -/
def base : Nat := 218 + 4 * (5 + d.msgFiles.length)

/-- The jump table. -/
def jumps : List Nat :=
  fixedJumps d.base ((FixedFile.all.map d.content).map List.length) ++
    msgJumps (d.base + (FixedFile.all.map d.content).flatten.length)
      ((d.msgFiles.map Prod.snd).map List.length)

theorem length_fixedJumps (offset : Nat) (sizes : List Nat) :
    (fixedJumps offset sizes).length = sizes.length := by
  induction sizes generalizing offset with
  | nil => rfl
  | cons n sizes ih => rw [fixedJumps, List.length_cons, ih, List.length_cons]

theorem length_msgJumps (offset : Nat) (sizes : List Nat) :
    (msgJumps offset sizes).length = sizes.length := by
  induction sizes generalizing offset with
  | nil => rfl
  | cons n sizes ih => rw [msgJumps, List.length_cons, ih, List.length_cons]

theorem length_jumps : d.jumps.length = 5 + d.msgFiles.length := by
  unfold jumps
  rw [List.length_append, length_fixedJumps, length_msgJumps]
  simp [FixedFile.all]

theorem parts_fixed (file : FixedFile) : d.parts[file.index]? = some (d.content file) := by
  cases file <;> rfl

theorem parts_msg (i : Nat) : d.parts[5 + i]? = (d.msgFiles[i]?).map Prod.snd := by
  unfold parts
  rw [List.getElem?_append_right (by simp [FixedFile.all])]
  simp [FixedFile.all]

theorem length_header : d.header.length = 218 := d.header_length

/-- The size of header, table and files together. -/
def archSize : Nat := d.base + d.parts.flatten.length

variable {d}

/-- The layout of the archive. -/
theorem createArch_eq (hsmall : d.archSize < 2 ^ 31) :
    createArch d = d.header ++ ((d.jumps.map (bytesLE 4)).flatten ++ d.parts.flatten) := by
  have hsizes : ∀ file ∈ FixedFile.all.map d.content, file.length % 2 ^ 32 = file.length := by
    intro file hfile
    have hle : file.length ≤ d.parts.flatten.length :=
      (List.sublist_flatten_of_mem (List.mem_append_left _ hfile)).length_le
    have hbase : d.base + d.parts.flatten.length < 2 ^ 31 := hsmall
    exact Nat.mod_eq_of_lt (by omega)
  have hmap : (FixedFile.all.map d.content).map (fun file => file.length % 2 ^ 32) =
      (FixedFile.all.map d.content).map List.length := List.map_congr_left hsizes
  have hfilter : (FixedFile.all.map d.content).filter (fun file => 0 < file.length % 2 ^ 32) =
      (FixedFile.all.map d.content).filter (fun file => 0 < file.length) := by
    apply List.filter_congr
    intro file hfile
    rw [hsizes file hfile]
  have hoffset : d.header.length +
      ((FixedFile.all.map d.content).length + (d.msgFiles.map Prod.snd).length) * 4 = d.base := by
    simp only [d.length_header, base, List.length_map, FixedFile.all, List.length_cons,
      List.length_nil]
    omega
  unfold createArch
  simp only [hmap, hfilter, hoffset, flatten_filter_nonempty, parts, List.flatten_append, jumps,
    List.length_flatten]

theorem length_createArch (hsmall : d.archSize < 2 ^ 31) : (createArch d).length = d.archSize := by
  rw [createArch_eq hsmall, List.length_append, List.length_append, length_flatten_bytesLE,
    length_jumps, d.length_header]
  unfold archSize base
  omega

/-- An entry of the table, read back. -/
theorem jumpAt_createArch (hsmall : d.archSize < 2 ^ 31) {j : Nat} (h : d.jumps[k]? = some j)
    (hj : j < 2 ^ 32) : jumpAt (createArch d) k = j := by
  have hk : k < d.jumps.length := (List.getElem?_eq_some_iff.mp h).1
  have hseg : slice (d.jumps.map (bytesLE 4)).flatten (4 * k) 4 = bytesLE 4 j := by
    have hget : (d.jumps.map (bytesLE 4))[k]? = some (bytesLE 4 j) := by
      rw [List.getElem?_map, h]
      rfl
    have hfound := slice_flatten hget
    rwa [startOf_bytesLE _ hk.le, length_bytesLE] at hfound
  have hlength := length_flatten_bytesLE d.jumps
  rw [jumpAt, numberAt, createArch_eq hsmall, ← d.length_header, slice_append_right,
    slice_append_left (by omega), hseg, ofLE_bytesLE]
  exact Nat.mod_eq_of_lt hj

/-- A part of the archive, read back. -/
theorem slice_createArch (hsmall : d.archSize < 2 ^ 31) (h : d.parts[k]? = some p) :
    slice (createArch d) (d.base + startOf d.parts k) p.length = p := by
  have hbase : d.base = d.header.length + (d.jumps.map (bytesLE 4)).flatten.length := by
    rw [length_flatten_bytesLE, length_jumps, d.length_header]
    rfl
  rw [createArch_eq hsmall, hbase, Nat.add_assoc, slice_append_right, slice_append_right]
  exact slice_flatten h

theorem end_le (hsmall : d.archSize < 2 ^ 31) (h : d.parts[k]? = some p) :
    d.base + startOf d.parts k + p.length ≤ (createArch d).length := by
  rw [length_createArch hsmall, archSize, Nat.add_assoc, ← startOf_succ h]
  exact Nat.add_le_add_left (startOf_le _) _

theorem startOf_lt (hsmall : d.archSize < 2 ^ 31) (k : Nat) :
    d.base + startOf d.parts k < 2 ^ 31 :=
  lt_of_le_of_lt (Nat.add_le_add_left (startOf_le k) _) hsmall

/-- The jump to a fixed file. -/
theorem jumpAt_fixed (hsmall : d.archSize < 2 ^ 31) (file : FixedFile) :
    jumpAt (createArch d) file.index =
      if d.content file = [] then 0 else d.base + startOf d.parts file.index := by
  have hlt := startOf_lt hsmall file.index
  have hget : d.jumps[file.index]? = some
      (if d.content file = [] then 0 else d.base + startOf d.parts file.index) := by
    have hfixed : (FixedFile.all.map d.content)[file.index]? = some (d.content file) := by
      cases file <;> rfl
    unfold jumps
    rw [List.getElem?_append_left (by
      rw [length_fixedJumps]; cases file <;> simp [FixedFile.all, FixedFile.index]),
      fixedJumps_getElem?, hfixed, Option.map_some, parts, startOf_append_left (by
      cases file <;> simp [FixedFile.all, FixedFile.index])]
    simp only [List.length_pos_iff, ne_eq, ite_not]
  refine jumpAt_createArch hsmall hget ?_
  split <;> omega

/-- The jump to a message. -/
theorem jumpAt_msg (hsmall : d.archSize < 2 ^ 31) {i : Nat} (h : i < d.msgFiles.length) :
    jumpAt (createArch d) (5 + i) = d.base + startOf d.parts (5 + i) := by
  have hlt := startOf_lt hsmall (5 + i)
  refine jumpAt_createArch hsmall ?_ (by omega)
  have hlength :
      (fixedJumps d.base ((FixedFile.all.map d.content).map List.length)).length = 5 := by
    rw [length_fixedJumps]
    rfl
  have hstart : startOf d.parts (5 + i) =
      (FixedFile.all.map d.content).flatten.length + startOf (d.msgFiles.map Prod.snd) i := by
    have htake : List.take (5 + i) d.parts =
        FixedFile.all.map d.content ++ (d.msgFiles.map Prod.snd).take i := by
      exact @List.take_length_add_append _ (FixedFile.all.map d.content) (d.msgFiles.map Prod.snd) i
    unfold startOf
    rw [htake, List.flatten_append, List.length_append]
  unfold jumps
  rw [List.getElem?_append_right (by omega), hlength, Nat.add_sub_cancel_left, msgJumps_getElem?,
    List.getElem?_map, List.getElem?_eq_getElem h, hstart, Nat.add_assoc]
  rfl

theorem content_msglist (d : BlockDirectory) :
    d.content .msglist = msgList d.hash d.records d.rest := by
  exact Map.val_of_getElem? d.msglist

theorem length_msgList (hash : Hash) (records : List MessageRecord) (rest : List UInt8) :
    36 ≤ (msgList hash records rest).length := by
  simp only [msgList, List.length_append, length_bytesLE]
  omega

theorem content_msglist_ne_nil (d : BlockDirectory) : d.content .msglist ≠ [] := by
  have hlength := length_msgList d.hash d.records d.rest
  rw [content_msglist]
  intro hnil
  rw [hnil] at hlength
  cases hlength

theorem nextJump_of_pos {arch : List UInt8} (hk : k < 5) (h : 0 < jumpAt arch k) :
    nextJump arch k = jumpAt arch k := by
  unfold nextJump
  rw [show 5 - k = 4 - k + 1 by omega, List.range'_succ, List.map_cons,
    List.find?_cons_of_pos (by simpa using h)]
  rfl

theorem nextJump_of_zero {arch : List UInt8} (hk : k < 5) (h : jumpAt arch k = 0) :
    nextJump arch k = nextJump arch (k + 1) := by
  unfold nextJump
  rw [show 5 - k = 4 - k + 1 by omega, List.range'_succ, List.map_cons,
    List.find?_cons_of_neg (by simp [h]), show 5 - (k + 1) = 4 - k by omega]

/-- The next used position after a fixed file is the end of the file. -/
theorem nextJump_createArch (hsmall : d.archSize < 2 ^ 31) (file : FixedFile) :
    nextJump (createArch d) file.index = d.base + startOf d.parts file.index := by
  have hpos : 0 < d.base := by
    unfold base
    omega
  have hstep : ∀ file : FixedFile, (d.content file ≠ [] ∨
      nextJump (createArch d) (file.index + 1) = d.base + startOf d.parts (file.index + 1)) →
      nextJump (createArch d) file.index = d.base + startOf d.parts file.index := by
    intro file hnext
    have hlt : file.index < 5 := by cases file <;> decide
    have hjump := jumpAt_fixed hsmall file
    split at hjump
    · rename_i hempty
      rw [nextJump_of_zero hlt hjump, hnext.resolve_left (not_not.mpr hempty),
        startOf_succ (d.parts_fixed file), hempty, List.length_nil, Nat.add_zero]
    · rw [nextJump_of_pos hlt (by omega), hjump]
  have hlist := hstep .msglist (Or.inl d.content_msglist_ne_nil)
  have hlog := hstep .hlog (Or.inr hlist)
  have hno := hstep .signaturesNo (Or.inr hlog)
  have hok := hstep .signaturesOk (Or.inr hno)
  cases file with
  | servers => exact hstep .servers (Or.inr hok)
  | signaturesOk => exact hok
  | signaturesNo => exact hno
  | hlog => exact hlog
  | msglist => exact hlist

/-- A number inside a part of the archive. -/
theorem numberAt_createArch (hsmall : d.archSize < 2 ^ 31) (h : d.parts[k]? = some p) {a : Nat}
    (ha : a + n ≤ p.length) :
    numberAt (createArch d) (d.base + startOf d.parts k + a) n = ofLE (slice p a n) := by
  rw [numberAt, ← slice_slice _ ha, slice_createArch hsmall h]

theorem jumpAt_list (hsmall : d.archSize < 2 ^ 31) :
    jumpAt (createArch d) 4 = d.base + startOf d.parts 4 := by
  have hjump := jumpAt_fixed hsmall .msglist
  rwa [if_neg d.content_msglist_ne_nil] at hjump

theorem records_length_lt (d : BlockDirectory) : d.records.length < 2 ^ 32 := by
  have hlt := ofLE_lt (slice d.header 8 4)
  have hlength : (slice d.header 8 4).length = 4 := by
    simp [slice, d.length_header]
  rw [hlength] at hlt
  exact d.messageCount ▸ hlt

/-- The number of messages in the list of the archive. -/
theorem count_createArch (hsmall : d.archSize < 2 ^ 31) :
    numberAt (createArch d) (d.base + startOf d.parts 4) 4 = d.records.length := by
  have hpart := d.parts_fixed .msglist
  rw [content_msglist] at hpart
  have hlength := length_msgList d.hash d.records d.rest
  have hnumber := numberAt_createArch hsmall hpart (a := 0) (n := 4) (by omega)
  rw [Nat.add_zero] at hnumber
  refine hnumber.trans ?_
  rw [msgList, slice_append_left (by simp), slice, List.drop_zero,
    List.take_of_length_le (by simp), ofLE_bytesLE]
  exact Nat.mod_eq_of_lt d.records_length_lt

end BlockDirectory

@[simp] theorem MessageRecord.length_encode (r : MessageRecord) : r.encode.length = 38 := by
  simp [MessageRecord.encode]

/-- A record in the message list. -/
theorem slice_msgList {hash : Hash} {records : List MessageRecord} {rest : List UInt8} {i : Nat}
    {r : MessageRecord} (h : records[i]? = some r) :
    slice (msgList hash records rest) (36 + 38 * i) 38 = r.encode := by
  have hi : i < records.length := (List.getElem?_eq_some_iff.mp h).1
  have hlength : ∀ rs : List MessageRecord,
      (rs.map MessageRecord.encode).flatten.length = 38 * rs.length := by
    intro rs
    induction rs with
    | nil => rfl
    | cons r rs ih =>
        rw [List.map_cons, List.flatten_cons, List.length_append, ih, r.length_encode,
          List.length_cons]
        omega
  have hstart : startOf (records.map MessageRecord.encode) i = 38 * i := by
    unfold startOf
    rw [← List.map_take, hlength, List.length_take, Nat.min_eq_left hi.le]
  have hfound : slice (records.map MessageRecord.encode).flatten (38 * i) 38 = r.encode := by
    have hget : (records.map MessageRecord.encode)[i]? = some r.encode := by
      rw [List.getElem?_map, h]
      rfl
    have hslice := slice_flatten hget
    rwa [hstart, r.length_encode] at hslice
  have hcount := slice_append_right (bytesLE 4 records.length) (bytesLE 32 hash.toNat ++
    ((records.map MessageRecord.encode).flatten ++ rest)) (32 + 38 * i) 38
  have hhash := slice_append_right (bytesLE 32 hash.toNat)
    ((records.map MessageRecord.encode).flatten ++ rest) (38 * i) 38
  rw [length_bytesLE] at hcount hhash
  rw [msgList, show 36 + 38 * i = 4 + (32 + 38 * i) by omega, hcount, hhash,
    slice_append_left (by rw [hlength]; omega), hfound]

theorem MessageRecord.nodeId_encode (r : MessageRecord) :
    ofLE (slice r.encode 0 2) = r.nodeId.toNat := by
  rw [MessageRecord.encode, slice_append_left (by simp), slice, List.drop_zero,
    List.take_of_length_le (by simp), ofLE_bytesLE]
  exact Nat.mod_eq_of_lt r.nodeId.toNat_lt

theorem MessageRecord.nodeMsid_encode (r : MessageRecord) :
    ofLE (slice r.encode 2 4) = r.nodeMsid.toNat := by
  have hright := slice_append_right (bytesLE 2 r.nodeId.toNat)
    (bytesLE 4 r.nodeMsid.toNat ++ bytesLE 32 r.hash.toNat) 0 4
  rw [length_bytesLE] at hright
  rw [MessageRecord.encode, hright, slice_append_left (by simp), slice, List.drop_zero,
    List.take_of_length_le (by simp), ofLE_bytesLE]
  exact Nat.mod_eq_of_lt r.nodeMsid.toNat_lt

namespace BlockDirectory

variable {d : BlockDirectory}

/-- The records that `getFileHandle` reads. -/
theorem records_createArch (hsmall : d.archSize < 2 ^ 31) :
    (List.range d.records.length).map (recordAt (createArch d) (d.base + startOf d.parts 4)) =
      d.records.map fun r => (r.nodeId.toNat, r.nodeMsid.toNat) := by
  have hpart := d.parts_fixed .msglist
  rw [content_msglist] at hpart
  apply List.ext_getElem?
  intro i
  by_cases hi : i < d.records.length
  · have hget : d.records[i]? = some d.records[i] := List.getElem?_eq_getElem hi
    have hrecord := @slice_msgList d.hash d.records d.rest i _ hget
    have hfield : ∀ a n, a + n ≤ 38 →
        slice (msgList d.hash d.records d.rest) (36 + 38 * i + a) n =
          slice d.records[i].encode a n := by
      intro a n ha
      rw [← hrecord, slice_slice _ ha]
    have hlength : 36 + 38 * i + 38 ≤ (msgList d.hash d.records d.rest).length := by
      have hslice := congrArg List.length hrecord
      simp only [slice, List.length_take, List.length_drop, MessageRecord.length_encode] at hslice
      omega
    have hnode := numberAt_createArch hsmall hpart (a := 36 + 38 * i) (n := 2) (by omega)
    have hmsid := numberAt_createArch hsmall hpart (a := 36 + 38 * i + 2) (n := 4) (by omega)
    rw [← Nat.add_zero (36 + 38 * i), hfield 0 2 (by omega), MessageRecord.nodeId_encode,
      Nat.add_zero] at hnode
    rw [hfield 2 4 (by omega), MessageRecord.nodeMsid_encode] at hmsid
    rw [List.getElem?_map, List.getElem?_range hi, List.getElem?_map, hget, Option.map_some,
      Option.map_some]
    exact congrArg some (Prod.ext hnode hmsid)
  · rw [List.getElem?_eq_none (by simpa using hi), List.getElem?_eq_none (by simpa using hi)]

/-- The place of a message in the list of the block. -/
def recordIndex (d : BlockDirectory) (node msid : UInt32) : Option Nat :=
  d.records.findIdx? fun r => r.nodeId.toNat = node.toNat ∧ r.nodeMsid = msid

/-- A message with this name is found: its place in the list is its place among the message
files and it is the last in both or in none, or it is neither in the list nor in the
directory. -/
def MsgPlaced (d : BlockDirectory) (name : Text) : Option Nat → Prop
  | some i => (d.msgFiles[i]?).map Prod.fst = some name ∧
      (i + 1 = d.records.length ↔ i + 1 = d.msgFiles.length)
  | none => d.files.val name = []

/-- The files that the archive gives back. The table has no entry for the header and none for
files that are neither fixed nor messages. -/
def Placed (d : BlockDirectory) (stray : UInt32 × UInt32) (name : Text) : Prop :=
  if isMsg name then
    d.MsgPlaced name (d.recordIndex (scanMsgName stray name).1 (scanMsgName stray name).2)
  else if name = FixedFile.msglist.name then d.records = [] → d.msgFiles = []
  else name ≠ headerName ∧ (name ∈ FixedFile.all.map FixedFile.name ∨ d.files.val name = [])

/-- A message file is looked up under the message that it is named after. -/
theorem placed_msgName (d : BlockDirectory) (stray : UInt32 × UInt32) (type : UInt8)
    (node : UInt16) (msid : UInt32) :
    d.Placed stray (msgName type node msid) ↔
      d.MsgPlaced (msgName type node msid) (d.recordIndex node.toUInt32 msid) := by
  have hscan := scanMsgName_msgStem stray type node msid ".msg".toList
  rw [← msgName] at hscan
  rw [Placed, if_pos (isMsg_msgName type node msid), hscan]

/-- The window of a file in the archive is the file, or there is neither. -/
def Found (d : BlockDirectory) (stray : UInt32 × UInt32) (name : Text) : Prop :=
  (∃ k p, d.parts[k]? = some p ∧ p ≠ [] ∧ d.files[name]? = some p ∧
    getFileHandle stray (createArch d) name = some (d.base + startOf d.parts k, p.length)) ∨
  d.files.val name = [] ∧ getFileHandle stray (createArch d) name = none

variable (stray : UInt32 × UInt32)

theorem file_of_val_ne_nil {name : Text} (h : d.files.val name ≠ []) :
    d.files[name]? = some (d.files.val name) := by
  unfold Map.val at h ⊢
  cases hfile : d.files[name]? with
  | some data => rfl
  | none =>
      rw [hfile] at h
      exact absurd rfl h

theorem getFileHandle_fixed (arch : List UInt8) {file : FixedFile} (hfile : file ≠ .msglist) :
    getFileHandle stray arch file.name =
      if jumpAt arch file.index = 0 then none
      else some (jumpAt arch file.index,
        sizeTo (nextJump arch (file.index + 1)) (jumpAt arch file.index)) := by
  have hmsg : ¬ isMsg file.name = true := by cases file <;> decide
  have hlist : file.name ≠ FixedFile.msglist.name := by
    cases file <;> first | decide | simp at hfile
  have hheader : file.name ≠ headerName := by cases file <;> decide
  have hfind : FixedFile.all.find? (fun f => decide (f.name = file.name)) = some file := by
    cases file <;> decide
  unfold getFileHandle
  dsimp only
  rw [if_neg hmsg, if_neg hlist, if_neg hheader, hfind]
  rfl

theorem found_fixed (hsmall : d.archSize < 2 ^ 31) {file next : FixedFile}
    (hfile : file ≠ .msglist) (hnext : next.index = file.index + 1) :
    d.Found stray file.name := by
  have hjump := jumpAt_fixed hsmall file
  have hhandle := getFileHandle_fixed stray (createArch d) hfile
  by_cases hempty : d.content file = []
  · rw [if_pos hempty] at hjump
    rw [if_pos hjump] at hhandle
    exact Or.inr ⟨hempty, hhandle⟩
  · rw [if_neg hempty] at hjump
    have hpart := d.parts_fixed file
    have hpos : 0 < d.base := by
      unfold base
      omega
    have hend := end_le hsmall hpart
    rw [length_createArch hsmall] at hend
    refine Or.inl ⟨file.index, d.content file, hpart, hempty, file_of_val_ne_nil hempty, ?_⟩
    rw [hhandle, if_neg (by omega), ← hnext, nextJump_createArch hsmall, hnext, hjump,
      startOf_succ hpart, sizeTo]
    congr 2
    omega

/-- A listed message has a file. -/
theorem msgFiles_ne_nil (h : d.records ≠ []) : d.msgFiles ≠ [] := by
  obtain ⟨r, hr⟩ := List.exists_mem_of_ne_nil _ h
  obtain ⟨type, hfile⟩ := d.held r hr
  have hmem : (msgName type r.nodeId r.nodeMsid, d.files.val (msgName type r.nodeId r.nodeMsid)) ∈
      d.files.toList := Map.mem_toList.mpr (file_of_val_ne_nil hfile)
  have hkept : decide (isMsg (msgName type r.nodeId r.nodeMsid) = true ∧
      d.files.val (msgName type r.nodeId r.nodeMsid) ≠ []) = true := by
    simpa [isMsg_msgName] using hfile
  exact List.ne_nil_of_mem (List.mem_filter.mpr ⟨hmem, hkept⟩)

theorem found_msglist (hsmall : d.archSize < 2 ^ 31) (h : d.records = [] → d.msgFiles = []) :
    d.Found stray FixedFile.msglist.name := by
  have hpart := d.parts_fixed .msglist
  have hend := end_le hsmall hpart
  have hlist := jumpAt_list hsmall
  have hpos : 0 < d.base := by
    unfold base
    omega
  have hnext : startOf d.parts 5 = startOf d.parts 4 + (d.content .msglist).length :=
    startOf_succ hpart
  have hcount : numberAt (createArch d) 8 4 = d.records.length := by
    rw [numberAt, createArch_eq hsmall, slice_append_left (by rw [d.length_header]; omega)]
    exact d.messageCount
  have hmsg : ¬ isMsg FixedFile.msglist.name = true := by decide
  refine Or.inl ⟨4, d.content .msglist, hpart, d.content_msglist_ne_nil,
    file_of_val_ne_nil d.content_msglist_ne_nil, ?_⟩
  have hlength := length_createArch hsmall
  change d.base + startOf d.parts 4 + _ ≤ _ at hend
  unfold getFileHandle
  dsimp only
  rw [if_neg hmsg, if_pos rfl, hlist, hcount, if_neg (by omega)]
  split
  · rename_i hzero
    have hparts : startOf d.parts 5 = d.parts.flatten.length := by
      apply startOf_of_length_le
      simp [parts, FixedFile.all, h (List.eq_nil_of_length_eq_zero hzero)]
    have harch : d.archSize = d.base + d.parts.flatten.length := rfl
    rw [sizeTo]
    congr 2
    omega
  · rename_i hne
    have hmsgs : 0 < d.msgFiles.length := List.length_pos_iff.mpr
      (msgFiles_ne_nil fun hnil => hne (by rw [hnil, List.length_nil]))
    have hfirst : jumpAt (createArch d) 5 = d.base + startOf d.parts 5 := jumpAt_msg hsmall hmsgs
    rw [hfirst]
    congr 2
    omega

/-- Where `getFileHandle` looks for a message. -/
theorem getFileHandle_msg (hsmall : d.archSize < 2 ^ 31) {name : Text} (hmsg : isMsg name = true) :
    getFileHandle stray (createArch d) name =
      (d.recordIndex (scanMsgName stray name).1 (scanMsgName stray name).2).map fun i =>
        let offset := jumpAt (createArch d) (5 + i)
        let next := if i < d.records.length - 1 then jumpAt (createArch d) (5 + i + 1)
          else (createArch d).length % 2 ^ 32
        (offset, sizeTo next offset) := by
  have hpos : 0 < d.base := by
    unfold base
    omega
  have hfind : ∀ node msid : UInt32,
      (d.records.map fun r => (r.nodeId.toNat, r.nodeMsid.toNat)).findIdx?
        (fun r => r = (node.toNat, msid.toNat)) = d.recordIndex node msid := by
    intro node msid
    rw [List.findIdx?_map, recordIndex]
    congr 1
    funext r
    simp only [Function.comp_apply, Prod.mk.injEq, UInt32.toNat_inj]
  simp only [getFileHandle, jumpAt_list hsmall, count_createArch hsmall, records_createArch hsmall]
  rw [if_pos hmsg, if_neg (by omega), hfind]

theorem found_msg (hsmall : d.archSize < 2 ^ 31) {name : Text} (hmsg : isMsg name = true)
    (h : d.MsgPlaced name (d.recordIndex (scanMsgName stray name).1 (scanMsgName stray name).2)) :
    d.Found stray name := by
  have hhandle := getFileHandle_msg stray hsmall hmsg
  cases hindex : d.recordIndex (scanMsgName stray name).1 (scanMsgName stray name).2 with
  | some i =>
    rw [hindex] at h hhandle
    obtain ⟨hname, hlast⟩ := h
    obtain ⟨⟨name', data⟩, hfile, rfl⟩ := Option.map_eq_some_iff.mp hname
    obtain ⟨hi, hget⟩ := List.getElem?_eq_some_iff.mp hfile
    obtain ⟨hmem, hdata⟩ := List.mem_filter.mp (List.mem_of_getElem hget)
    have hcount : i < d.records.length := (List.findIdx?_eq_some_iff_getElem.mp hindex).1
    have hpart : d.parts[5 + i]? = some data := by
      rw [parts_msg, hfile]
      rfl
    have hend := end_le hsmall hpart
    have hsucc := startOf_succ hpart
    have hlength := length_createArch hsmall
    have harch : d.archSize = d.base + d.parts.flatten.length := rfl
    have hne : data ≠ [] := (of_decide_eq_true hdata).2
    refine Or.inl ⟨5 + i, data, hpart, hne, Map.mem_toList.mp hmem, ?_⟩
    rw [Option.map_some] at hhandle
    rw [hhandle, jumpAt_msg hsmall hi]
    dsimp only
    rw [sizeTo]
    split
    · rw [Nat.add_assoc 5, jumpAt_msg hsmall (by omega), ← Nat.add_assoc 5, hsucc]
      congr 2
      omega
    · have hall : startOf d.parts (5 + i + 1) = d.parts.flatten.length := by
        apply startOf_of_length_le
        simp only [parts, List.length_append, List.length_map, FixedFile.all, List.length_cons,
          List.length_nil]
        omega
      rw [@Nat.mod_eq_of_lt (createArch d).length (2 ^ 32) (by omega)]
      congr 2
      omega
  | none =>
    rw [hindex] at h hhandle
    exact Or.inr ⟨h, hhandle⟩

/-- A name that the archive does not know. -/
theorem getFileHandle_other (arch : List UInt8) {name : Text} (hmsg : ¬ isMsg name = true)
    (hheader : name ≠ headerName) (hfixed : name ∉ FixedFile.all.map FixedFile.name) :
    getFileHandle stray arch name = none := by
  have hnot : ∀ f ∈ FixedFile.all, f.name ≠ name := fun f hf hname =>
    hfixed (List.mem_map.mpr ⟨f, hf, hname⟩)
  have hfind : FixedFile.all.find? (fun f => decide (f.name = name)) = none := by
    rw [List.find?_eq_none]
    simpa using hnot
  have hlist : name ≠ FixedFile.msglist.name := (hnot .msglist (by decide)).symm
  unfold getFileHandle
  dsimp only
  rw [if_neg hmsg, if_neg hlist, if_neg hheader, hfind]
  rfl

variable {stray}

theorem Placed.found (hsmall : d.archSize < 2 ^ 31) {name : Text} (h : d.Placed stray name) :
    d.Found stray name := by
  unfold Placed at h
  split at h
  · rename_i hmsg
    exact found_msg stray hsmall hmsg h
  rename_i hmsg
  split at h
  · rename_i hlist
    rw [hlist]
    exact found_msglist stray hsmall h
  rename_i hlist
  obtain ⟨hheader, h⟩ := h
  by_cases hfixed : name ∈ FixedFile.all.map FixedFile.name
  · obtain ⟨file, -, rfl⟩ := List.mem_map.mp hfixed
    have hfile : file ≠ .msglist := fun heq => hlist (by rw [heq])
    cases file with
    | servers => exact @found_fixed d stray hsmall _ .signaturesOk hfile rfl
    | signaturesOk => exact @found_fixed d stray hsmall _ .signaturesNo hfile rfl
    | signaturesNo => exact @found_fixed d stray hsmall _ .hlog hfile rfl
    | hlog => exact @found_fixed d stray hsmall _ .msglist hfile rfl
    | msglist => exact absurd rfl hfile
  · exact Or.inr ⟨h.resolve_left hfixed, getFileHandle_other stray _ hmsg hheader hfixed⟩

end BlockDirectory

namespace Sample

/-- A header that counts `n` messages. -/
def blockHeader (n : UInt8) : List UInt8 := List.replicate 8 0 ++ n :: List.replicate 209 0

/-- The list of two messages of node 1. -/
def blockRecords : List MessageRecord := [⟨1, 1, 0⟩, ⟨1, 2, 0⟩]

/-- The name of a bad message of node 1 has its hash. -/
def badName : Text := msgStem 3 1 1 ++ '_' :: hexText 64 7 ++ ".msg".toList

/-- The files of a block with two messages. -/
def blockFiles : Map Text (List UInt8) :=
  (∅ : Map Text (List UInt8)).insert headerName (blockHeader 2)
    |>.insert FixedFile.servers.name [7, 8]
    |>.insert FixedFile.msglist.name (msgList 0 blockRecords [])
    |>.insert (msgName 3 1 1) [1, 1] |>.insert (msgName 3 1 2) [2, 3, 4]

/-- The files of a block with one message, a bad message and a broadcast log. -/
def crowdedFiles : Map Text (List UInt8) :=
  (∅ : Map Text (List UInt8)).insert headerName (blockHeader 1)
    |>.insert FixedFile.servers.name [7, 8]
    |>.insert FixedFile.msglist.name (msgList 0 [⟨1, 2, 0⟩] [])
    |>.insert badName [1, 1] |>.insert (msgName 3 1 2) [2, 3, 4]
    |>.insert "bro.log".toList [9]

def blockDirectory : BlockDirectory where
  files := blockFiles
  records := blockRecords
  header_length := by decide +kernel
  messageCount := by decide +kernel
  msglist := by decide +kernel
  held := by
    intro r hr
    refine ⟨3, ?_⟩
    simp only [blockRecords, List.mem_cons, List.not_mem_nil, or_false] at hr
    obtain rfl | rfl := hr <;> decide +kernel

def crowdedDirectory : BlockDirectory where
  files := crowdedFiles
  records := [⟨1, 2, 0⟩]
  header_length := by decide +kernel
  messageCount := by decide +kernel
  msglist := by decide +kernel
  held := by
    intro r hr
    refine ⟨3, ?_⟩
    obtain rfl := List.mem_singleton.mp hr
    decide +kernel

end Sample

end Esc
