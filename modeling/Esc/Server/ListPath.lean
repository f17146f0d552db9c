import Esc.Message.StoredTree
import Esc.Server.MessageList
import Esc.Server.ServersFile

/-!
# The path of a message in a block

`msgl_hash_tree_get` continues the path of a transaction from the hash of its message to the hash
of the list of messages, and from there to the hash of the block. It reads the file that
`msgl_put` has written, in which the inner hashes of the tree stand behind the messages.

As in the file of a message, the places of an even number of messages are read right while they
are less than 1024.
-/

namespace Esc

open Lib Merkle

variable {i n : Nat} {ms : List ListedMsg} {block srv : SrvHeader} {dataRead : Option SrvHeader}

/-! ## The reader -/

namespace SrvHeader

/-- `servers::hashnow`. -/
def hashnow (c : Crypto) (h : SrvHeader) : SrvHeader :=
  let nowhash := c.sha256 (bytesLE 4 h.now.toNat ++ bytesLE 4 h.msg.toNat ++
    bytesLE 4 h.nod.toNat ++ bytesLE 4 h.div.toNat)
  let minhash := addhash c (addhash c (addhash c nowhash h.nodhash) h.viphash) h.oldhash
  { h with minhash, nowhash := addhash c minhash h.msghash }

/-- `servers::header_get`, with the fields that `data_read` has found. -/
def headerGet (h : SrvHeader) (dataRead : Option SrvHeader) : Except Stop SrvHeader :=
  match dataRead with
  | none => .error .fail
  | some read => if h.now ≠ 0 ∧ h.now ≠ read.now then .error .fail else .ok read

/-- The header is read unless the object has a number of messages. -/
def load (h : SrvHeader) (dataRead : Option SrvHeader) : Except Stop SrvHeader :=
  if h.msg = 0 then h.headerGet dataRead else .ok h

end SrvHeader

/-- The record of a message and the hash of its neighbour. The own hash is not read. -/
def listEntry (memory : Bytes) (svid : UInt16) (msid msg mnum : UInt32) (fd : BlockFileReader) :
    Except Stop (List Hash × BlockFileReader) :=
  if mnum % 2 ≠ 0 then do
    let (tmp, fd) ← fd.fetch memory (4 + 32 + (2 + 4 + 32) * mnum - 32) (32 + 2 + 4)
    require ((tmp.skip 32).uint16 = svid ∧ (tmp.skip (32 + 2)).uint32 = msid) .fail
    return ([readHash tmp], fd)
  else do
    let (tmp, fd) ← fd.fetch memory (4 + 32 + (2 + 4 + 32) * mnum) (2 + 4 + 32 + 2 + 4 + 32)
    require (tmp.uint16 = svid ∧ (tmp.skip 2).uint32 = msid) .fail
    return (if mnum < msg - 1 then [readHash (tmp.skip (2 + 4 + 32 + 2 + 4))] else [], fd)

/-- `servers::msgl_hash_tree_get` with the hashes so far. -/
def msglHashTreeGet (c : Crypto) (memory : Bytes) (srv : SrvHeader) (dataRead : Option SrvHeader)
    (fd : BlockFileReader) (svid : UInt16) (msid mnum : UInt32) (hashes : List Hash) :
    Except Stop (List Hash) := do
  require (mnum ≠ 0) .fail
  let srv ← srv.load dataRead
  require fd.isOpen .fail
  let mnum := mnum - 1
  let (entry, fd) ← listEntry memory svid msid srv.msg mnum fd
  let (htot, fd) ← fd.fetch memory (4 + 32 + (2 + 4 + 32) * srv.msg) 4
  let path ← readStored memory (4 + 32 + (2 + 4 + 32) * srv.msg + 4)
    (4 + 32 + (2 + 4 + 32) * srv.msg - 32) (missingHash srv.msg) (fun n => n < htot.uint32)
    (HashTree.hashpath (mnum / 2) ((srv.msg + 1) / 2)) fd
  let hashes := hashes ++ entry ++ path
  let nhash := HashTree.hashpathrun c (readHash memory) hashes
  require (srv.msghash = nhash) .fail
  require (srv.nowhash = addhash c nhash srv.minhash) .fail
  return hashes ++ [srv.minhash]

/-! ## The file of a list -/

section Tree

variable (c : Crypto)

theorem listTree_eq (ms : List ListedMsg) :
    listTree c ms = (ms.map ListedMsg.sigh).foldl (HashTree.update c) .empty := by
  rw [listTree, List.foldl_map]

theorem foldl_joins (ms : List ListedMsg) (tree : HashTree) (hashes : List Hash) :
    (ms.foldl (fun (t : HashTree × List Hash) m =>
      (t.1.update c m.sigh, t.2 ++ t.1.joins c m.sigh)) (tree, hashes)).2 =
      hashes ++ tree.log c (ms.map ListedMsg.sigh) := by
  induction ms generalizing tree hashes with
  | nil => simp [HashTree.log]
  | cons m ms ih =>
    rw [List.foldl_cons, ih, List.append_assoc]
    rfl

theorem listHashes_eq (ms : List ListedMsg) :
    listHashes c ms = treeHashes c (ms.map ListedMsg.sigh) := by
  rw [listHashes, foldl_joins, listTree_eq, List.nil_append]
  rfl

theorem listHash_eq (ms : List ListedMsg) : listHash c ms = treeRoot c (ms.map ListedMsg.sigh) := by
  rw [listHash, listTree_eq]
  rfl

end Tree

/-- What is where in the file of a list. -/
structure ListFile (file : List UInt8) (rest : Bytes) (ms : List ListedMsg) (stored : List Hash) :
    Prop where
  size : 40 + 38 * ms.length + 32 * stored.length ≤ file.length
  svid : ∀ i (h : i < ms.length),
    ((Bytes.ofList file rest).skip (36 + 38 * i)).uint16 = ms[i].svid
  msid : ∀ i (h : i < ms.length),
    ((Bytes.ofList file rest).skip (36 + 38 * i + 2)).uint32 = ms[i].msid
  sigh : ∀ i (h : i < ms.length),
    readHash ((Bytes.ofList file rest).skip (36 + 38 * i + 6)) = ms[i].sigh
  htot : ((Bytes.ofList file rest).skip (36 + 38 * ms.length)).uint32 = .ofNat stored.length
  hashes : ∀ i (h : i < stored.length),
    readHash ((Bytes.ofList file rest).skip (40 + 38 * ms.length + 32 * i)) = stored[i]

section Layout

variable (root : Hash) (ms : List ListedMsg) (stored : List Hash)
  (tail : List UInt8) (rest : Bytes)

/-- The file of a list, part by part. -/
def listFileBytes : List UInt8 :=
  bytesLE 4 ms.length ++ (hashBytes root ++ ((ms.map ListedMsg.encode).flatten ++
    (bytesLE 4 stored.length ++ ((stored.map hashBytes).flatten ++ tail))))

theorem length_listFileBytes :
    (listFileBytes root ms stored tail).length =
      40 + 38 * ms.length + 32 * stored.length + tail.length := by
  have hms : (ms.map ListedMsg.encode).flatten.length = 38 * ms.length := by
    rw [length_flatten_of_forall (n := 38) (by simp [ListedMsg.encode]), List.length_map]
  have hstored : (stored.map hashBytes).flatten.length = 32 * stored.length := by
    rw [length_flatten_of_forall (n := 32) (by simp), List.length_map]
  simp only [listFileBytes, List.length_append, length_bytesLE, length_hashBytes, hms, hstored]
  omega

theorem skip_listFileBytes (hi : i ≤ ms.length) :
    (Bytes.ofList (listFileBytes root ms stored tail) rest).skip (36 + 38 * i) =
      Bytes.ofList (((ms.map ListedMsg.encode).drop i).flatten ++
        (bytesLE 4 stored.length ++ ((stored.map hashBytes).flatten ++ tail))) rest := by
  rw [listFileBytes, ← Bytes.skip_skip, show 36 = 4 + 32 from rfl, ← Bytes.skip_skip,
    Bytes.skip_ofList_append (length_bytesLE 4 _), Bytes.skip_ofList_append (length_hashBytes root),
    Bytes.skip_ofList_flatten (by simp [ListedMsg.encode]) (by simpa using hi)]

theorem uint16_ofList_bytesLE (v : UInt16) (l : List UInt8) :
    (Bytes.ofList (bytesLE 2 v.toNat ++ l) rest).uint16 = v := by
  rw [Bytes.uint16, Bytes.take_ofList_append (length_bytesLE 2 _), ofLE_bytesLE, ofNat_toNat_mod16]

theorem skip_listFileBytes_record (hi : i < ms.length) :
    ∃ l, (Bytes.ofList (listFileBytes root ms stored tail) rest).skip (36 + 38 * i) =
      Bytes.ofList (bytesLE 2 ms[i].svid.toNat ++ (bytesLE 4 ms[i].msid.toNat ++
        (hashBytes ms[i].sigh ++ l))) rest := by
  refine ⟨((ms.map ListedMsg.encode).drop (i + 1)).flatten ++
    (bytesLE 4 stored.length ++ ((stored.map hashBytes).flatten ++ tail)), ?_⟩
  rw [skip_listFileBytes root ms stored tail rest hi.le,
    ← List.getElem_cons_drop (by simpa using hi), List.flatten_cons, List.getElem_map,
    ListedMsg.encode]
  simp only [List.append_assoc]

theorem listFile_listFileBytes : ListFile (listFileBytes root ms stored tail) rest ms stored where
  size := by
    rw [length_listFileBytes]
    omega
  svid i hi := by
    obtain ⟨l, hl⟩ := skip_listFileBytes_record root ms stored tail rest hi
    rw [hl, uint16_ofList_bytesLE]
  msid i hi := by
    obtain ⟨l, hl⟩ := skip_listFileBytes_record root ms stored tail rest hi
    rw [← Bytes.skip_skip, hl, Bytes.skip_ofList_append (length_bytesLE 2 _),
      uint32_ofList_bytesLE, UInt32.ofNat_toNat]
  sigh i hi := by
    obtain ⟨l, hl⟩ := skip_listFileBytes_record root ms stored tail rest hi
    rw [show 36 + 38 * i + 6 = 36 + 38 * i + (2 + 4) from rfl, ← Bytes.skip_skip, hl,
      ← Bytes.skip_skip, Bytes.skip_ofList_append (length_bytesLE 2 _),
      Bytes.skip_ofList_append (length_bytesLE 4 _), readHash_ofList]
  htot := by
    rw [skip_listFileBytes root ms stored tail rest le_rfl, List.drop_eq_nil_of_le (by simp),
      List.flatten_nil, List.nil_append, uint32_ofList_bytesLE]
  hashes i hi := by
    rw [show 40 + 38 * ms.length + 32 * i = 36 + 38 * ms.length + (4 + 32 * i) by omega,
      ← Bytes.skip_skip, skip_listFileBytes root ms stored tail rest le_rfl,
      List.drop_eq_nil_of_le (by simp), List.flatten_nil, List.nil_append, ← Bytes.skip_skip,
      Bytes.skip_ofList_append (length_bytesLE 4 _),
      Bytes.skip_ofList_flatten (by simp) (by simpa using hi.le),
      ← List.getElem_cons_drop (by simpa using hi), List.flatten_cons, List.getElem_map,
      List.append_assoc, readHash_ofList]

end Layout

/-- The file that `msgl_put` leaves. -/
theorem overwrite_msglistBytes (c : Crypto) (hpos : 0 < ms.length) (hlt : ms.length < 2 ^ 31)
    (old : List UInt8) :
    ∃ tail, tail.length ≤ old.length ∧
      overwrite (msglistBytes c ms) old = listFileBytes (listHash c ms) ms
      (treeHashes c (ms.map ListedMsg.sigh)).dropLast tail := by
  have hlength : (ms.map ListedMsg.sigh).length = ms.length := List.length_map _
  have hhashes := length_treeHashes c (show 0 < (ms.map ListedMsg.sigh).length by omega) (by omega)
  refine ⟨old.drop (msglistBytes c ms).length, by rw [List.length_drop]; exact Nat.sub_le _ _, ?_⟩
  rw [overwrite, listFileBytes, List.length_dropLast, List.dropLast_eq_take]
  simp only [msglistBytes, hashesBytes, listHashes_eq, Codec.encodeAll, List.append_assoc,
    List.flatMap_def]
  rw [Nat.mod_eq_of_lt (by omega)]
  rfl

/-! ## Reading a record and a path -/

section Read

variable {file : List UInt8} {rest : Bytes} {stored : List Hash}

theorem FilledAt.uint16 {p size off : Nat} {b : Bytes} (h : FilledAt file rest p size b)
    (hoff : off + 2 ≤ size) (hfile : p + off + 2 ≤ file.length) :
    (b.skip off).uint16 = ((Bytes.ofList file rest).skip (p + off)).uint16 := by
  apply Bytes.uint16_congr
  apply Bytes.take_congr
  intro k hk
  rw [Bytes.skip_apply, Bytes.skip_apply, Nat.add_assoc]
  exact h _ (by omega) (by omega)

/-- The hash of the neighbour, if there is one. -/
def neighbourHash (leaves : List Hash) (i : Nat) : List Hash :=
  if sibling i < leaves.length then [leaves.getD (sibling i) 0] else []

theorem ListFile.sigh_getD (h : ListFile file rest ms stored) (hi : i < ms.length) :
    readHash ((Bytes.ofList file rest).skip (36 + 38 * i + 6)) =
      (ms.map ListedMsg.sigh).getD i 0 := by
  rw [h.sigh i hi, List.getD_eq_getElem?_getD, List.getElem?_map, List.getElem?_eq_getElem hi]
  rfl

theorem ofNat_record (i : Nat) :
    (4 + 32 + (2 + 4 + 32) * UInt32.ofNat i : UInt32) = .ofNat (36 + 38 * i) := by
  rw [UInt32.ofNat_add, UInt32.ofNat_mul]
  rfl

theorem listEntry_odd (h : ListFile file rest ms stored) (hfile : file.length < 2 ^ 31)
    (hi : i < ms.length) (hodd : i % 2 = 1) (memory : Bytes) (q : Nat) :
    ∃ q', listEntry memory ms[i].svid ms[i].msid (.ofNat ms.length) (.ofNat i) (.atPos file q) =
      .ok (neighbourHash (ms.map ListedMsg.sigh) i, .atPos file q') := by
  have hsize := h.size
  have hpos : (4 + 32 + (2 + 4 + 32) * UInt32.ofNat i - 32 : UInt32) =
      .ofNat (36 + 38 * i - 32) := by
    rw [ofNat_record, UInt32.ofNat_sub (by omega)]
    rfl
  obtain ⟨b, q', hfetch, hb⟩ := BlockFileReader.exists_fetch memory rest q hfile
    (show 36 + 38 * i - 32 ≤ file.length by omega) (show 38 < 2 ^ 31 by decide)
  replace hb : FilledAt file rest _ _ b := hb
  have hsvid : (b.skip 32).uint16 = ms[i].svid := by
    rw [hb.uint16 (by decide) (by omega), ← h.svid i hi]
    congr 2
    omega
  have hmsid : (b.skip (32 + 2)).uint32 = ms[i].msid := by
    rw [hb.uint32 (by decide) (by omega), ← h.msid i hi]
    congr 2
    omega
  have hsibling : sibling i = i - 1 := if_neg (by omega)
  have hbefore : readHash b = (ms.map ListedMsg.sigh).getD (i - 1) 0 := by
    rw [← h.sigh_getD (show i - 1 < _ by omega)]
    apply readHash_congr
    intro k hk
    rw [hb k (by omega) (by omega), Bytes.skip_apply]
    congr 1
    omega
  refine ⟨q', ?_⟩
  rw [listEntry, if_pos ((ofNat_mod_two_ne (by omega)).mpr hodd), hpos, neighbourHash, hsibling,
    if_pos (by rw [List.length_map]; omega)]
  simp only [show (32 + 2 + 4 : UInt32) = .ofNat 38 from rfl, hfetch, bind, Except.bind, hsvid,
    hmsid, hbefore, require, and_self, if_true]
  rfl

theorem listEntry_even (h : ListFile file rest ms stored) (hfile : file.length < 2 ^ 31)
    (hi : i < ms.length) (heven : i % 2 = 0) (memory : Bytes) (q : Nat) :
    ∃ q', listEntry memory ms[i].svid ms[i].msid (.ofNat ms.length) (.ofNat i) (.atPos file q) =
      .ok (neighbourHash (ms.map ListedMsg.sigh) i, .atPos file q') := by
  have hsize := h.size
  obtain ⟨b, q', hfetch, hb⟩ := BlockFileReader.exists_fetch memory rest q hfile
    (show 36 + 38 * i ≤ file.length by omega) (show 76 < 2 ^ 31 by decide)
  replace hb : FilledAt file rest _ _ b := hb
  have hsvid : b.uint16 = ms[i].svid := by
    rw [← h.svid i hi]
    apply Bytes.uint16_congr
    apply Bytes.take_congr
    intro k hk
    exact hb k (by omega) (by omega)
  have hmsid : (b.skip 2).uint32 = ms[i].msid := by
    rw [hb.uint32 (by decide) (by omega), ← h.msid i hi]
  have hsibling : sibling i = i + 1 := if_pos heven
  have hnext : UInt32.ofNat i < .ofNat ms.length - 1 ↔ i + 1 < ms.length := by
    have hpred : UInt32.ofNat ms.length - 1 = .ofNat (ms.length - 1) := by
      rw [UInt32.ofNat_sub (by omega)]
      rfl
    rw [hpred, UInt32.lt_iff_toNat_lt, UInt32.toNat_ofNat', UInt32.toNat_ofNat',
      Nat.mod_eq_of_lt (by omega), Nat.mod_eq_of_lt (by omega)]
    omega
  have hhash : (if UInt32.ofNat i < .ofNat ms.length - 1 then
      [readHash (b.skip (2 + 4 + 32 + 2 + 4))] else []) =
      neighbourHash (ms.map ListedMsg.sigh) i := by
    rw [neighbourHash, hsibling, List.length_map]
    by_cases hlt : i + 1 < ms.length
    · rw [if_pos (hnext.mpr hlt), if_pos hlt, ← h.sigh_getD hlt,
        hb.readHash (by decide) (by omega)]
      congr 3
    · rw [if_neg (mt hnext.mp hlt), if_neg hlt]
  refine ⟨q', ?_⟩
  rw [listEntry, if_neg (mt (ofNat_mod_two_ne (by omega)).mp (by omega)), ofNat_record]
  simp only [show (2 + 4 + 32 + 2 + 4 + 32 : UInt32) = .ofNat 76 from rfl, hfetch, bind,
    Except.bind, hsvid, hmsid, hhash, require, and_self, if_true]
  rfl

theorem ListFile.storesTree (h : ListFile file rest ms stored) (hfile : file.length < 2 ^ 31)
    (hpos : 0 < ms.length) :
    StoresTree file rest stored ((ms.map ListedMsg.sigh).getD (ms.length - 1) 0)
      (40 + 38 * ms.length) (36 + 38 * ms.length - 32) where
  small := hfile
  hashes n hash hget := by
    have hsize := h.size
    obtain ⟨hn, rfl⟩ := List.getElem?_eq_some_iff.mp hget
    exact ⟨by omega, h.hashes n hn⟩
  leaf := by
    have hsize := h.size
    refine ⟨by omega, ?_⟩
    rw [← h.sigh_getD (show ms.length - 1 < ms.length by omega)]
    congr 2
    omega

theorem listEntry_eq (h : ListFile file rest ms stored) (hfile : file.length < 2 ^ 31)
    (hi : i < ms.length) (memory : Bytes) (q : Nat) :
    ∃ q', listEntry memory ms[i].svid ms[i].msid (.ofNat ms.length) (.ofNat i) (.atPos file q) =
      .ok (neighbourHash (ms.map ListedMsg.sigh) i, .atPos file q') := by
  rcases Nat.mod_two_eq_zero_or_one i with heven | hodd
  · exact listEntry_even h hfile hi heven memory q
  · exact listEntry_odd h hfile hi hodd memory q

/-- The hashes behind the records are read as the path asks. -/
theorem ListFile.readStored_eq (h : ListFile file rest ms stored) (hfile : file.length < 2 ^ 31)
    (hi : i < ms.length) (memory : Bytes) (q : Nat) :
    readStored memory (.ofNat (36 + 38 * ms.length) + 4) (.ofNat (36 + 38 * ms.length) - 32)
        (missingHash (.ofNat ms.length)) (fun n => n < UInt32.ofNat stored.length)
        (HashTree.hashpath (.ofNat i / 2) ((.ofNat ms.length + 1) / 2)) (.atPos file q) =
      ((leafPath ms.length i).mapM (storedAt ms.length stored
        ((ms.map ListedMsg.sigh).getD (ms.length - 1) 0))).elim (.error .abort) .ok := by
  have hsize := h.size
  have hones := logSize_add_ones ((ms.length - 1) / 2)
  have hstart : UInt32.ofNat (36 + 38 * ms.length) + 4 = .ofNat (40 + 38 * ms.length) := by
    rw [show 40 + 38 * ms.length = 36 + 38 * ms.length + 4 by omega,
      UInt32.ofNat_add (36 + 38 * ms.length) 4]
    rfl
  have hleaf : UInt32.ofNat (36 + 38 * ms.length) - 32 = .ofNat (36 + 38 * ms.length - 32) := by
    rw [UInt32.ofNat_sub (by omega)]
    rfl
  have hinside : ∀ n < 2 ^ 26, decide (UInt32.ofNat n < UInt32.ofNat stored.length) =
      decide (n < stored.length) := by
    intro n hn
    rw [decide_eq_decide, UInt32.lt_iff_toNat_lt, UInt32.toNat_ofNat', UInt32.toNat_ofNat',
      Nat.mod_eq_of_lt (by omega), Nat.mod_eq_of_lt (by omega)]
  rw [hstart, hleaf, hashpath_leafPath hi (by omega)]
  apply Esc.readStored_eq (h.storesTree hfile (by omega)) (toNat_missingHash (by omega))
    (by decide) hinside
  intro n hn
  have hplace := leafPath_lt hi hn
  omega

/-- The header of the block is in the object, or `header_get` finds it. -/
def SrvHeader.Loads (srv : SrvHeader) (dataRead : Option SrvHeader) (block : SrvHeader) : Prop :=
  srv = block ∨ srv.msg = 0 ∧ (srv.now = 0 ∨ srv.now = block.now) ∧ dataRead = some block

theorem SrvHeader.Loads.eq (h : srv.Loads dataRead block) (hmsg : block.msg ≠ 0) :
    srv.load dataRead = .ok block := by
  rcases h with rfl | ⟨hzero, hnow, rfl⟩
  · exact if_neg hmsg
  · rw [load, if_pos hzero]
    apply if_neg
    rintro ⟨hne, hne'⟩
    exact hnow.elim hne hne'

/-- What a reader finds in the file of a list. -/
theorem msglHashTreeGet_eq (c : Crypto) (h : ListFile file rest ms stored)
    (hfile : file.length < 2 ^ 31) (hi : i < ms.length) (memory : Bytes)
    (hload : srv.Loads dataRead block) (hmsg : block.msg = .ofNat ms.length) (hashes : List Hash) :
    msglHashTreeGet c memory srv dataRead (.atPos file 0) ms[i].svid ms[i].msid (.ofNat (i + 1))
        hashes =
      ((leafPath ms.length i).mapM (storedAt ms.length stored
        ((ms.map ListedMsg.sigh).getD (ms.length - 1) 0))).elim (.error .abort) fun hs => do
          let all := hashes ++ neighbourHash (ms.map ListedMsg.sigh) i ++ hs
          let nhash := HashTree.hashpathrun c (readHash memory) all
          require (block.msghash = nhash) .fail
          require (block.nowhash = addhash c nhash block.minhash) .fail
          return all ++ [block.minhash] := by
  have hsize := h.size
  have hnat {n : Nat} (hn : n < 2 ^ 31) : (UInt32.ofNat n).toNat = n :=
    UInt32.toNat_ofNat_of_lt' (show n < 2 ^ 32 by omega)
  have hmnum : UInt32.ofNat (i + 1) ≠ 0 := by
    rw [← UInt32.toNat_inj.ne, hnat (by omega)]
    exact Nat.succ_ne_zero i
  have hpred : UInt32.ofNat (i + 1) - 1 = .ofNat i := by
    rw [UInt32.ofNat_add i 1]
    exact UInt32.add_sub_cancel _ _
  have hmsg0 : block.msg ≠ 0 := by
    rw [hmsg, ← UInt32.toNat_inj.ne, hnat (by omega)]
    exact (Nat.zero_lt_of_lt hi).ne'
  have hopen : (BlockFileReader.atPos file 0).isOpen = true :=
    Bool.and_eq_true_iff.mpr ⟨rfl, decide_eq_true (show 0 < file.length by omega)⟩
  obtain ⟨q, hentry⟩ := listEntry_eq h hfile hi memory 0
  obtain ⟨b, q', hfetch, hb⟩ := BlockFileReader.exists_fetch memory rest q hfile
    (show 36 + 38 * ms.length ≤ file.length by omega) (show 4 < 2 ^ 31 by decide)
  have htot : b.uint32 = .ofNat stored.length := by
    rw [← h.htot]
    apply Bytes.uint32_congr
    apply Bytes.take_congr
    intro k hk
    exact hb k hk (by omega)
  replace hfetch : BlockFileReader.fetch memory (.atPos file q) (.ofNat (36 + 38 * ms.length)) 4 =
    _ := hfetch
  have hpath := h.readStored_eq hfile hi memory q'
  simp only [msglHashTreeGet, hload.eq hmsg0, hmnum, hpred, hopen, hmsg, hentry, ofNat_record,
    hfetch, htot, hpath, bind, Except.bind, require, if_true, ne_eq, not_false_eq_true]
  cases (leafPath ms.length i).mapM (storedAt ms.length stored
    ((ms.map ListedMsg.sigh).getD (ms.length - 1) 0)) <;> rfl

end Read

/-! ## When a path is found -/

/-- `msgl_hash_tree_get` finds the path of the message at place `k` in every list of `n` messages:
hashes that join the hash of the message to that of the list, and the hash that joins that one to
the hash of the block. -/
def FindsListPath (n k : Nat) : Prop :=
  ∀ (c : Crypto) (memory : Bytes) (map : ListedMap) (old file : List UInt8) (list : ListHeader)
    (head srv : SrvHeader) (dataRead : Option SrvHeader) (m : ListedMsg) (hashes : List Hash),
    msglPut c map none old = (list, some file) → file.length < 2 ^ 31 →
    (listed map).length = n → (listed map)[k]? = some m →
    head.msg = list.msg → head.msghash = list.msghash → srv.Loads dataRead (head.hashnow c) →
    hashes ≠ [] → HashTree.hashpathrun c 0 hashes = m.sigh →
    ∃ path, msglHashTreeGet c memory srv dataRead (.atPos file 0) m.svid m.msid (.ofNat (k + 1))
        hashes = .ok (hashes ++ path ++ [(head.hashnow c).minhash]) ∧
      path.foldl (addhash c) m.sigh = list.msghash ∧
      addhash c list.msghash (head.hashnow c).minhash = (head.hashnow c).nowhash

section Found

variable {c : Crypto}

theorem hashpathrun_append {hashes : List Hash} (h : hashes ≠ []) (x y : Hash) (more : List Hash) :
    HashTree.hashpathrun c x (hashes ++ more) =
      more.foldl (addhash c) (HashTree.hashpathrun c y hashes) := by
  cases hashes with
  | nil => exact absurd rfl h
  | cons hash hashes => exact List.foldl_append

theorem foldl_neighbourHash {leaves : List Hash} (i : Nat) (hs : List Hash) :
    (neighbourHash leaves i ++ hs).foldl (addhash c) (leaves.getD i 0) =
      hs.foldl (addhash c) (pathStart c leaves i) := by
  rw [neighbourHash, pathStart]
  split <;> rfl

theorem nowhash_hashnow (head : SrvHeader) :
    (head.hashnow c).nowhash = addhash c head.msghash (head.hashnow c).minhash :=
  addhash_comm c _ _

/-- What `msgl_put` leaves in the file and in the header. -/
theorem msglPut_none {map : ListedMap} {old file : List UInt8} {list : ListHeader}
    (h : msglPut c map none old = (list, some file)) :
    list = ⟨.ofNat (listed map).length, listHash c (listed map)⟩ ∧
      file = overwrite (msglistBytes c (listed map)) old := by
  cases h
  exact ⟨rfl, rfl⟩

theorem length_le_overwrite (ms : List ListedMsg) (old : List UInt8) :
    36 + 38 * ms.length ≤ (overwrite (msglistBytes c ms) old).length := by
  rw [overwrite, msglistBytes]
  simp only [List.length_append, length_bytesLE, length_hashBytes, Codec.length_encodeAll]
  show _ ≤ 4 + (32 + (ms.length * 38 + _)) + _
  omega

/-- The size of a new list. -/
theorem length_overwrite_lt (hpos : 0 < ms.length)
    (hlt : 4 + 32 + (2 + 4 + 32) * ms.length + 4 + 32 * (ms.length - 1) < 2 ^ 31) :
    (overwrite (msglistBytes c ms) []).length < 2 ^ 31 := by
  obtain ⟨tail, htail, hbytes⟩ := overwrite_msglistBytes c hpos (by omega) []
  have hleaves : (ms.map ListedMsg.sigh).length = ms.length := List.length_map _
  have hhashes := length_treeHashes c (show 0 < (ms.map ListedMsg.sigh).length by omega) (by omega)
  rw [List.length_nil] at htail
  rw [hbytes, length_listFileBytes, List.length_dropLast]
  omega

theorem findsListPath_of_pathStored {k : Nat} (h : PathStored n k) : FindsListPath n k := by
  intro c memory map old file list head srv dataRead m hashes hput hfile hn hm hmsg hmsghash hload
    hne hhash
  obtain ⟨rfl, rfl⟩ := msglPut_none hput
  subst hn
  obtain ⟨hk, rfl⟩ := List.getElem?_eq_some_iff.mp hm
  have hlength := length_le_overwrite (c := c) (listed map) old
  have hsmall : (listed map).length < 2 ^ 29 := by omega
  obtain ⟨tail, -, htail⟩ := overwrite_msglistBytes c (show 0 < (listed map).length by omega)
    (by omega) old
  rw [htail] at hfile ⊢
  have hlist := listFile_listFileBytes (listHash c (listed map)) (listed map)
    (treeHashes c ((listed map).map ListedMsg.sigh)).dropLast tail memory
  have hleaves : ((listed map).map ListedMsg.sigh).length = (listed map).length := List.length_map _
  have hleaf : ((listed map).map ListedMsg.sigh).getD k 0 = (listed map)[k].sigh := by
    rw [List.getD_eq_getElem?_getD, List.getElem?_map, List.getElem?_eq_getElem hk]
    rfl
  obtain ⟨hs, hmapM, hfold⟩ := exists_path c (show k < ((listed map).map ListedMsg.sigh).length by
    omega) (by omega) (by rw [hleaves]; exact h)
  rw [hleaves] at hmapM
  have hget := msglHashTreeGet_eq c hlist hfile hk memory hload hmsg hashes
  have hrun : HashTree.hashpathrun c (readHash memory)
      (hashes ++ neighbourHash ((listed map).map ListedMsg.sigh) k ++ hs) =
      listHash c (listed map) := by
    rw [List.append_assoc, hashpathrun_append hne _ 0, hhash, ← hleaf, foldl_neighbourHash, hfold,
      listHash_eq]
  have hnow : (head.hashnow c).nowhash =
      addhash c (listHash c (listed map)) (head.hashnow c).minhash := by
    rw [nowhash_hashnow, hmsghash]
  replace hmsghash : (head.hashnow c).msghash = listHash c (listed map) := hmsghash
  simp only [hmapM, Option.elim, hrun, hmsghash, hnow, require, if_true] at hget
  refine ⟨neighbourHash ((listed map).map ListedMsg.sigh) k ++ hs, ?_, ?_, hnow.symm⟩
  · rw [← List.append_assoc]
    exact hget
  · rw [← hleaf, foldl_neighbourHash, hfold, listHash_eq]

/-- No path is found of a message in a list whose hash has a mark that nothing on the path
has. -/
theorem msglHashTreeGet_of_lost {P : Hash → Prop} (hP : KeepsMark c P) {file : List UInt8}
    {rest : Bytes} {stored : List Hash} (h : ListFile file rest ms stored)
    (hfile : file.length < 2 ^ 31) (hi : i < ms.length) (memory : Bytes)
    (hload : srv.Loads dataRead block)
    (hmsg : block.msg = .ofNat ms.length)
    (hmsghash : block.msghash = treeRoot c (ms.map ListedMsg.sigh)) {hashes : List Hash}
    (hne : hashes ≠ []) (hhash : HashTree.hashpathrun c 0 hashes = ms[i].sigh)
    (hroot : P (treeRoot c (ms.map ListedMsg.sigh)))
    (hstart : ¬ P (pathStart c (ms.map ListedMsg.sigh) i))
    (hread : ∀ n ∈ leafPath ms.length i, ∀ a,
      storedAt ms.length stored ((ms.map ListedMsg.sigh).getD (ms.length - 1) 0) n = some a → ¬ P a)
    (all : List Hash) :
    msglHashTreeGet c memory srv dataRead (.atPos file 0) ms[i].svid ms[i].msid (.ofNat (i + 1))
      hashes ≠ .ok all := by
  intro hget
  have hleaf : (ms.map ListedMsg.sigh).getD i 0 = ms[i].sigh := by
    rw [List.getD_eq_getElem?_getD, List.getElem?_map, List.getElem?_eq_getElem hi]
    rfl
  rw [msglHashTreeGet_eq c h hfile hi memory hload hmsg] at hget
  cases hmapM : (leafPath ms.length i).mapM (storedAt ms.length stored
      ((ms.map ListedMsg.sigh).getD (ms.length - 1) 0)) with
  | none =>
    rw [hmapM] at hget
    cases hget
  | some hs =>
    rw [hmapM] at hget
    obtain ⟨hsigh, -⟩ := require_bind_eq_ok.mp hget
    have hunmarked : ∀ a ∈ hs, ¬ P a := by
      intro a ha
      obtain ⟨j, hj, hat⟩ := exists_of_mapM_eq_some hmapM ha
      exact hread j hj a hat
    apply foldl_addhash_unmarked _ hP hstart hunmarked
    rw [List.append_assoc, hashpathrun_append hne _ 0, hhash, ← hleaf, foldl_neighbourHash,
      hmsghash] at hsigh
    rw [← hsigh]
    exact hroot

/-- Every row of messages is the list of a map. -/
theorem exists_listed (hn : n < 2 ^ 64) (f : Nat → ListedMsg) :
    ∃ map : ListedMap, listed map = (List.range n).map f := by
  have hnat {i : Nat} (hi : i < n) : (UInt64.ofNat i).toNat = i :=
    UInt64.toNat_ofNat_of_lt' (hi.trans hn)
  have hkey {i j : Nat} (hi : i < n) (hj : j < n) :
      compare (UInt64.ofNat i) (UInt64.ofNat j) = .lt ↔ i < j := by
    rw [Std.compare_eq_lt, UInt64.lt_iff_toNat_lt, hnat hi, hnat hj]
  generalize hentries : (List.range n).map (fun i => (UInt64.ofNat i, f i)) = entries
  have hordered : entries.Pairwise fun a b => compare a.1 b.1 = .lt := by
    rw [← hentries, List.pairwise_map]
    refine List.pairwise_lt_range.imp_of_mem fun {i j} hi hj hlt => ?_
    exact (hkey (List.mem_range.mp hi) (List.mem_range.mp hj)).mpr hlt
  have hdistinct : entries.Pairwise fun a b => ¬ compare a.1 b.1 = .eq :=
    hordered.imp fun hlt heq => by simp [hlt] at heq
  have hget {p : UInt64 × ListedMsg} (hp : p ∈ entries) :
      (Std.ExtTreeMap.ofList entries compare)[p.1]? = some p.2 :=
    Std.ExtTreeMap.getElem?_ofList_of_mem Std.compare_self hdistinct hp
  have hmem (p : UInt64 × ListedMsg) :
      p ∈ (Std.ExtTreeMap.ofList entries compare).toList ↔ p ∈ entries := by
    rw [Map.mem_toList]
    refine ⟨fun hp => ?_, hget⟩
    by_cases hcontains : (entries.map Prod.fst).contains p.1 = true
    · obtain ⟨q, hq, hfst⟩ := List.mem_map.mp (List.contains_iff_mem.mp hcontains)
      have hsnd := hget hq
      rw [hfst, hp] at hsnd
      rwa [show p = q from Prod.ext hfst.symm (Option.some.inj hsnd)]
    · rw [Std.ExtTreeMap.getElem?_ofList_of_contains_eq_false
        (Bool.eq_false_iff.mpr hcontains)] at hp
      cases hp
  have hanti : Std.Antisymm fun a b : UInt64 × ListedMsg => compare a.1 b.1 = .lt :=
    ⟨fun a b hab hba => absurd (Std.compare_eq_lt.mp hab)
      (UInt64.lt_asymm (Std.compare_eq_lt.mp hba))⟩
  have hirrefl : Std.Irrefl fun a b : UInt64 × ListedMsg => compare a.1 b.1 = .lt :=
    ⟨fun a haa => UInt64.lt_irrefl _ (Std.compare_eq_lt.mp haa)⟩
  refine ⟨.ofList entries compare, ?_⟩
  have htoList : (Std.ExtTreeMap.ofList entries compare).toList = entries :=
    Std.ExtTreeMap.ordered_keys_toList.eq_of_mem_iff hordered hmem
  rw [listed, htoList, ← hentries, List.map_map]
  rfl

end Found

/-- Messages of which one has a marked hash. -/
def Sample.markedList (p : Nat) (i : Nat) : ListedMsg where
  svid := 1
  msid := .ofNat (i + 1)
  sigh := if i = 2 * p then BitVec.intMin 256 else 0

/-- Where a place of the path is not stored, there is a list in which the path is not found. -/
theorem pathStored_of_findsListPath {k : Nat} (hk : k < n)
    (hlt : 4 + 32 + (2 + 4 + 32) * n + 4 + 32 * (n - 1) < 2 ^ 31) (h : FindsListPath n k) :
    PathStored n k := by
  by_contra hpath
  have heven : n % 2 = 0 := by
    by_contra hodd
    exact hpath (.inl (by omega))
  obtain ⟨p, hp, -, hlost⟩ := exists_lost_leaf Sample.markCrypto Sample.keepsMark_msb heven hk
    (by omega) hpath
  obtain ⟨map, hmap⟩ := exists_listed (show n < 2 ^ 64 by omega) (Sample.markedList p)
  have hn : (listed map).length = n := by
    rw [hmap, List.length_map, List.length_range]
  have hleaves : ((listed map).map ListedMsg.sigh).length = (listed map).length := List.length_map _
  have hmark : ∀ j < n, (((listed map).map ListedMsg.sigh).getD j 0).msb = true ↔ j = 2 * p := by
    intro j hj
    rw [hmap, List.map_map, List.getD_eq_getElem?_getD, List.getElem?_map,
      List.getElem?_range hj]
    exact Sample.msb_ite _
  obtain ⟨hroot, hstart, hread⟩ := hlost ((listed map).map ListedMsg.sigh) (by omega) hmark
  obtain ⟨tail, -, hbytes⟩ := overwrite_msglistBytes Sample.markCrypto
    (show 0 < (listed map).length by omega) (by omega) []
  have hfile := length_overwrite_lt (c := Sample.markCrypto)
    (show 0 < (listed map).length by omega) (by omega)
  have hkm : k < (listed map).length := by omega
  obtain ⟨head, hmsg, hmsghash⟩ : ∃ head : SrvHeader, head.msg = .ofNat (listed map).length ∧
      head.msghash = listHash Sample.markCrypto (listed map) :=
    ⟨{ msg := .ofNat (listed map).length
       msghash := listHash Sample.markCrypto (listed map) }, rfl, rfl⟩
  obtain ⟨path, hget, -⟩ := h Sample.markCrypto (fun _ => 0) map [] _ _ head
    (head.hashnow Sample.markCrypto) none (listed map)[k] [(listed map)[k].sigh] rfl hfile hn
    (List.getElem?_eq_getElem hkm) hmsg hmsghash (.inl rfl) (List.cons_ne_nil _ _) rfl
  replace hmsg : (head.hashnow Sample.markCrypto).msg = .ofNat (listed map).length := hmsg
  rw [hbytes] at hget hfile
  rw [← hn] at hread
  exact msglHashTreeGet_of_lost Sample.keepsMark_msb
    (listFile_listFileBytes _ _ _ tail fun _ => 0) hfile hkm _ (.inl rfl) hmsg
    (hmsghash.trans (listHash_eq _ _)) (List.cons_ne_nil _ _) rfl hroot hstart hread _ hget

/-- `msgl_hash_tree_get` finds the path of a message in every list of `n` messages if and only if
`n` is odd or no place of the path is 1024 or more. -/
theorem msglHashTreeGet_iff {n k : Nat} (hk : k < n)
    (hlt : 4 + 32 + (2 + 4 + 32) * n + 4 + 32 * (n - 1) < 2 ^ 31) :
    FindsListPath n k ↔ PathStored n k :=
  ⟨pathStored_of_findsListPath hk hlt, findsListPath_of_pathStored⟩

/-- The second message of 1026. -/
theorem msglHashTreeGet_1026 : 4 + 32 + (2 + 4 + 32) * 1026 + 4 + 32 * (1026 - 1) < 2 ^ 31 ∧
    FindsListPath 1026 1 :=
  ⟨by decide, (msglHashTreeGet_iff (by decide) (by decide)).mpr (by decide +kernel)⟩

/-- The second message of 1028: the last place of its path is 1025. -/
theorem msglHashTreeGet_1028 : leafPath 1028 1 =
    [1, 5, 13, 29, 61, 125, 253, 509, 1021, 1025] ∧ ¬ FindsListPath 1028 1 := by
  refine ⟨by decide +kernel, fun h => ?_⟩
  exact absurd (pathStored_of_findsListPath (by decide) (by decide) h) (by decide +kernel)

end Esc
