import Esc.Message.StoredTree

/-!
# The file of a message with its hash tree

`hash_tree_get` reads a transaction from the file of its message, with the hashes that join it
to the hash of the message. The file is what `hash_tree` made of the message; the number of the
message in its block is written into it later.
-/

namespace Esc

open Lib Merkle

/-! ## The reader -/

/-- A transaction, the hashes of its path and the number of the message in the block. -/
structure TreePath where
  data : List UInt8
  hashes : List Hash
  mnum : UInt32

/-- Where a transaction is, and the first hashes of its path. -/
structure TreeEntry where
  pos : UInt32
  len : UInt32
  hashes : List Hash

/-- The entry of a transaction and that of its neighbour are read together. -/
def treeEntry (memory : Bytes) (mlen tmax tnum : UInt32) (fd : BlockFileReader) :
    Except Stop (TreeEntry × BlockFileReader) :=
  if tnum % 2 ≠ 0 then do
    let (tmp, fd) ← fd.fetch memory (mlen + 32 + 4 + 4 + 4 + (4 + 32) * tnum - 32) (32 + 4 + 32 + 4)
    let pos := (tmp.skip 32).uint32
    let len := if tnum = tmax - 1 then mlen - pos else (tmp.skip (32 + 4 + 32)).uint32 - pos
    return ({ pos, len, hashes := [readHash (tmp.skip (32 + 4)), readHash tmp] }, fd)
  else do
    let (tmp, fd) ← fd.fetch memory (mlen + 32 + 4 + 4 + 4 + (4 + 32) * tnum) (4 + 32 + 4 + 32)
    let pos := tmp.uint32
    if tnum = tmax - 1 then
      return ({ pos, len := mlen - pos, hashes := [readHash (tmp.skip 4)] }, fd)
    else
      return ({ pos, len := (tmp.skip (4 + 32)).uint32 - pos,
                hashes := [readHash (tmp.skip 4), readHash (tmp.skip (4 + 32 + 4))] }, fd)

/-- `message::hash_tree_get`. -/
def hashTreeGet (c : Crypto) (memory : Bytes) (hashtype : UInt8) (fd : BlockFileReader)
    (tnum : UInt32) : Except Stop TreePath := do
  require (hashtype = msgtypeMsg) .abort
  require fd.isOpen .fail
  let (mlen, fd) ← fd.fill memory 4
  let mlen := mlen.uint32 >>> 8
  require (mlen ≠ 0) .fail
  let (mhash, fd) ← fd.fetch memory mlen 32
  let (mnum, fd) ← fd.fill memory 4
  let (ttot, fd) ← fd.fill memory 4
  let (tmax, fd) ← fd.fill memory 4
  let tmax := tmax.uint32
  require (tmax ≠ 0) .fail
  require (tnum < tmax) .fail
  let (entry, fd) ← treeEntry memory mlen tmax tnum fd
  require (0 < entry.len ∧ entry.len < mlen) .abort
  let (data, fd) ← fd.fetch memory entry.pos entry.len
  let start := mlen + 32 + 4 + 4 + 4 + (4 + 32) * tmax
  let path ← readStored memory start (start - 32) (missingHash tmax)
    (fun n => start + 32 * n < ttot.uint32) (HashTree.hashpath (tnum / 2) ((tmax + 1) / 2)) fd
  let hashes := entry.hashes ++ path
  require (readHash mhash = HashTree.hashpathrun c 0 hashes) .fail
  return { data := data.take entry.len.toNat, hashes, mnum := mnum.uint32 }

/-- What `message::save_mnum` makes of the file of a message of length `len`. -/
def saveMnum (data : List UInt8) (len : Nat) (mnum : UInt32) : List UInt8 :=
  data.take (len + 32) ++ bytesLE 4 mnum.toNat ++ data.drop (len + 32 + 4)

/-! ## The file of a message -/

/-- What is where in the file of a message. -/
structure TreeFile (file : List UInt8) (rest : Bytes) (len : Nat) (root : Hash) (mnum : UInt32)
    (tpos : List Nat) (leaves stored : List Hash) : Prop where
  count_leaves : leaves.length = tpos.length
  size : file.length = len + 44 + 36 * tpos.length + 32 * stored.length
  root : readHash ((Bytes.ofList file rest).skip len) = root
  mnum : ((Bytes.ofList file rest).skip (len + 32)).uint32 = mnum
  total : ((Bytes.ofList file rest).skip (len + 36)).uint32 = .ofNat file.length
  count : ((Bytes.ofList file rest).skip (len + 40)).uint32 = .ofNat tpos.length
  pos : ∀ i (h : i < tpos.length),
    ((Bytes.ofList file rest).skip (len + 44 + 36 * i)).uint32 = .ofNat tpos[i]
  leaf : ∀ i (h : i < leaves.length),
    readHash ((Bytes.ofList file rest).skip (len + 44 + 36 * i + 4)) = leaves[i]
  hashes : ∀ i (h : i < stored.length),
    readHash ((Bytes.ofList file rest).skip (len + 44 + 36 * tpos.length + 32 * i)) = stored[i]

/-- The file of a message, part by part. -/
def treeFileBytes (message : List UInt8) (root : Hash) (mnum : UInt32) (tpos : List Nat)
    (leaves stored : List Hash) : List UInt8 :=
  message ++ (hashBytes root ++ (bytesLE 4 mnum.toNat ++
    (bytesLE 4 (message.length + 44 + 36 * tpos.length + 32 * stored.length) ++
      (bytesLE 4 tpos.length ++
        ((List.zipWith (fun pos h => bytesLE 4 pos ++ hashBytes h) tpos leaves).flatten ++
          (stored.map hashBytes).flatten)))))

section Layout

variable {message : List UInt8} {len : Nat} (hlen : message.length = len) (root : Hash)
  (mnum : UInt32) {tpos : List Nat} {leaves : List Hash} (hcount : leaves.length = tpos.length)
  (stored : List Hash) (rest : Bytes)

theorem length_of_mem_zipWith {e : List UInt8}
    (h : e ∈ List.zipWith (fun pos h => bytesLE 4 pos ++ hashBytes h) tpos leaves) :
    e.length = 36 := by
  obtain ⟨i, hi, rfl⟩ := List.mem_iff_getElem.mp h
  simp

include hcount in
theorem length_treeFileBytes :
    (treeFileBytes message root mnum tpos leaves stored).length =
      message.length + 44 + 36 * tpos.length + 32 * stored.length := by
  have hentries : (List.zipWith (fun pos h => bytesLE 4 pos ++ hashBytes h) tpos
      leaves).flatten.length = 36 * tpos.length := by
    rw [length_flatten_of_forall fun e he => length_of_mem_zipWith he, List.length_zipWith, hcount,
      Nat.min_self]
  have hstored : (stored.map hashBytes).flatten.length = 32 * stored.length := by
    rw [length_flatten_of_forall (n := 32) (by simp), List.length_map]
  simp only [treeFileBytes, List.length_append, length_hashBytes, length_bytesLE, hentries, hstored]
  omega

include hlen in
theorem skip_treeFileBytes :
    (Bytes.ofList (treeFileBytes message root mnum tpos leaves stored) rest).skip (len + 44) =
      Bytes.ofList
        ((List.zipWith (fun pos h => bytesLE 4 pos ++ hashBytes h) tpos leaves).flatten ++
        (stored.map hashBytes).flatten) rest := by
  rw [treeFileBytes, show len + 44 = len + (32 + (4 + (4 + 4))) from rfl, ← Bytes.skip_skip,
    ← Bytes.skip_skip, ← Bytes.skip_skip, ← Bytes.skip_skip, Bytes.skip_ofList_append hlen,
    Bytes.skip_ofList_append (length_hashBytes root),
    Bytes.skip_ofList_append (length_bytesLE 4 _), Bytes.skip_ofList_append (length_bytesLE 4 _),
    Bytes.skip_ofList_append (length_bytesLE 4 _)]

include hlen hcount in
theorem skip_treeFileBytes_entry {i : Nat} (hi : i ≤ tpos.length) :
    (Bytes.ofList (treeFileBytes message root mnum tpos leaves stored) rest).skip
        (len + 44 + 36 * i) =
      Bytes.ofList (((List.zipWith (fun pos h => bytesLE 4 pos ++ hashBytes h) tpos leaves).drop
        i).flatten ++ (stored.map hashBytes).flatten) rest := by
  rw [← Bytes.skip_skip, skip_treeFileBytes hlen]
  apply Bytes.skip_ofList_flatten fun e he => length_of_mem_zipWith he
  rw [List.length_zipWith, hcount, Nat.min_self]
  exact hi

include hlen hcount in
theorem treeFile_treeFileBytes :
    TreeFile (treeFileBytes message root mnum tpos leaves stored) rest len root mnum tpos leaves
      stored where
  count_leaves := hcount
  size := by rw [length_treeFileBytes root mnum hcount, hlen]
  root := by rw [treeFileBytes, Bytes.skip_ofList_append hlen, readHash_ofList]
  mnum := by
    rw [treeFileBytes, ← Bytes.skip_skip, Bytes.skip_ofList_append hlen,
      Bytes.skip_ofList_append (length_hashBytes root), uint32_ofList_bytesLE, UInt32.ofNat_toNat]
  total := by
    rw [length_treeFileBytes root mnum hcount, treeFileBytes,
      show len + 36 = len + (32 + 4) from rfl, ← Bytes.skip_skip, ← Bytes.skip_skip,
      Bytes.skip_ofList_append hlen, Bytes.skip_ofList_append (length_hashBytes root),
      Bytes.skip_ofList_append (length_bytesLE 4 _), uint32_ofList_bytesLE]
  count := by
    rw [treeFileBytes, show len + 40 = len + (32 + (4 + 4)) from rfl, ← Bytes.skip_skip,
      ← Bytes.skip_skip, ← Bytes.skip_skip, Bytes.skip_ofList_append hlen,
      Bytes.skip_ofList_append (length_hashBytes root),
      Bytes.skip_ofList_append (length_bytesLE 4 _), Bytes.skip_ofList_append (length_bytesLE 4 _),
      uint32_ofList_bytesLE]
  pos i hi := by
    rw [skip_treeFileBytes_entry hlen root mnum hcount stored rest hi.le,
      ← List.getElem_cons_drop (by simpa [hcount] using hi), List.flatten_cons,
      List.getElem_zipWith, List.append_assoc, List.append_assoc, uint32_ofList_bytesLE]
  leaf i hi := by
    rw [← Bytes.skip_skip, skip_treeFileBytes_entry hlen root mnum hcount stored rest (by omega),
      ← List.getElem_cons_drop (by simpa [hcount] using hi), List.flatten_cons,
      List.getElem_zipWith, List.append_assoc, List.append_assoc,
      Bytes.skip_ofList_append (length_bytesLE 4 _), readHash_ofList]
  hashes i hi := by
    rw [← Bytes.skip_skip, skip_treeFileBytes_entry hlen root mnum hcount stored rest le_rfl,
      List.drop_eq_nil_of_le (by simp), List.flatten_nil, List.nil_append,
      ← List.append_nil (List.flatten _),
      Bytes.skip_ofList_flatten (w := 32) (by simp) (by simpa using hi.le),
      ← List.getElem_cons_drop (by simpa using hi), List.flatten_cons, List.getElem_map,
      List.append_assoc, readHash_ofList]

end Layout

/-! ## Reading an entry -/

section Read

variable {file : List UInt8} {rest : Bytes} {len : Nat} {root : Hash} {mnum : UInt32}
  {tpos : List Nat} {leaves stored : List Hash}

theorem ofNat_entry (len i : Nat) :
    UInt32.ofNat len + 32 + 4 + 4 + 4 + (4 + 32) * .ofNat i = .ofNat (len + 44 + 36 * i) := by
  have hlen : UInt32.ofNat len + 32 + 4 + 4 + 4 = UInt32.ofNat len + 44 := by
    rw [UInt32.add_assoc, UInt32.add_assoc, UInt32.add_assoc]
    rfl
  rw [hlen, UInt32.ofNat_add, UInt32.ofNat_add, UInt32.ofNat_mul]
  rfl

theorem TreeFile.leaf_getD (h : TreeFile file rest len root mnum tpos leaves stored) {i : Nat}
    (hi : i < tpos.length) :
    readHash ((Bytes.ofList file rest).skip (len + 44 + 36 * i + 4)) = leaves.getD i 0 := by
  have hcount := h.count_leaves
  rw [h.leaf i (by omega), getElem_eq_getD]

theorem TreeFile.pos_getD (h : TreeFile file rest len root mnum tpos leaves stored) {i : Nat}
    (hi : i < tpos.length) (other : Nat) :
    ((Bytes.ofList file rest).skip (len + 44 + 36 * i)).uint32 = .ofNat (tpos.getD i other) := by
  rw [h.pos i hi, List.getD_eq_getElem?_getD, List.getElem?_eq_getElem hi, Option.getD_some]

theorem treeEntry_odd (h : TreeFile file rest len root mnum tpos leaves stored)
    (hfile : file.length < 2 ^ 31) {i : Nat} (hi : i < tpos.length) (hodd : i % 2 = 1)
    (memory : Bytes) (q : Nat) :
    ∃ q', treeEntry memory (.ofNat len) (.ofNat tpos.length) (.ofNat i) (.atPos file q) =
      .ok ({ pos := .ofNat (tpos.getD i 0),
             len := .ofNat (tpos.getD (i + 1) len) - .ofNat (tpos.getD i 0),
             hashes := leafHashes leaves i }, .atPos file q') := by
  have hsize := h.size
  have hcount := h.count_leaves
  have hpos : UInt32.ofNat len + 32 + 4 + 4 + 4 + (4 + 32) * .ofNat i - 32 =
      .ofNat (len + 44 + 36 * i - 32) := by
    rw [ofNat_entry, UInt32.ofNat_sub (by omega)]
    rfl
  obtain ⟨b, q', hfetch, hb⟩ := BlockFileReader.exists_fetch memory rest q hfile
    (show len + 44 + 36 * i - 32 ≤ file.length by omega) (show 72 < 2 ^ 31 by decide)
  replace hb : FilledAt file rest _ _ b := hb
  have hself : (b.skip 32).uint32 = .ofNat (tpos.getD i 0) := by
    rw [hb.uint32 (by decide) (by omega), ← h.pos_getD hi]
    congr 2
    omega
  have hleaf : readHash (b.skip (32 + 4)) = leaves.getD i 0 := by
    rw [hb.readHash (by decide) (by omega), ← h.leaf_getD hi]
    congr 2
    omega
  have hbefore : readHash b = leaves.getD (sibling i) 0 := by
    rw [show sibling i = i - 1 from if_neg (by omega), ← h.leaf_getD (show i - 1 < _ by omega)]
    apply readHash_congr
    intro k hk
    rw [hb k (by omega) (by omega), Bytes.skip_apply]
    congr 1
    omega
  have hlen : (if UInt32.ofNat i = .ofNat tpos.length - 1 then UInt32.ofNat len
        - UInt32.ofNat (tpos.getD i 0)
      else (b.skip (32 + 4 + 32)).uint32 - .ofNat (tpos.getD i 0)) =
      .ofNat (tpos.getD (i + 1) len) - .ofNat (tpos.getD i 0) := by
    by_cases hlast : i + 1 = tpos.length
    · rw [if_pos ((ofNat_eq_pred hi (by omega)).mpr hlast), hlast,
        List.getD_eq_default _ _ le_rfl]
    · rw [if_neg (mt (ofNat_eq_pred hi (by omega)).mp hlast),
        hb.uint32 (by decide) (by omega), ← h.pos_getD (show i + 1 < _ by omega)]
      congr 3
      omega
  have hhashes : leafHashes leaves i = [leaves.getD i 0, leaves.getD (sibling i) 0] := by
    rw [leafHashes, if_pos]
    rw [show sibling i = i - 1 from if_neg (by omega)]
    omega
  refine ⟨q', ?_⟩
  rw [treeEntry, if_pos ((ofNat_mod_two_ne (by omega)).mpr hodd), hpos, hhashes]
  simp only [show (32 + 4 + 32 + 4 : UInt32) = .ofNat 72 from rfl, hfetch, bind, Except.bind, hself,
    hlen, hleaf, hbefore]
  rfl

theorem treeEntry_even (h : TreeFile file rest len root mnum tpos leaves stored)
    (hfile : file.length < 2 ^ 31) {i : Nat} (hi : i < tpos.length) (heven : i % 2 = 0)
    (memory : Bytes) (q : Nat) :
    ∃ q', treeEntry memory (.ofNat len) (.ofNat tpos.length) (.ofNat i) (.atPos file q) =
      .ok ({ pos := .ofNat (tpos.getD i 0),
             len := .ofNat (tpos.getD (i + 1) len) - .ofNat (tpos.getD i 0),
             hashes := leafHashes leaves i }, .atPos file q') := by
  have hsize := h.size
  have hcount := h.count_leaves
  obtain ⟨b, q', hfetch, hb⟩ := BlockFileReader.exists_fetch memory rest q hfile
    (show len + 44 + 36 * i ≤ file.length by omega) (show 72 < 2 ^ 31 by decide)
  replace hb : FilledAt file rest _ _ b := hb
  have hself : b.uint32 = .ofNat (tpos.getD i 0) := by
    rw [← h.pos_getD hi]
    apply Bytes.uint32_congr
    apply Bytes.take_congr
    intro k hk
    exact hb k (by omega) (by omega)
  have hleaf : readHash (b.skip 4) = leaves.getD i 0 := by
    rw [hb.readHash (by decide) (by omega), ← h.leaf_getD hi]
  have hsibling : sibling i = i + 1 := if_pos heven
  rw [treeEntry, if_neg (mt (ofNat_mod_two_ne (by omega)).mp (by omega)), ofNat_entry]
  by_cases hlast : i + 1 = tpos.length
  · have hpred := (ofNat_eq_pred hi (by omega)).mpr hlast
    refine ⟨q', ?_⟩
    rw [leafHashes, if_neg (by omega), hlast, List.getD_eq_default tpos len le_rfl]
    simp only [show (4 + 32 + 4 + 32 : UInt32) = .ofNat 72 from rfl, hfetch, bind, Except.bind,
      hself, hleaf]
    rw [if_pos hpred]
    rfl
  · have hpred := mt (ofNat_eq_pred hi (by omega)).mp hlast
    have hnext : (b.skip (4 + 32)).uint32 = .ofNat (tpos.getD (i + 1) len) := by
      rw [hb.uint32 (by decide) (by omega), ← h.pos_getD (show i + 1 < _ by omega)]
      congr 2
    have hafter : readHash (b.skip (4 + 32 + 4)) = leaves.getD (i + 1) 0 := by
      rw [hb.readHash (by decide) (by omega), ← h.leaf_getD (show i + 1 < _ by omega)]
      congr 2
    refine ⟨q', ?_⟩
    rw [leafHashes, if_pos (by omega), hsibling]
    simp only [show (4 + 32 + 4 + 32 : UInt32) = .ofNat 72 from rfl, hfetch, bind, Except.bind,
      hself, hleaf, hnext, hafter]
    rw [if_neg hpred]
    rfl

theorem treeEntry_eq (h : TreeFile file rest len root mnum tpos leaves stored)
    (hfile : file.length < 2 ^ 31) {i : Nat} (hi : i < tpos.length) (memory : Bytes) (q : Nat) :
    ∃ q', treeEntry memory (.ofNat len) (.ofNat tpos.length) (.ofNat i) (.atPos file q) =
      .ok ({ pos := .ofNat (tpos.getD i 0),
             len := .ofNat (tpos.getD (i + 1) len) - .ofNat (tpos.getD i 0),
             hashes := leafHashes leaves i }, .atPos file q') := by
  rcases Nat.mod_two_eq_zero_or_one i with heven | hodd
  · exact treeEntry_even h hfile hi heven memory q
  · exact treeEntry_odd h hfile hi hodd memory q

theorem TreeFile.storesTree (h : TreeFile file rest len root mnum tpos leaves stored)
    (hfile : file.length < 2 ^ 31) (hpos : 0 < tpos.length) :
    StoresTree file rest stored (leaves.getD (tpos.length - 1) 0) (len + 44 + 36 * tpos.length)
      (len + 44 + 36 * tpos.length - 32) where
  small := hfile
  hashes n hash hget := by
    have hsize := h.size
    obtain ⟨hn, rfl⟩ := List.getElem?_eq_some_iff.mp hget
    exact ⟨by omega, h.hashes n hn⟩
  leaf := by
    have hsize := h.size
    refine ⟨by omega, ?_⟩
    rw [← h.leaf_getD (show tpos.length - 1 < tpos.length by omega)]
    congr 2
    omega

/-- The hashes behind the entries are read as the path asks. -/
theorem TreeFile.readStored_eq (h : TreeFile file rest len root mnum tpos leaves stored)
    (hfile : file.length < 2 ^ 31) (hcount : tpos.length < 2 ^ 26) {i : Nat}
    (hi : i < tpos.length) (memory : Bytes) (q : Nat) :
    readStored memory (.ofNat (len + 44 + 36 * tpos.length))
        (.ofNat (len + 44 + 36 * tpos.length) - 32) (missingHash (.ofNat tpos.length))
        (fun n => .ofNat (len + 44 + 36 * tpos.length) + 32 * n < UInt32.ofNat file.length)
        (HashTree.hashpath (.ofNat i / 2) ((.ofNat tpos.length + 1) / 2)) (.atPos file q) =
      ((leafPath tpos.length i).mapM (storedAt tpos.length stored
        (leaves.getD (tpos.length - 1) 0))).elim (.error .abort) .ok := by
  have hsize := h.size
  have hones := logSize_add_ones ((tpos.length - 1) / 2)
  have hleaf : UInt32.ofNat (len + 44 + 36 * tpos.length) - 32 =
      .ofNat (len + 44 + 36 * tpos.length - 32) := by
    rw [UInt32.ofNat_sub (by omega)]
    rfl
  have hinside : ∀ n < 2 ^ 26, decide (UInt32.ofNat (len + 44 + 36 * tpos.length) +
      32 * UInt32.ofNat n < UInt32.ofNat file.length) = decide (n < stored.length) := by
    intro n hn
    rw [ofNat_add_mul, decide_eq_decide, UInt32.lt_iff_toNat_lt, UInt32.toNat_ofNat',
      UInt32.toNat_ofNat', Nat.mod_eq_of_lt (by omega), Nat.mod_eq_of_lt (by omega)]
    omega
  rw [hleaf, hashpath_leafPath hi (by omega)]
  apply Esc.readStored_eq (h.storesTree hfile (by omega)) (toNat_missingHash (by omega))
    (by decide) hinside
  intro n hn
  have hplace := leafPath_lt hi hn
  omega

/-- What a reader finds in the file of a message. -/
theorem hashTreeGet_eq (c : Crypto) (h : TreeFile file rest len root mnum tpos leaves stored)
    (hhead : (Bytes.ofList file rest).uint32 >>> 8 = .ofNat len) (hlen : 0 < len)
    (hfile : file.length < 2 ^ 31) (hcount : tpos.length < 2 ^ 26) {i : Nat}
    (hi : i < tpos.length) (hpos : 0 < tpos.getD i 0)
    (hnext : tpos.getD i 0 < tpos.getD (i + 1) len) (hend : tpos.getD (i + 1) len ≤ len)
    (memory : Bytes) :
    hashTreeGet c memory msgtypeMsg (.atPos file 0) (.ofNat i) =
      ((leafPath tpos.length i).mapM (storedAt tpos.length stored
        (leaves.getD (tpos.length - 1) 0))).elim (.error .abort) fun hs => do
          require (root = hs.foldl (addhash c) (pathStart c leaves i)) .fail
          return {
            data := slice file (tpos.getD i 0) (tpos.getD (i + 1) len - tpos.getD i 0)
            hashes := leafHashes leaves i ++ hs
            mnum } := by
  have hsize := h.size
  have hnat {n : Nat} (hn : n < 2 ^ 31) : (UInt32.ofNat n).toNat = n :=
    UInt32.toNat_ofNat_of_lt' (show n < 2 ^ 32 by omega)
  -- the head of the file
  obtain ⟨blen, hfillLen, hblen⟩ := BlockFileReader.exists_fill memory rest hfile
    (show 0 + 4 ≤ file.length by omega)
  replace hfillLen : BlockFileReader.fill memory (.atPos file 0) 4 = _ := hfillLen
  obtain ⟨bhash, hfillHash, hbhash⟩ := BlockFileReader.exists_fill memory rest hfile
    (show len + 32 ≤ file.length by omega)
  obtain ⟨bmnum, hfillMnum, hbmnum⟩ := BlockFileReader.exists_fill memory rest hfile
    (show len + 32 + 4 ≤ file.length by omega)
  obtain ⟨btotal, hfillTotal, hbtotal⟩ := BlockFileReader.exists_fill memory rest hfile
    (show len + 32 + 4 + 4 ≤ file.length by omega)
  obtain ⟨bcount, hfillCount, hbcount⟩ := BlockFileReader.exists_fill memory rest hfile
    (show len + 32 + 4 + 4 + 4 ≤ file.length by omega)
  have hword {b : Bytes} {p : Nat} (hb : ∀ k < 4, b k = Bytes.ofList file rest (p + k)) :
      b.uint32 = ((Bytes.ofList file rest).skip p).uint32 :=
    Bytes.uint32_congr (Bytes.take_congr hb)
  have hmlen : blen.uint32 >>> 8 = .ofNat len := by
    rw [← hhead, Bytes.uint32_congr (Bytes.take_congr fun k hk => by
      rw [hblen k hk, Nat.zero_add])]
  have hmhash : readHash bhash = root := (readHash_congr hbhash).trans h.root
  have hmmnum : bmnum.uint32 = mnum := (hword hbmnum).trans h.mnum
  have hmtotal : btotal.uint32 = .ofNat file.length := (hword hbtotal).trans h.total
  have hmcount : bcount.uint32 = .ofNat tpos.length := (hword hbcount).trans h.count
  -- the entry and the data
  obtain ⟨q, hentry⟩ := treeEntry_eq h hfile hi memory (len + 32 + 4 + 4 + 4)
  have hsub : UInt32.ofNat (tpos.getD (i + 1) len) - .ofNat (tpos.getD i 0) =
      .ofNat (tpos.getD (i + 1) len - tpos.getD i 0) := by
    rw [UInt32.ofNat_sub hnext.le]
  obtain ⟨bdata, q', hdata, hbdata⟩ := BlockFileReader.exists_fetch memory rest q hfile
    (show tpos.getD i 0 ≤ file.length by omega)
    (show tpos.getD (i + 1) len - tpos.getD i 0 < 2 ^ 31 by omega)
  replace hbdata : FilledAt file rest _ _ bdata := hbdata
  have htake := hbdata.take (by omega)
  have hpath := h.readStored_eq hfile hcount hi memory q'
  have hseek := BlockFileReader.lseek_atPos (0 + 4) hfile (show len ≤ file.length by omega)
  have hopen : (BlockFileReader.atPos file 0).isOpen = true :=
    Bool.and_eq_true_iff.mpr ⟨rfl, decide_eq_true (show 0 < file.length by omega)⟩
  have hlen0 : UInt32.ofNat len ≠ 0 := by
    rw [← UInt32.toNat_inj.ne, hnat (by omega)]
    exact hlen.ne'
  have hcount0 : UInt32.ofNat tpos.length ≠ 0 := by
    rw [← UInt32.toNat_inj.ne, hnat (by omega)]
    exact (Nat.zero_lt_of_lt hi).ne'
  have hlt : UInt32.ofNat i < .ofNat tpos.length := by
    rw [UInt32.lt_iff_toNat_lt, hnat (by omega), hnat (by omega)]
    exact hi
  have hbounds : 0 < UInt32.ofNat (tpos.getD (i + 1) len - tpos.getD i 0) ∧
      UInt32.ofNat (tpos.getD (i + 1) len - tpos.getD i 0) < .ofNat len := by
    rw [UInt32.lt_iff_toNat_lt, UInt32.lt_iff_toNat_lt, hnat (by omega), hnat (by omega)]
    exact ⟨Nat.sub_pos_of_lt hnext, by omega⟩
  have hseekHash : BlockFileReader.fetch memory (.atPos file (0 + 4)) (.ofNat len) 32 =
      .ok (bhash, .atPos file (len + 32)) := by
    rw [BlockFileReader.fetch, BlockFileReader.lseek_atPos (0 + 4) hfile (by omega)]
    exact hfillHash
  replace hfillMnum : BlockFileReader.fill memory (.atPos file (len + 32)) 4 = _ := hfillMnum
  replace hfillTotal : BlockFileReader.fill memory (.atPos file (len + 32 + 4)) 4 = _ := hfillTotal
  replace hfillCount : BlockFileReader.fill memory (.atPos file (len + 32 + 4 + 4)) 4 = _ :=
    hfillCount
  simp only [hashTreeGet, require, hopen, hfillLen, hmlen, hlen0, hseekHash, hfillMnum, hfillTotal,
    hfillCount, hmcount, hcount0, hlt, hentry, hsub, hbounds, hdata, ofNat_entry, hmtotal, hpath,
    hmhash, hmmnum, hashpathrun_leafHashes, bind, Except.bind, if_true, ne_eq, not_false_eq_true,
    and_self]
  rw [hnat (by omega), htake]
  cases (leafPath tpos.length i).mapM (storedAt tpos.length stored
    (leaves.getD (tpos.length - 1) 0)) <;> rfl

end Read

end Esc
