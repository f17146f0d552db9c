import Esc.Command.GetTransaction
import Esc.Message.Assemble

/-!
# When a transaction is received

A transaction of a committed message is received, with hashes that the client accepts, just if its
length fits 16 bits and the places of both paths are found: that of the transaction in the message
and that of the message in the block.
-/

namespace Esc

open Lib Merkle

variable {c : Crypto} {d : Bytes} {cuts : List (Nat × Nat)} {j l mark n tnum : Nat}

/-- A message in a block, with the files of the server and the hashes that a client has. -/
structure CommittedMessage (c : Crypto) where
  data : Bytes
  len : Nat
  svid : UInt16
  msid : UInt32
  tree : TreeMessage
  cuts : List (Nat × Nat)
  /-- The messages of the block, what is in their file, and the place of this one. -/
  msgs : ListedMap
  msglist : List UInt8
  place : Nat
  head : SrvHeader
  lastPath : UInt32
  files : BlockFiles
  nowFile : UInt32 → Option (List UInt8)
  hashTree_eq : hashTree c data len svid msid = .ok tree
  length_eq : (data.skip 1).uint24 = len
  txsCuts_eq : txsCuts c data len (len + 1) (4 + 64 + 10) = .ok (cuts, len)
  listed_eq : (listed msgs)[place]? = some ⟨svid, msid, tree.sigh⟩
  msglPut_eq : ∃ old, msglPut c msgs none old = (⟨head.msg, head.msghash⟩, some msglist)
  length_msglist : msglist.length < 2 ^ 31
  path_ne : head.now ≠ 0
  path_le : head.now ≤ lastPath
  loadPath_eq : files.loadPath svid msid = head.now
  message_eq : files.message head.now svid msid =
    .atPos (saveMnum tree.data len (.ofNat (place + 1))) 0
  msglist_eq : files.msglist head.now = .atPos msglist 0
  header_eq : files.header head.now = some (head.hashnow c)
  loadNowhash_eq : loadNowhash nowFile head.now = some (head.hashnow c).nowhash

namespace CommittedMessage

variable (b : CommittedMessage c)

/-- The number of entries: the head of the message and its transactions. -/
def tmax : Nat := (messageCuts b.cuts).length

/-- The bytes of an entry. -/
def part (tnum : Nat) : List UInt8 := (cutParts b.data (messageCuts b.cuts)).getD tnum []

/-- The client receives the bytes of a transaction and the hashes that were sent, and accepts
them. -/
def Received (memory : Bytes) (tnum : Nat) : Prop :=
  ∃ reply, getTransaction c memory b.lastPath b.files b.svid b.msid (.ofNat tnum) = .ok reply ∧
    reply.errorCode = eNone ∧
    receiveTransaction c b.nowFile b.svid b.msid (.ofNat tnum) reply.bytes =
      some ⟨eNone, reply.res, b.part tnum, reply.hashes⟩

end CommittedMessage

/-- Every transaction of length `l` at position `tnum` of `tmax`, in a message at place `k` of `n`,
is received. -/
def Delivers (tmax tnum n k l : Nat) : Prop :=
  ∀ (c : Crypto) (memory : Bytes) (b : CommittedMessage c), b.tmax = tmax →
    (listed b.msgs).length = n → b.place = k → (b.part tnum).length = l → b.Received memory tnum

/-! ## What the server sends -/

section Sent

variable (b : CommittedMessage c) {memory : Bytes}

theorem toUInt32_ofNat (h16 : tnum < 2 ^ 16) :
    (UInt16.ofNat tnum).toUInt32 = UInt32.ofNat tnum := by
  rw [← UInt32.toNat_inj, UInt16.toNat_toUInt32, UInt16.toNat_ofNat_of_lt' h16,
    UInt32.toNat_ofNat_of_lt' (h16.trans (by decide))]

/-- A response without an error has the bytes and the hashes of the two files. -/
theorem getTransaction_eq_ok (h16 : tnum < 2 ^ 16) {reply : TransactionReply}
    (herror : reply.errorCode = eNone) :
    getTransaction c memory b.lastPath b.files b.svid b.msid (.ofNat tnum) = .ok reply ↔
      ∃ path, hashTreeGet c memory msgtypeMsg
          (.atPos (saveMnum b.tree.data b.len (.ofNat (b.place + 1))) 0) (.ofNat tnum) = .ok path ∧
        ∃ hashes, msglHashTreeGet c memory { now := b.head.now } (some (b.head.hashnow c))
            (.atPos b.msglist 0) b.svid b.msid path.mnum path.hashes = .ok hashes ∧
          reply = ⟨eNone, ⟨b.head.now, b.msid, b.svid, .ofNat tnum, .ofNat path.data.length,
            .ofNat hashes.length⟩, path.data, hashes⟩ := by
  have hpath : ¬ (b.head.now = 0 ∨ b.lastPath < b.head.now) := by
    rw [not_or]
    exact ⟨b.path_ne, UInt32.not_lt.mpr b.path_le⟩
  simp only [getTransaction, b.loadPath_eq, if_neg hpath, b.message_eq, b.msglist_eq, b.header_eq,
    toUInt32_ofNat h16]
  constructor
  · intro h
    split at h
    · cases h
      exact absurd herror (by decide)
    · cases h
    · rename_i path htree
      split at h
      · cases h
        exact absurd herror (by decide)
      · cases h
      · rename_i hashes hlist
        cases h
        exact ⟨path, htree, hashes, hlist, rfl⟩
  · rintro ⟨path, htree, hashes, hlist, rfl⟩
    simp only [htree, hlist]

theorem getElem?_treeLeaves {svid : UInt16} {msid : UInt32} (hpos : 0 < tnum)
    (hlt : tnum < (messageCuts cuts).length) :
    (treeLeaves c d svid msid cuts)[tnum]? =
      some (txsLeaf c ((cutParts d (messageCuts cuts)).getD tnum []) svid msid (.ofNat tnum)) := by
  obtain ⟨i, rfl⟩ : ∃ i, tnum = i + 1 := ⟨tnum - 1, by omega⟩
  have hi : i < cuts.length := Nat.lt_of_succ_lt_succ hlt
  have hpart : (cutParts d cuts)[i]? = some ((cutParts d (messageCuts cuts)).getD (i + 1) []) := by
    show _ = some ((cutParts d cuts).getD i [])
    rw [List.getD_eq_getElem?_getD, cutParts, List.getElem?_map, List.getElem?_eq_getElem hi]
    rfl
  have hposition : (positions 1 (cutParts d cuts).length)[i]? = some (.ofNat (i + 1)) := by
    rw [positions, length_cutParts, List.getElem?_map, List.getElem?_range hi, Option.map_some,
      Nat.add_comm, UInt16.ofNat_add]
    rfl
  exact List.getElem?_zipWith_eq_some.mpr ⟨_, _, hpart, hposition, rfl⟩

/-- The client accepts the hashes from the leaf of a transaction to the hash of the block. -/
theorem checkMessageHash_eq_none {path : TreePath} {more : List Hash} {len hnum : UInt16}
    (hleaf : path.hashes.head? = some (txsLeaf c path.data b.svid b.msid (.ofNat tnum)))
    (hroot : HashTree.hashpathrun c 0 path.hashes = b.tree.sigh)
    (hfold : more.foldl (addhash c) b.tree.sigh = b.head.msghash) :
    checkMessageHash c b.nowFile b.svid b.msid (.ofNat tnum)
      ⟨b.head.now, b.msid, b.svid, .ofNat tnum, len, hnum⟩ path.data
      (path.hashes ++ more ++ [(b.head.hashnow c).minhash]) = eNone := by
  have hne : path.hashes ≠ [] := by
    intro hnil
    rw [hnil] at hleaf
    cases hleaf
  have hhead : (path.hashes ++ more ++ [(b.head.hashnow c).minhash]).head? =
      some (txsLeafWords c path.data b.svid b.msid (.ofNat tnum)) := by
    rw [List.append_assoc, List.head?_append, hleaf, txsLeafWords_eq]
    rfl
  have hrun : HashTree.hashpathrun c (txsLeafWords c path.data b.svid b.msid (.ofNat tnum))
      (path.hashes ++ more ++ [(b.head.hashnow c).minhash]) = (b.head.hashnow c).nowhash := by
    rw [List.append_assoc, hashpathrun_append hne _ 0, hroot, List.foldl_append, hfold,
      nowhash_hashnow]
    rfl
  simp only [checkMessageHash, b.path_ne, b.loadNowhash_eq, hhead, hrun, ne_eq, not_true_eq_false,
    or_self, if_false]

/-- A transaction is received if its length fits and both paths are found. -/
theorem delivers_of_pathStored {k : Nat} {tmax : Nat} (hpos : 0 < tnum) (hlt : tnum < tmax)
    (h16 : tnum < 2 ^ 16) (hl : l < 2 ^ 16) (hpath : PathStored tmax tnum)
    (hlist : PathStored n k) : Delivers tmax tnum n k l := by
  intro c memory b htmax hn hk hlength
  obtain ⟨path, hget, hof⟩ := findsPath_of_pathStored hlt hpath c memory b.data b.len b.svid b.msid
    b.tree b.cuts (.ofNat (b.place + 1)) b.hashTree_eq b.length_eq b.txsCuts_eq htmax
  have hleaf := hof.leaf
  rw [getElem?_treeLeaves hpos (by rw [← htmax] at hlt; exact hlt)] at hleaf
  have hne : path.hashes ≠ [] := by
    intro hnil
    rw [hnil] at hleaf
    cases hleaf
  obtain ⟨old, hput⟩ := b.msglPut_eq
  have hlisted := b.listed_eq
  rw [hk] at hlisted
  obtain ⟨more, hmsgl, hfold, hnow⟩ := findsListPath_of_pathStored hlist c memory b.msgs old
    b.msglist _ b.head { now := b.head.now } (some (b.head.hashnow c)) _ path.hashes hput
    b.length_msglist hn hlisted rfl rfl (.inr ⟨rfl, .inr rfl, rfl⟩) hne hof.root
  rw [← hk, ← hof.mnum] at hmsgl
  have hdata : path.data = b.part tnum := hof.data
  rw [← hof.data] at hleaf
  rw [← hdata] at hlength
  have hlen : (UInt16.ofNat path.data.length).toNat = path.data.length :=
    UInt16.toNat_ofNat_of_lt' (hlength.trans_lt hl)
  have hnum : (UInt16.ofNat (path.hashes ++ more ++ [(b.head.hashnow c).minhash]).length).toNat =
      (path.hashes ++ more ++ [(b.head.hashnow c).minhash]).length := by
    apply UInt16.toNat_ofNat_of_lt'
    have htree := length_of_hashTreeGet hget
    have hall := length_of_msglHashTreeGet hmsgl
    show _ < 2 ^ 16
    omega
  refine ⟨_, (getTransaction_eq_ok b h16 rfl).mpr ⟨path, hget, _, hmsgl, rfl⟩, rfl, ?_⟩
  rw [receiveTransaction_of_fits rfl hlen hnum, checkMessageHash_eq_none b hleaf hof.root hfold,
    hdata]

end Sent

/-- The field for the length has 16 bits. -/
theorem CommittedMessage.Received.length_lt {b : CommittedMessage c} {memory : Bytes}
    (h : b.Received memory tnum) : (b.part tnum).length < 2 ^ 16 := by
  obtain ⟨reply, -, herror, hreceive⟩ := h
  have hlength := length_of_receiveTransaction herror hreceive
  exact hlength.trans_lt reply.res.len.toNat_lt

/-! ## Messages and blocks that exist -/

/-- The hash of a row has a mark just if a leaf has. -/
theorem treeRoot_mark {P : Hash → Prop} (hP : KeepsMark c P) {leaves : List Hash}
    (hpos : 0 < leaves.length) (hlt : leaves.length < 2 ^ 31) :
    P (treeRoot c leaves) ↔ ∃ j < leaves.length, P (leaves.getD j 0) := by
  have hnode : treeRoot c leaves =
      node (addhash c) (fun j => leaves.getD j 0) (leaves.length - 1) 32 0 :=
    treeRoot_eq c hpos hlt
  rw [hnode, node_mark hP _ (Nat.zero_le _)]
  constructor
  · rintro ⟨j, hj, -, h⟩
    exact ⟨j, by omega, h⟩
  · rintro ⟨j, hj, h⟩
    exact ⟨j, by omega, Nat.div_eq_of_lt (by omega), h⟩

namespace Sample

/-- A hash function that marks the entries that start with four given bytes. -/
def tagCrypto : Crypto where
  sha256 bytes :=
    if bytes.length = 64 then markCrypto.sha256 bytes
    else if bytes.take 4 = [0, 1, 0, 0] then BitVec.intMin 256 else 0
  signOpen _ _ _ := true
  strayLength _ := none

theorem keepsMark_tag : KeepsMark tagCrypto fun h => h.msb = true := by
  intro a b
  have hsha (x y : Hash) : tagCrypto.sha256 (hashBytes x ++ hashBytes y) =
      markCrypto.sha256 (hashBytes x ++ hashBytes y) := by
    have hlength : (hashBytes x ++ hashBytes y).length = 64 := by simp
    simp only [tagCrypto, hlength, if_true]
  have hadd : addhash tagCrypto a b = addhash markCrypto a b := by
    rw [addhash, addhash, hsha, hsha]
  rw [hadd]
  exact keepsMark_msb a b

/-- An empty placeholder of a length. -/
def emptyEntry (l : Nat) : List UInt8 := 0 :: (bytesLE 3 l ++ List.replicate (l - 4) 0)

theorem length_emptyEntry (hl : 4 ≤ l) : (emptyEntry l).length = l := by
  rw [emptyEntry, List.length_cons, List.length_append, length_bytesLE, List.length_replicate]
  omega

theorem getSize_emptyEntry (c : Crypto) (hlt : l < 2 ^ 24) (bs : List UInt8) :
    getSize c (Bytes.ofList (0 :: (bytesLE 3 l ++ bs)) fun _ => 0) = some (max 4 l) := by
  have hskip : (Bytes.ofList (0 :: (bytesLE 3 l ++ bs)) fun _ => 0).skip 1 =
      Bytes.ofList (bytesLE 3 l ++ bs) fun _ => 0 :=
    Bytes.skip_ofList_append (l := [0]) rfl _ _
  have huint : ((Bytes.ofList (0 :: (bytesLE 3 l ++ bs)) fun _ => 0).skip 1).uint24 = l := by
    rw [hskip, Bytes.uint24, Bytes.take_ofList_append (length_bytesLE 3 l), ofLE_bytesLE]
    omega
  rw [getSize, huint]
  rfl

theorem isTxs_emptyEntry (c : Crypto) (hl : 4 ≤ l) (hlt : l < 2 ^ 24) : IsTxs c (emptyEntry l) := by
  refine ⟨show (0 : UInt8) < 28 by decide, ?_⟩
  rw [length_emptyEntry hl, emptyEntry, getSize_emptyEntry c hlt, Nat.max_eq_right hl]

/-- The entries of a message: one is marked, one has a length of its own. -/
def entry (mark tnum l j : Nat) : List UInt8 :=
  if j = mark then [0, 1, 0, 0] else emptyEntry (if j = tnum then l else 4)

theorem isTxs_entry (c : Crypto) (hl : 4 ≤ l) (hlt : l < 2 ^ 24) :
    IsTxs c (entry mark tnum l j) := by
  rw [entry]
  split
  · exact ⟨by decide, getSize_emptyEntry c (l := 1) (by decide) []⟩
  · apply isTxs_emptyEntry c
    · split <;> omega
    · split <;> omega

theorem length_entry (hl : 4 ≤ l) (hmark : tnum ≠ mark) (j : Nat) :
    (entry mark tnum l j).length = if j = tnum then l else 4 := by
  rw [entry]
  split
  · rw [if_neg (by omega)]
    rfl
  · apply length_emptyEntry
    split <;> omega

def entries (mark tnum l tmax : Nat) : List (List UInt8) :=
  (List.range (tmax - 1)).map fun i => entry mark tnum l (i + 1)

theorem length_entries {tmax : Nat} (hl : 4 ≤ l) (hmark : tnum ≠ mark) (hpos : 0 < tnum)
    (hlt : tnum < tmax) :
    (entries mark tnum l tmax).flatten.length = 4 * (tmax - 2) + l := by
  have hsum (n : Nat) : (((List.range n).map fun i => entry mark tnum l (i + 1)).map
      List.length).sum = 4 * n + if tnum ≤ n then l - 4 else 0 := by
    induction n with
    | zero => rw [if_neg (by omega)]; rfl
    | succ n ih =>
      rw [List.range_succ, List.map_append, List.map_append, List.sum_append, ih]
      show _ + ((entry mark tnum l (n + 1)).length + 0) = _
      rw [length_entry hl hmark]
      split <;> split <;> split <;> omega
  rw [List.length_flatten, entries, hsum, if_pos (by omega)]
  omega

def entryHead (mark : Nat) : List UInt8 :=
  if mark = 0 then [0, 1, 0, 0, 0, 0, 0, 0, 0, 0] else List.replicate 10 0

theorem length_entryHead (mark : Nat) : (entryHead mark).length = 10 := by
  rw [entryHead]
  split <;> rfl

theorem msb_emptyEntry (hl : 4 ≤ l) (hlt : l < 2 ^ 24) :
    (tagCrypto.sha256 (emptyEntry l)).msb = false := by
  by_cases h64 : l = 64
  · subst h64
    decide +kernel
  · have htake : (emptyEntry l).take 4 = 0 :: bytesLE 3 l := by
      rw [emptyEntry, List.take_succ_cons, List.take_left' (length_bytesLE 3 l)]
    have hne : (emptyEntry l).take 4 ≠ [0, 1, 0, 0] := by
      rw [htake]
      intro heq
      have hvalue := congrArg ofLE (List.cons.inj heq).2
      rw [ofLE_bytesLE, show ofLE [1, 0, 0] = 1 from rfl] at hvalue
      omega
    rw [tagCrypto]
    dsimp only
    rw [if_neg (by rw [length_emptyEntry hl]; exact h64), if_neg hne]
    decide

/-- One entry is marked. -/
theorem msb_entry (hl : 4 ≤ l) (hlt : l < 2 ^ 24) (j : Nat) :
    (tagCrypto.sha256 (entry mark tnum l j)).msb = true ↔ j = mark := by
  rw [entry]
  split
  case isTrue h =>
    refine iff_of_true ?_ h
    decide +kernel
  case isFalse h =>
    refine iff_of_false ?_ h
    rw [Bool.not_eq_true]
    apply msb_emptyEntry
    · split <;> omega
    · split <;> omega

theorem msb_entryHead (mark : Nat) : (tagCrypto.sha256 (entryHead mark)).msb = true ↔ mark = 0 := by
  rw [entryHead]
  split
  case isTrue h => exact iff_of_true (by decide +kernel) h
  case isFalse h => exact iff_of_false (by decide +kernel) h

end Sample

section Instances

open Sample

variable {tmax : Nat}

theorem getElem?_entries (hj : j + 1 < tmax) :
    (entries mark tnum l tmax)[j]? = some (entry mark tnum l (j + 1)) := by
  rw [entries, List.getElem?_map, List.getElem?_range (by omega), Option.map_some]

/-- The marked entry has the marked leaf. -/
theorem msb_treeLeaves_entries {len : Nat} {m : TreeMessage} (hl : 4 ≤ l) (hlt : l < 2 ^ 24)
    (h : Assembled tagCrypto d len 1 1 m cuts (entryHead mark) (entries mark tnum l tmax))
    (hcuts : (messageCuts cuts).length = tmax) (hj : j < tmax) :
    ((treeLeaves tagCrypto d 1 1 cuts).getD j 0).msb = true ↔ j = mark := by
  have hparts := h.parts_eq
  cases j with
  | zero =>
    have hhead : (d.skip (4 + 64)).take 10 = entryHead mark := (List.cons.inj hparts).1
    show (tagCrypto.sha256 _).msb = true ↔ _
    rw [hhead, msb_entryHead, eq_comm]
  | succ j =>
    rw [List.getD_eq_getElem?_getD,
      getElem?_treeLeaves (Nat.succ_pos j) (hj.trans_eq hcuts.symm), hparts, List.getD_cons_succ,
      List.getD_eq_getElem?_getD, getElem?_entries hj, Option.getD_some, Option.getD_some,
      msb_txsLeaf_eq, msb_entry hl hlt]

/-- A message with a transaction of length `l`, in which another entry is marked or none. -/
theorem exists_message (hpos : 0 < tnum) (hlt : tnum < tmax) (hl : 4 ≤ l)
    (hlen : 4 + 64 + 10 + 4 * (tmax - 2) + l < 2 ^ 24) (hcounter : tmax % 2 ^ 16 ≠ 0)
    (hmark : tnum ≠ mark) :
    ∃ d len m cuts, Assembled tagCrypto d len 1 1 m cuts (entryHead mark)
        (entries mark tnum l tmax) ∧ (messageCuts cuts).length = tmax := by
  have hlength := length_entries hl hmark hpos hlt
  have hcount : (entries mark tnum l tmax).length = tmax - 1 := by
    rw [entries, List.length_map, List.length_range]
  have hassembled : ∃ m cuts, Assembled tagCrypto
      (assemble (entryHead mark) (entries mark tnum l tmax))
      (4 + 64 + 10 + (entries mark tnum l tmax).flatten.length) 1 1 m cuts (entryHead mark)
      (entries mark tnum l tmax) := by
    apply exists_assembled (length_entryHead mark)
    · intro t ht
      obtain ⟨i, -, rfl⟩ := List.mem_map.mp ht
      exact isTxs_entry tagCrypto hl (by omega)
    · exact List.ne_nil_of_length_pos (by omega)
    · omega
    · rw [hcount]
      omega
    · decide
    · decide
  obtain ⟨m, cuts, h⟩ := hassembled
  refine ⟨_, _, m, cuts, h, ?_⟩
  rw [← length_cutParts (assemble (entryHead mark) (entries mark tnum l tmax)), h.parts_eq,
    List.length_cons, hcount]
  omega

/-- A row of messages with a given one at place `k`. -/
def blockRow (k : Nat) (own : Hash) (others : Nat → Hash) (i : Nat) : ListedMsg :=
  if i = k then ⟨1, 1, own⟩ else ⟨1, .ofNat (i + 2), others i⟩

/-- The given message is committed in a block with the others. -/
theorem exists_committed {len : Nat} {m : TreeMessage} {head : List UInt8}
    {parts : List (List UInt8)} (h : Assembled c d len 1 1 m cuts head parts) {k : Nat} (hk : k < n)
    (hn : 4 + 32 + (2 + 4 + 32) * n + 4 + 32 * (n - 1) < 2 ^ 31) (others : Nat → Hash) :
    ∃ b : CommittedMessage c, b.data = d ∧ b.len = len ∧ b.svid = 1 ∧ b.msid = 1 ∧ b.tree = m ∧
      b.cuts = cuts ∧ b.place = k ∧
      listed b.msgs = (List.range n).map (blockRow k m.sigh others) := by
  obtain ⟨map, hmap⟩ := exists_listed (show n < 2 ^ 64 by omega) (blockRow k m.sigh others)
  have hlisted : (listed map)[k]? = some ⟨1, 1, m.sigh⟩ := by
    rw [hmap, List.getElem?_map, List.getElem?_range hk, Option.map_some, blockRow, if_pos rfl]
  have hlength : (listed map).length = n := by
    rw [hmap, List.length_map, List.length_range]
  have hfile := length_overwrite_lt (c := c) (show 0 < (listed map).length by omega) (by omega)
  obtain ⟨block, hblock⟩ : ∃ block : SrvHeader, block = { now := 0x100000
                                                          msg := .ofNat (listed map).length
                                                          msghash := listHash c (listed map) } :=
    ⟨_, rfl⟩
  have hnow : block.now = 0x100000 := by rw [hblock]
  have hload : UInt32.ofNat (ofLE (slice (bytesLE 4 0 ++ bytesLE 4 0x100000) 4 4)) = 0x100000 := by
    decide
  refine ⟨{ data := d, len, svid := 1, msid := 1, tree := m, cuts, msgs := map
            msglist := overwrite (msglistBytes c (listed map)) []
            place := k
            head := block
            lastPath := 0x100000
            files := {
              inx := fun _ => some (bytesLE 4 0 ++ bytesLE 4 0x100000)
              message := fun _ _ _ => .atPos (saveMnum m.data len (.ofNat (k + 1))) 0
              msglist := fun _ => .atPos (overwrite (msglistBytes c (listed map)) []) 0
              header := fun _ => some (block.hashnow c) }
            nowFile := fun _ => some (hashCodec.encode (block.hashnow c).nowhash ++ [])
            hashTree_eq := h.hashTree_eq
            length_eq := h.length_eq
            txsCuts_eq := h.txsCuts_eq
            listed_eq := hlisted
            msglPut_eq := ⟨[], by rw [hblock]; rfl⟩
            length_msglist := hfile
            path_ne := by rw [hnow]; decide
            path_le := by rw [hnow]; decide
            loadPath_eq := by rw [hnow]; exact hload
            message_eq := rfl
            msglist_eq := rfl
            header_eq := rfl
            loadNowhash_eq := ?_ }, rfl, rfl, rfl, rfl, rfl, rfl, rfl, hmap⟩
  have hoffset : (((0x100000 : UInt32) &&& 0xFFFFF) / blockSec).toNat * 32 = 0 := by decide
  rw [loadNowhash, hnow]
  simp only [hoffset, Option.bind_eq_bind, Option.bind_some, List.drop_zero, Codec.read_append,
    Option.pure_def]

variable {k : Nat} (hpos : 0 < tnum) (hlt : tnum < tmax) (h16 : tnum < 2 ^ 16) (hk : k < n)
  (hn : 4 + 32 + (2 + 4 + 32) * n + 4 + 32 * (n - 1) < 2 ^ 31) (hl : 4 ≤ l)
  (hlen : 4 + 64 + 10 + 4 * (tmax - 2) + l < 2 ^ 24) (hcounter : tmax % 2 ^ 16 ≠ 0)

include hpos hlt hk hn hl hlen hcounter in
/-- A block with such a transaction, of which the client receives the path. -/
theorem exists_received (h : Delivers tmax tnum n k l) (hmark : tnum ≠ mark)
    (others : Hash → Nat → Hash) :
    ∃ b : CommittedMessage tagCrypto, b.tmax = tmax ∧ b.place = k ∧ b.svid = 1 ∧ b.msid = 1 ∧
      (b.part tnum).length = l ∧
      listed b.msgs = (List.range n).map (blockRow k b.tree.sigh (others b.tree.sigh)) ∧
      (∀ j < tmax, ((treeLeaves tagCrypto b.data 1 1 b.cuts).getD j 0).msb = true ↔ j = mark) ∧
      b.Received (fun _ => 0) tnum := by
  obtain ⟨d, len, m, cuts, hassembled, hcuts⟩ := exists_message hpos hlt hl hlen hcounter hmark
  obtain ⟨b, rfl, rfl, hsvid, hmsid, rfl, rfl, hplace, hlisted⟩ := exists_committed hassembled hk hn
    (others m.sigh)
  have hpart : (b.part tnum).length = l := by
    obtain ⟨i, rfl⟩ : ∃ i, tnum = i + 1 := ⟨tnum - 1, by omega⟩
    rw [CommittedMessage.part, hassembled.parts_eq, List.getD_cons_succ,
      List.getD_eq_getElem?_getD, getElem?_entries hlt, Option.getD_some, length_entry hl hmark,
      if_pos rfl]
  refine ⟨b, hcuts, hplace, hsvid, hmsid, hpart, hlisted, fun j hj =>
    msb_treeLeaves_entries hl (by omega) hassembled hcuts hj, ?_⟩
  refine h tagCrypto _ b hcuts ?_ hplace hpart
  rw [hlisted, List.length_map, List.length_range]

include hpos hlt h16 hk hn hl hlen hcounter in
theorem pathStored_of_delivers (h : Delivers tmax tnum n k l) : PathStored tmax tnum := by
  by_contra hpath
  have heven : tmax % 2 = 0 := by
    by_contra hodd
    exact hpath (.inl (by omega))
  obtain ⟨p, -, hne, hlost⟩ := exists_lost_leaf tagCrypto keepsMark_tag heven hlt (by omega) hpath
  obtain ⟨b, htmax, -, hsvid, hmsid, -, -, hmark, reply, hreply, herror, -⟩ :=
    exists_received hpos hlt hk hn hl hlen hcounter h hne fun _ _ => 0
  obtain ⟨path, hget, -⟩ := (getTransaction_eq_ok b h16 herror).mp hreply
  have htree := b.hashTree_eq
  rw [hsvid, hmsid] at htree
  have hleaves : (treeLeaves tagCrypto b.data 1 1 b.cuts).length = tmax :=
    ((length_treeLeaves _ _ _ _ _).trans (List.length_map _)).trans htmax
  obtain ⟨hroot, hstart, hread⟩ := hlost _ hleaves hmark
  rw [← htmax] at hread
  exact hashTreeGet_of_lost keepsMark_tag htree b.length_eq b.txsCuts_eq
    (hlt.trans_eq htmax.symm) _ _ hroot hstart hread path hget

include hpos hlt h16 hk hn hl hlen hcounter in
theorem pathStored_list_of_delivers (h : Delivers tmax tnum n k l) : PathStored n k := by
  have hstored := pathStored_of_delivers hpos hlt h16 hk hn hl hlen hcounter h
  by_contra hpath
  have heven : n % 2 = 0 := by
    by_contra hodd
    exact hpath (.inl (by omega))
  obtain ⟨p, -, hne, hlost⟩ := exists_lost_leaf tagCrypto keepsMark_tag heven hk (by omega) hpath
  obtain ⟨b, htmax, hplace, hsvid, hmsid, -, hlisted, hmark, reply, hreply, herror, -⟩ :=
    exists_received hpos hlt hk hn hl hlen hcounter h hlt.ne fun _ i =>
      if i = 2 * p then BitVec.intMin 256 else 0
  have hleaves : (treeLeaves tagCrypto b.data 1 1 b.cuts).length = tmax :=
    ((length_treeLeaves _ _ _ _ _).trans (List.length_map _)).trans htmax
  have hsigh : ¬ b.tree.sigh.msb = true := by
    have htree := b.hashTree_eq
    rw [hsvid, hmsid] at htree
    rw [(saveMnum_eq htree b.txsCuts_eq 0).1, treeRoot_mark keepsMark_tag (by omega) (by omega),
      hleaves]
    rintro ⟨j, hj, hmsb⟩
    exact hj.ne ((hmark j hj).mp hmsb)
  have hlength : (listed b.msgs).length = n := by
    rw [hlisted, List.length_map, List.length_range]
  have hmarks :
      ∀ j < n, (((listed b.msgs).map ListedMsg.sigh).getD j 0).msb = true ↔ j = 2 * p := by
    intro j hj
    rw [hlisted, List.map_map, List.getD_eq_getElem?_getD, List.getElem?_map,
      List.getElem?_range hj, Option.map_some, Option.getD_some, Function.comp_apply, blockRow]
    split
    · rename_i hjk
      exact iff_of_false hsigh (by omega)
    · exact msb_ite _
  obtain ⟨hroot, hstart, hread⟩ := hlost ((listed b.msgs).map ListedMsg.sigh)
    ((List.length_map _).trans hlength) hmarks
  -- the transaction is found in its message
  obtain ⟨path, hget, hashes, hmsgl, -⟩ := (getTransaction_eq_ok b h16 herror).mp hreply
  obtain ⟨path', hget', hof⟩ := findsPath_of_pathStored hlt hstored tagCrypto (fun _ => 0) b.data
    b.len b.svid b.msid b.tree b.cuts (.ofNat (b.place + 1)) b.hashTree_eq b.length_eq b.txsCuts_eq
    htmax
  cases hget.symm.trans hget'
  have hhashes : path.hashes ≠ [] := by
    intro hnil
    have hleaf := hof.leaf
    rw [hnil, getElem?_treeLeaves hpos (hlt.trans_eq htmax.symm)] at hleaf
    cases hleaf
  -- and the message is not found in its block
  obtain ⟨old, hput⟩ := b.msglPut_eq
  obtain ⟨hhead, hfile⟩ := msglPut_none hput
  obtain ⟨hmsg, hmsghash⟩ := ListHeader.mk.inj hhead
  obtain ⟨tail, -, hbytes⟩ := overwrite_msglistBytes tagCrypto
    (show 0 < (listed b.msgs).length by omega) (by omega) old
  have hsmall := b.length_msglist
  rw [hfile, hbytes] at hmsgl hsmall
  have hkm : k < (listed b.msgs).length := hk.trans_eq hlength.symm
  have hown : (listed b.msgs)[k] = ⟨b.svid, b.msid, b.tree.sigh⟩ := by
    have hat := b.listed_eq
    rw [hplace, List.getElem?_eq_getElem hkm] at hat
    exact Option.some.inj hat
  have hload : SrvHeader.Loads { now := b.head.now } (some (b.head.hashnow tagCrypto))
      (b.head.hashnow tagCrypto) := .inr ⟨rfl, .inr rfl, rfl⟩
  rw [← hlength] at hread
  rw [hof.mnum, hplace] at hmsgl
  refine msglHashTreeGet_of_lost keepsMark_tag (listFile_listFileBytes _ _ _ tail fun _ => 0) hsmall
    hkm (fun _ => 0) hload hmsg (hmsghash.trans (listHash_eq _ _)) hhashes
    (hof.root.trans (by rw [hown])) hroot hstart hread hashes ?_
  rw [hown]
  exact hmsgl

/-- Every transaction of length `l` at a position of a message and a place of a block is received
and accepted, if and only if its length fits 16 bits, and the number of entries is odd or no place
of its path is 1024 or more, and the same for the message in the block. -/
theorem getTransaction_iff {n k tmax tnum l : Nat} (hpos : 0 < tnum) (hlt : tnum < tmax)
    (h16 : tnum < 2 ^ 16) (hk : k < n)
    (hn : 4 + 32 + (2 + 4 + 32) * n + 4 + 32 * (n - 1) < 2 ^ 31) (hl : 4 ≤ l)
    (hlen : 4 + 64 + 10 + 4 * (tmax - 2) + l < 2 ^ 24) (hcounter : tmax % 2 ^ 16 ≠ 0) :
    Delivers tmax tnum n k l ↔ l < 2 ^ 16 ∧ PathStored tmax tnum ∧ PathStored n k := by
  constructor
  · intro h
    obtain ⟨b, -, -, -, -, hpart, -, -, hreceived⟩ :=
      exists_received hpos hlt hk hn hl hlen hcounter h hlt.ne fun _ _ => 0
    exact ⟨hpart ▸ hreceived.length_lt,
      pathStored_of_delivers hpos hlt h16 hk hn hl hlen hcounter h,
      pathStored_list_of_delivers hpos hlt h16 hk hn hl hlen hcounter h⟩
  · rintro ⟨hl16, hpath, hlist⟩
    exact delivers_of_pathStored hpos hlt h16 hl16 hpath hlist

/-- The first of 1025 transactions, of the largest length, in the second of 1026 messages. -/
theorem getTransaction_65535 : Delivers 1026 1 1026 1 65535 :=
  (getTransaction_iff (by decide) (by decide) (by decide) (by decide) (by decide) (by decide)
    (by decide) (by decide)).mpr ⟨by decide, by decide +kernel, by decide +kernel⟩

namespace Sample

/-- A payment to `n` accounts, without its contents. -/
def payments (n : Nat) : List UInt8 :=
  (5 :: List.replicate 14 0) ++ (bytesLE 2 n ++ List.replicate (64 + n * (6 + 8)) 0)

theorem length_payments (n : Nat) : (payments n).length = 81 + n * 14 := by
  rw [payments, List.length_append, List.length_append, length_bytesLE, List.length_replicate,
    List.length_cons, List.length_replicate]
  omega

theorem isTxs_payments (c : Crypto) (hn : n < 2 ^ 16) : IsTxs c (payments n) := by
  have hcount : ((Bytes.ofList (payments n) fun _ => 0).skip (1 + 14)).uint16.toNat = n := by
    rw [payments,
      Bytes.skip_ofList_append (show (5 :: List.replicate 14 0).length = 1 + 14 from rfl),
      Bytes.uint16, Bytes.take_ofList_append (length_bytesLE 2 n), ofLE_bytesLE,
      UInt16.toNat_ofNat']
    show n % 2 ^ 16 % 2 ^ 16 = n
    omega
  refine ⟨show (5 : UInt8) < 28 by decide, ?_⟩
  rw [getSize, hcount, length_payments]
  rfl

end Sample

/-- A payment to five thousand accounts takes 70081 bytes, and is never received. -/
theorem getTransaction_70081 :
    ∃ (c : Crypto) (b : CommittedMessage c), b.tmax = 2 ∧ b.part 1 = payments 5000 ∧
      (b.part 1).length = 70081 ∧ ∀ memory, ¬ b.Received memory 1 := by
  obtain ⟨m, cuts, h⟩ : ∃ m cuts, Assembled tagCrypto
      (assemble (entryHead 1) [payments 5000]) (4 + 64 + 10 + [payments 5000].flatten.length) 1 1 m
      cuts (entryHead 1) [payments 5000] := by
    apply exists_assembled (length_entryHead 1)
    · intro t ht
      rw [List.mem_singleton.mp ht]
      exact isTxs_payments tagCrypto (by decide)
    · exact List.cons_ne_nil _ _
    · rw [List.flatten_cons, List.flatten_nil, List.append_nil, length_payments]
      decide
    · rw [List.length_singleton]
      decide
    · decide
    · decide
  obtain ⟨b, hdata, -, -, -, -, hcuts, -⟩ := exists_committed h (show 0 < 1 by decide) (by decide)
    fun _ => 0
  have hparts : cutParts b.data (messageCuts b.cuts) = [entryHead 1, payments 5000] := by
    rw [hdata, hcuts, h.parts_eq]
  have hpart : b.part 1 = payments 5000 := by
    rw [CommittedMessage.part, hparts, List.getD_cons_succ, List.getD_cons_zero]
  have hlength : (b.part 1).length = 70081 := by
    rw [hpart, length_payments]
  refine ⟨tagCrypto, b, ?_, hpart, hlength, fun memory hreceived => ?_⟩
  · rw [CommittedMessage.tmax, ← length_cutParts b.data, hparts]
    rfl
  · have hlt := hreceived.length_lt
    rw [hlength] at hlt
    exact absurd hlt (by decide)

end Instances

end Esc
