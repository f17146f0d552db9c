import Esc.Lib.Slices
import Esc.Message.HashTree
import Esc.Peer.BankTransfer
import Esc.Server.TxsInsert

/-!
# The list of messages of a block

`msgl_put` writes the messages of a block in the order of their keys into the file
`msglist.dat`, behind their number and the hash of their hash tree. `msgl_load` reads the
file of the node itself, `msgl_process` the list that a peer has sent. Both leave the
records to `msgl_map`, which counts them in 16 bits while the header counts them in 32.

Keys depend on the node: they hold the byte of the message hash that the node has
chosen. The flags of a message and the number that `save_mnum` adds to its file are left
out, and a file is read as the system reads it.
-/

namespace Esc

open Lib

variable {i mysvid reader : UInt16} {ms : List ListedMsg} {fuel n : Nat} {map : ListedMap}
  {a b : ListedMsg} {h : ListHeader}

/-- What a message list holds of a message. -/
structure ListedMsg where
  svid : UInt16
  msid : UInt32
  sigh : Hash
deriving DecidableEq, Repr

/-- The message id of a double spend. -/
def dblMsid : UInt32 := 0xffffffff

/-- The bytes of `hash`: the hash byte, the type, the message id and the node id. -/
def hashNum (hashval type : UInt8) (msid : UInt32) (svid : UInt16) : UInt64 :=
  .ofNat (hashval.toNat + 2 ^ 8 * type.toNat + 2 ^ 16 * msid.toNat + 2 ^ 48 * svid.toNat)

namespace ListedMsg

/-- `hashval` asserts that the message hash has a bit that is not set. -/
def hashval (mysvid : UInt16) (m : ListedMsg) : Option UInt8 :=
  if m.sigh = BitVec.allOnes 256 then none else some (Txs.hashval mysvid m.sigh)

/-- `hash.num` of the message that the constructor makes of an entry. -/
def num (mysvid : UInt16) (m : ListedMsg) : Option UInt64 :=
  if m.msid = dblMsid then some (hashNum 0 msgtypeDbl m.msid m.svid)
  else (m.hashval mysvid).map fun val => hashNum val msgtypeMsg m.msid m.svid

def encode (m : ListedMsg) : List UInt8 :=
  bytesLE 2 m.svid.toNat ++ (bytesLE 4 m.msid.toNat ++ hashBytes m.sigh)

def decode (bs : List UInt8) : ListedMsg where
  svid := .ofNat (ofLE (bs.take 2))
  msid := .ofNat (ofLE ((bs.drop 2).take 4))
  sigh := .ofNat 256 (ofLE ((bs.drop 6).take 32))

theorem decode_encode (m : ListedMsg) (rest : List UInt8) : decode (m.encode ++ rest) = m := by
  simp only [decode, encode, hashBytes, List.append_assoc]
  simp (disch := simp) only [List.drop_append, List.drop_of_length_le, List.take_append,
    List.take_of_length_le, length_bytesLE, List.nil_append, Nat.sub_self, List.drop_zero,
    List.take_zero, List.append_nil, Nat.reduceSub, ofLE_bytesLE, ofNat_toNat_mod32,
    ofNat_toNat_mod16, ofNat_toNat_mod256]

end ListedMsg

def listedCodec : Codec ListedMsg where
  width := 2 + 4 + 32
  encode := ListedMsg.encode
  decode := ListedMsg.decode
  length_encode m := by simp [ListedMsg.encode]
  decode_encode := ListedMsg.decode_encode

/-- The hash tree after a list of messages. -/
def listTree (c : Crypto) (ms : List ListedMsg) : HashTree :=
  ms.foldl (fun tree m => tree.update c m.sigh) .empty

def listHash (c : Crypto) (ms : List ListedMsg) : Hash := (listTree c ms).finish c

/-- `hashes` of the tree after `finish`. -/
def listHashes (c : Crypto) (ms : List ListedMsg) : List Hash :=
  (ms.foldl (fun (t : HashTree × List Hash) m =>
    (t.1.update c m.sigh, t.2 ++ t.1.joins c m.sigh)) (.empty, [])).2 ++
    (listTree c ms).finishJoins c none

/-- The fields of `servers` that describe the list. -/
structure ListHeader where
  msg : UInt32
  msghash : Hash
deriving DecidableEq

abbrev ListedMap := Map UInt64 ListedMsg

/-- The messages in the order of their keys. -/
def listed (map : ListedMap) : List ListedMsg := map.toList.map Prod.snd

/-- The inner hashes without the last one, behind their number. -/
def hashesBytes (hashes : List Hash) : List UInt8 :=
  bytesLE 4 (hashes.length - 1) ++
    (hashes.take ((hashes.length - 1) % 2 ^ 32)).flatMap hashBytes

/-- What `msgl_put` writes. -/
def msglistBytes (c : Crypto) (ms : List ListedMsg) : List UInt8 :=
  bytesLE 4 ms.length ++ (hashBytes (listHash c ms) ++ (listedCodec.encodeAll ms ++
    hashesBytes (listHashes c ms)))

/-- The file is not truncated: what was longer stays. -/
def overwrite (bytes old : List UInt8) : List UInt8 := bytes ++ old.drop bytes.length

/-- `msgl_put`: the header, and the file unless the hash is not the expected one. -/
def msglPut (c : Crypto) (map : ListedMap) (cmphash : Option Hash) (old : List UInt8) :
    ListHeader × Option (List UInt8) :=
  let ms := listed map
  let header : ListHeader := ⟨.ofNat ms.length, listHash c ms⟩
  if cmphash.any (· ≠ header.msghash) then (header, none)
  else (header, some (overwrite (msglistBytes c ms) old))

/-- The length of a list with its hash, computed in 32 bits. -/
def ListHeader.size (h : ListHeader) : Nat := (32 + h.msg * (2 + 4 + 32)).toNat

def msglGet (h : ListHeader) (file : List UInt8) : List UInt8 := slice file 4 h.size

/-- The loop of `msgl_map`; `none` if it has not ended within the fuel, or on the
assertion. -/
def msglMap (mysvid : UInt16) (msg : UInt32) : Nat → UInt16 → Bytes → ListedMap → Option ListedMap
  | 0, _, _, _ => none
  | fuel + 1, i, d, map =>
      if i.toUInt32 < msg then
        let m := listedCodec.decode (d.take listedCodec.width)
        (m.num mysvid).bind fun num =>
          msglMap mysvid msg fuel (i + 1) (d.skip listedCodec.width) (map.insert num m)
      else some map

/-- `msgl_load` into an empty map. The buffer of the data lies in front of other memory.
The function returns no map when it returns 0. -/
def msglLoad (mysvid : UInt16) (h : ListHeader) (file : List UInt8) (memory : Bytes) (fuel : Nat) :
    Option (Option ListedMap) :=
  let data := msglGet h file
  if data.length ≠ h.size then some none
  else if readHash (Bytes.ofList data memory) ≠ h.msghash then some none
  else (msglMap mysvid h.msg fuel 0 ((Bytes.ofList data memory).skip 32) ∅).map some

/-- `msgl_process` for the block that the node waits for: the new `missing_msgs_` with the
header and the file that it has written. -/
def msglProcess (c : Crypto) (mysvid : UInt16) (h : ListHeader) (data : Bytes) (old : List UInt8)
    (fuel : Nat) : Option (Option (ListedMap × ListHeader × List UInt8)) :=
  (msglMap mysvid h.msg fuel 0 (data.skip 32) ∅).map fun map =>
    let put := msglPut c map (some (readHash data)) old
    put.2.map fun file => (map, put.1, file)

/-- A map of messages on node `mysvid`: each is stored under its own key. -/
structure MessageMap (mysvid : UInt16) where
  map : ListedMap
  stored : ∀ (k : UInt64) (m : ListedMsg), map[k]? = some m → m.num mysvid = some k

namespace MessageMap

variable (m : MessageMap mysvid)

def list : List ListedMsg := listed m.map

/-- At most one version of each message, as in the list of a block: `LAST_block_msgs`
takes the hash byte out of the keys. -/
def Single : Prop :=
  ∀ a ∈ m.list, ∀ b ∈ m.list, a.svid = b.svid → a.msid = b.msid → a = b

/-- The reader has different keys for different messages. -/
def Apart (reader : UInt16) : Prop :=
  ∀ a ∈ m.list, ∀ b ∈ m.list, a.num reader = b.num reader → a = b

end MessageMap

/-- The order of the keys on a node. -/
def ListedMsg.Before (mysvid : UInt16) (a b : ListedMsg) : Prop :=
  ∃ k ∈ a.num mysvid, ∃ l ∈ b.num mysvid, k < l

/-- The messages in the order of the reader have the same hash. -/
def MessageMap.SameHash {mysvid : UInt16} (m : MessageMap mysvid) (c : Crypto) (reader : UInt16) :
    Prop :=
  ∀ ms, ms.Perm m.list → ms.Pairwise (ListedMsg.Before reader) → listHash c ms = listHash c m.list

/-- Whatever the files held before and whatever lies behind the buffers: the readers end,
each with the same messages and the same hash. -/
def MessageMap.RoundTrip {mysvid : UInt16} (m : MessageMap mysvid) (c : Crypto)
    (reader : UInt16) : Prop :=
  ∀ old old' memory, ∃ h file, msglPut c m.map none old = (h, some file) ∧
    ∃ fuel map, msglLoad reader h file memory fuel = some (some map) ∧
      (∀ a, a ∈ listed map ↔ a ∈ m.list) ∧
      ∃ map' h' file', msglProcess c reader h (Bytes.ofList (msglGet h file) memory) old' fuel =
          some (some (map', h', file')) ∧
        (∀ a, a ∈ listed map' ↔ a ∈ m.list) ∧ h'.msghash = listHash c m.list ∧ h' = h

section Loop

variable {msg : UInt32}

/-- The counter never reaches a number of 17 bits. -/
theorem msglMap_endless (hmsg : 2 ^ 16 ≤ msg.toNat) (fuel : Nat) (i : UInt16) (d : Bytes)
    (map : ListedMap) : msglMap mysvid msg fuel i d map = none := by
  induction fuel generalizing i d map with
  | zero => rfl
  | succ fuel ih =>
      have hi : i.toUInt32 < msg := by
        have hlt := i.toNat_lt
        rw [UInt32.lt_iff_toNat_lt, UInt16.toNat_toUInt32]
        omega
      rw [msglMap, if_pos hi]
      dsimp only
      cases (listedCodec.decode (d.take listedCodec.width)).num mysvid with
      | none => rfl
      | some num => exact ih _ _ _

/-- The messages of a list go one by one into the map. -/
def readInto (mysvid : UInt16) (ms : List ListedMsg) (map : ListedMap) : Option ListedMap :=
  ms.foldlM (fun map m => (m.num mysvid).map fun num => map.insert num m) map

/-- The loop over a list that the counter can count. -/
theorem msglMap_encodeAll (hmsg : msg.toNat < 2 ^ 16) (hi : i.toNat + ms.length = msg.toNat)
    (memory : Bytes) (map : ListedMap) :
    msglMap mysvid msg (ms.length + 1) i (Bytes.ofList (listedCodec.encodeAll ms) memory) map =
      readInto mysvid ms map := by
  induction ms generalizing i map with
  | nil =>
      have hend : ¬ i.toUInt32 < msg := by
        rw [UInt32.lt_iff_toNat_lt, UInt16.toNat_toUInt32]
        simp only [List.length_nil] at hi
        omega
      simp [msglMap, if_neg hend, readInto]
  | cons m ms ih =>
      have hlt : i.toUInt32 < msg := by
        rw [UInt32.lt_iff_toNat_lt, UInt16.toNat_toUInt32]
        simp only [List.length_cons] at hi
        omega
      have hnext : (i + 1).toNat + ms.length = msg.toNat := by
        rw [UInt16.toNat_add, UInt16.toNat_one]
        simp only [List.length_cons] at hi
        omega
      have hwidth := listedCodec.length_encode m
      have hdecode := listedCodec.decode_encode m []
      rw [List.append_nil] at hdecode
      rw [List.length_cons, msglMap, if_pos hlt, Codec.encodeAll_cons,
        Bytes.take_ofList_append hwidth, Bytes.skip_ofList_append hwidth, readInto,
        List.foldlM_cons, hdecode]
      dsimp only
      cases hnum : m.num mysvid with
      | none => rfl
      | some num => exact ih hnext _

/-- The loop has one result. -/
theorem msglMap_unique {fuel' : Nat} {d : Bytes} {a b : ListedMap}
    (ha : msglMap mysvid msg fuel i d map = some a)
    (hb : msglMap mysvid msg fuel' i d map = some b) :
    a = b := by
  induction fuel generalizing fuel' i d map with
  | zero => cases ha
  | succ fuel ih =>
      cases fuel' with
      | zero => cases hb
      | succ fuel' =>
          rw [msglMap] at ha hb
          split at ha
          · rename_i hlt
            rw [if_pos hlt] at hb
            obtain ⟨num, hnum, hnext⟩ := Option.bind_eq_some_iff.mp ha
            obtain ⟨num', hnum', hnext'⟩ := Option.bind_eq_some_iff.mp hb
            cases Option.some.inj (hnum.symm.trans hnum')
            exact ih hnext hnext'
          · rename_i hge
            rw [if_neg hge] at hb
            exact Option.some.inj (ha.symm.trans hb)

/-- A round that the counter allows adds at most one message. -/
theorem size_msglMap (hmsg : msg.toNat < 2 ^ 16) {d : Bytes} {map' : ListedMap}
    (hi : i.toNat ≤ msg.toNat) (h : msglMap mysvid msg fuel i d map = some map') :
    map'.size ≤ map.size + (msg.toNat - i.toNat) := by
  induction fuel generalizing i d map with
  | zero => cases h
  | succ fuel ih =>
      rw [msglMap] at h
      split at h
      · rename_i hlt
        rw [UInt32.lt_iff_toNat_lt, UInt16.toNat_toUInt32] at hlt
        obtain ⟨num, -, hnext⟩ := Option.bind_eq_some_iff.mp h
        have hsucc : (i + 1).toNat = i.toNat + 1 := by
          rw [UInt16.toNat_add, UInt16.toNat_one]
          omega
        have hsize := ih (by omega) hnext
        have hinsert := map.size_insert_le (k := num)
          (v := listedCodec.decode (d.take listedCodec.width))
        omega
      · cases h
        omega

theorem exists_readInto (h : ∀ m ∈ ms, (m.num mysvid).isSome) (map : ListedMap) :
    ∃ map', readInto mysvid ms map = some map' := by
  induction ms generalizing map with
  | nil => exact ⟨map, rfl⟩
  | cons m ms ih =>
      obtain ⟨num, hnum⟩ := Option.isSome_iff_exists.mp (h m List.mem_cons_self)
      obtain ⟨map', hread⟩ := ih (fun m hm => h m (List.mem_cons_of_mem _ hm)) (map.insert num m)
      refine ⟨map', ?_⟩
      rw [readInto, List.foldlM_cons, hnum]
      exact hread

/-- The map that a reader makes of a list. -/
structure ReadFrom (mysvid : UInt16) (ms : List ListedMsg) (map : ListedMap) : Prop where
  stored : ∀ (k : UInt64) (m : ListedMsg), map[k]? = some m → m.num mysvid = some k ∧ m ∈ ms
  keys : ∀ m ∈ ms, ∀ k, m.num mysvid = some k → k ∈ map

theorem readInto_readFrom (h : readInto mysvid ms ∅ = some map) : ReadFrom mysvid ms map := by
  induction ms using List.reverseRecOn generalizing map with
  | nil =>
      cases h
      exact ⟨by simp, by simp⟩
  | append_singleton ms m ih =>
      rw [readInto, List.foldlM_append] at h
      obtain ⟨map₁, hread, hlast⟩ := Option.bind_eq_some_iff.mp h
      rw [List.foldlM_cons] at hlast
      obtain ⟨map₂, hstep, hpure⟩ := Option.bind_eq_some_iff.mp hlast
      obtain ⟨num, hnum, rfl⟩ := Option.map_eq_some_iff.mp hstep
      cases hpure
      have hfrom := ih hread
      refine ⟨?_, ?_⟩
      · intro k a hget
        rw [Map.getElem?_insert] at hget
        split at hget
        · rename_i hkey
          cases hget
          exact ⟨hkey ▸ hnum, by simp⟩
        · have hold := hfrom.stored k a hget
          exact ⟨hold.1, List.mem_append_left _ hold.2⟩
      · intro a ha k hk
        rw [Map.mem_insert_iff]
        rcases List.mem_append.mp ha with ha | ha
        · exact Or.inr (hfrom.keys a ha k hk)
        · cases List.mem_singleton.mp ha
          exact Or.inl (Option.some.inj (hk.symm.trans hnum))

end Loop

theorem mem_listed : a ∈ listed map ↔ ∃ k : UInt64, map[k]? = some a := by
  rw [listed, List.mem_map]
  constructor
  · rintro ⟨⟨k, a⟩, hmem, rfl⟩
    exact ⟨k, Map.mem_toList.mp hmem⟩
  · rintro ⟨k, hget⟩
    exact ⟨(k, a), Map.mem_toList.mpr hget, rfl⟩

/-- Messages stored under their own keys are listed in the order of the keys. -/
theorem listed_pairwise
    (h : ∀ (k : UInt64) (m : ListedMsg), map[k]? = some m → m.num mysvid = some k) :
    (listed map).Pairwise (ListedMsg.Before mysvid) := by
  rw [listed, List.pairwise_map]
  refine (Std.ExtTreeMap.ordered_keys_toList (t := map)).imp_of_mem ?_
  rintro ⟨k, a⟩ ⟨l, b⟩ ha hb hlt
  refine ⟨k, h k a (Map.mem_toList.mp ha), l, h l b (Map.mem_toList.mp hb), ?_⟩
  exact Std.compare_eq_lt.mp hlt

theorem ListedMsg.Before.ne (h : a.Before mysvid b) : a ≠ b := by
  rintro rfl
  obtain ⟨k, hk, l, hl, hlt⟩ := h
  cases Option.some.inj (hk.symm.trans hl)
  exact UInt64.lt_irrefl k hlt

theorem ListedMsg.Before.asymm (h : a.Before mysvid b) (h' : b.Before mysvid a) : False := by
  obtain ⟨k, hk, l, hl, hlt⟩ := h
  obtain ⟨l', hl', k', hk', hlt'⟩ := h'
  cases Option.some.inj (hk.symm.trans hk')
  cases Option.some.inj (hl.symm.trans hl')
  exact UInt64.lt_asymm hlt hlt'

theorem nodup_of_pairwise (h : ms.Pairwise (ListedMsg.Before mysvid)) :
    ms.Nodup := h.imp ListedMsg.Before.ne

/-- A set of messages has one arrangement in the order of the keys. -/
theorem eq_of_pairwise {ms' : List ListedMsg} (hmem : ∀ a, a ∈ ms ↔ a ∈ ms')
    (h : ms.Pairwise (ListedMsg.Before mysvid)) (h' : ms'.Pairwise (ListedMsg.Before mysvid)) :
    ms = ms' := by
  have hperm := (List.perm_ext_iff_of_nodup (nodup_of_pairwise h) (nodup_of_pairwise h')).mpr hmem
  refine hperm.eq_of_pairwise ?_ h h'
  intro a b _ _ hab hba
  exact (hab.asymm hba).elim

section Put

variable {c : Crypto}

/-- The length that a reader asks for. -/
theorem ListHeader.size_eq (hmsg : h.msg.toNat < 2 ^ 26) : h.size = 32 + h.msg.toNat * 38 := by
  have hwidth : (2 + 4 + 32 : UInt32) = 38 := by decide
  have h32 : (32 : UInt32).toNat = 32 := rfl
  have h38 : (38 : UInt32).toNat = 38 := rfl
  rw [size, hwidth, UInt32.toNat_add, UInt32.toNat_mul, h32, h38]
  omega

/-- `msgl_get` finds the hash and the records. -/
theorem msglGet_put (hsize : h.size = 32 + ms.length * 38) (old : List UInt8) :
    msglGet h (overwrite (msglistBytes c ms) old) =
      hashBytes (listHash c ms) ++ listedCodec.encodeAll ms := by
  have hlength : (hashBytes (listHash c ms) ++ listedCodec.encodeAll ms).length = h.size := by
    rw [List.length_append, length_hashBytes, Codec.length_encodeAll, hsize]
    rfl
  have hfile : overwrite (msglistBytes c ms) old = bytesLE 4 ms.length ++
      ((hashBytes (listHash c ms) ++ listedCodec.encodeAll ms) ++
        (hashesBytes (listHashes c ms) ++ old.drop (msglistBytes c ms).length)) := by
    simp only [overwrite, msglistBytes, List.append_assoc]
  rw [msglGet, slice, hfile, List.drop_left' (length_bytesLE 4 _), List.take_left' hlength]

/-- A list of less than `2 ^ 16` messages is read to its end. -/
theorem msglMap_put (reader : UInt16) {msg : UInt32} (hmsg : msg.toNat = ms.length)
    (hsmall : ms.length < 2 ^ 16) (hash : Hash) (memory : Bytes) :
    msglMap reader msg (ms.length + 1) 0
      ((Bytes.ofList (hashBytes hash ++ listedCodec.encodeAll ms) memory).skip 32) ∅ =
      readInto reader ms ∅ := by
  rw [Bytes.skip_ofList_append (length_hashBytes hash)]
  exact msglMap_encodeAll (by omega) (by rw [hmsg, UInt16.toNat_zero, Nat.zero_add]) memory ∅

end Put

namespace MessageMap

variable (m : MessageMap mysvid) {c : Crypto}

theorem list_pairwise : m.list.Pairwise (ListedMsg.Before mysvid) := listed_pairwise m.stored

theorem num_isSome (ha : a ∈ m.list) (reader : UInt16) : (a.num reader).isSome := by
  obtain ⟨k, hget⟩ := mem_listed.mp ha
  have hnum := m.stored k a hget
  unfold ListedMsg.num ListedMsg.hashval at hnum ⊢
  split
  · rfl
  · rename_i hmsid
    rw [if_neg hmsid] at hnum
    split
    · rename_i hones
      rw [if_pos hones] at hnum
      cases hnum
    · rfl

/-- The header of the list. -/
def header (c : Crypto) : ListHeader := ⟨.ofNat m.list.length, listHash c m.list⟩

theorem msglPut_eq (old : List UInt8) :
    msglPut c m.map none old =
      (m.header c, some (overwrite (msglistBytes c m.list) old)) := rfl

theorem toNat_header (hsmall : m.list.length < 2 ^ 26) :
    (m.header c).msg.toNat = m.list.length := by
  rw [header, UInt32.toNat_ofNat_of_lt']
  change _ < 2 ^ 32
  omega

/-- The bytes of the list with its hash. -/
theorem msglGet_header (hsmall : m.list.length < 2 ^ 26) (old : List UInt8) :
    msglGet (m.header c) (overwrite (msglistBytes c m.list) old) =
      hashBytes (listHash c m.list) ++ listedCodec.encodeAll m.list := by
  have hmsg := m.toNat_header (c := c) hsmall
  have hsize := ListHeader.size_eq (h := m.header c) (by omega)
  exact msglGet_put (by rw [hsize, hmsg]) old

/-- `msgl_load` gets to the loop. -/
theorem msglLoad_put (hsmall : m.list.length < 2 ^ 26) (old : List UInt8) (memory : Bytes)
    (fuel : Nat) :
    msglLoad reader (m.header c) (overwrite (msglistBytes c m.list) old) memory fuel =
      (msglMap reader (m.header c).msg fuel 0 ((Bytes.ofList
        (hashBytes (listHash c m.list) ++ listedCodec.encodeAll m.list) memory).skip 32) ∅).map
        some := by
  have hmsg := m.toNat_header (c := c) hsmall
  have hlength : (hashBytes (listHash c m.list) ++ listedCodec.encodeAll m.list).length =
      (m.header c).size := by
    rw [List.length_append, length_hashBytes, Codec.length_encodeAll,
      ListHeader.size_eq (by omega), hmsg]
    rfl
  have hhash : listHash c m.list = (m.header c).msghash := rfl
  rw [msglLoad, msglGet_header m hsmall, if_neg (not_not.mpr hlength), readHash_ofList,
    if_neg (not_not.mpr hhash)]

/-- The readers get the map of the list, and the hash of its order. -/
theorem readers_eq (hsmall : m.list.length < 2 ^ 16) (hread : readInto reader m.list ∅ = some map)
    (old : List UInt8) (memory : Bytes) :
    let file := overwrite (msglistBytes c m.list) old
    msglLoad reader (m.header c) file memory (m.list.length + 1) = some (some map) ∧
      ∀ old', msglProcess c reader (m.header c)
        (Bytes.ofList (msglGet (m.header c) file) memory) old' (m.list.length + 1) =
        some ((msglPut c map (some (listHash c m.list)) old').2.map fun file' =>
          (map, (msglPut c map (some (listHash c m.list)) old').1, file')) := by
  have hmsg := m.toNat_header (c := c) (by omega)
  have hloop := msglMap_put reader hmsg hsmall (listHash c m.list) memory
  rw [hread] at hloop
  constructor
  · rw [msglLoad_put m (by omega), hloop]
    rfl
  · intro old'
    rw [msglProcess, msglGet_header m (by omega), hloop, readHash_ofList]
    rfl

theorem msglLoad_eq_some {file : List UInt8} {memory : Bytes}
    (hload : msglLoad reader h file memory fuel = some (some map)) :
    msglMap reader h.msg fuel 0 ((Bytes.ofList (msglGet h file) memory).skip 32) ∅ = some map := by
  rw [msglLoad] at hload
  split at hload
  · cases hload
  · split at hload
    · cases hload
    · obtain ⟨map', hmap, heq⟩ := Option.map_eq_some_iff.mp hload
      cases heq
      exact hmap

theorem msglPut_msghash (map : ListedMap) (cmphash : Option Hash) (old : List UInt8) :
    (msglPut c map cmphash old).1.msghash = listHash c (listed map) := by
  unfold msglPut
  dsimp only
  split <;> rfl

/-- `msgl_process` writes the hash of its own order. -/
theorem msglProcess_eq_some {h' : ListHeader} {data : Bytes} {old file : List UInt8}
    (hprocess : msglProcess c reader h data old fuel = some (some (map, h', file))) :
    msglMap reader h.msg fuel 0 (data.skip 32) ∅ = some map ∧
      h'.msghash = listHash c (listed map) := by
  obtain ⟨map', hmap, hput⟩ := Option.map_eq_some_iff.mp hprocess
  obtain ⟨file', -, heq⟩ := Option.map_eq_some_iff.mp hput
  rw [Prod.mk.injEq, Prod.mk.injEq] at heq
  obtain ⟨hsame, hheader, -⟩ := heq
  rw [← hsame, ← hheader]
  exact ⟨hmap, msglPut_msghash map' _ old⟩

/-- A list that is read back is short enough for the counter. -/
theorem RoundTrip.length_lt {m : MessageMap mysvid} (h : m.RoundTrip c reader) :
    m.list.length < 2 ^ 16 := by
  obtain ⟨hd, file, hput, fuel, map, hload, hmem, -⟩ := h [] [] fun _ => 0
  rw [msglPut_eq] at hput
  cases hput
  have hloop := msglLoad_eq_some hload
  by_cases hmsg : 2 ^ 16 ≤ (m.header c).msg.toNat
  · rw [msglMap_endless hmsg] at hloop
    cases hloop
  · have hsize := size_msglMap (Nat.lt_of_not_le hmsg) (Nat.zero_le _) hloop
    have hsub : m.list.Subperm (listed map) :=
      (nodup_of_pairwise m.list_pairwise).subperm fun a ha => (hmem a).mpr ha
    have hlength := hsub.length_le
    have hlisted : (listed map).length = map.size := by
      rw [listed, List.length_map, Std.ExtTreeMap.length_toList]
    have hempty : (∅ : ListedMap).size = 0 := rfl
    rw [hempty] at hsize
    omega

/-- The reader has the messages of the list exactly if it tells them apart. -/
theorem mem_listed_iff_apart (hread : ReadFrom reader m.list map) :
    (∀ a, a ∈ listed map ↔ a ∈ m.list) ↔ m.Apart reader := by
  constructor
  · intro hmem a ha b hb hnum
    obtain ⟨k, hk⟩ := mem_listed.mp ((hmem a).mpr ha)
    obtain ⟨l, hl⟩ := mem_listed.mp ((hmem b).mpr hb)
    have hkl : k = l := Option.some.inj
      ((hread.stored k a hk).1.symm.trans (hnum.trans (hread.stored l b hl).1))
    subst hkl
    exact Option.some.inj (hk.symm.trans hl)
  · intro hapart a
    constructor
    · intro ha
      obtain ⟨k, hk⟩ := mem_listed.mp ha
      exact (hread.stored k a hk).2
    · intro ha
      obtain ⟨k, hk⟩ := Option.isSome_iff_exists.mp (m.num_isSome ha reader)
      have hmem := hread.keys a ha k hk
      obtain ⟨b, hb⟩ := Option.isSome_iff_exists.mp
        (Std.ExtTreeMap.isSome_getElem?_iff_mem.mpr hmem)
      have hstored := hread.stored k b hb
      cases hapart a ha b hstored.2 (hk.trans hstored.1.symm)
      exact mem_listed.mpr ⟨k, hb⟩

/-- The hash of the reader's list. -/
theorem listHash_eq_iff_sameHash (hread : ReadFrom reader m.list map)
    (hmem : ∀ a, a ∈ listed map ↔ a ∈ m.list) :
    listHash c (listed map) = listHash c m.list ↔ m.SameHash c reader := by
  have hpairwise : (listed map).Pairwise (ListedMsg.Before reader) :=
    listed_pairwise fun k a hk => (hread.stored k a hk).1
  constructor
  · intro hhash ms hperm hms
    have hsame : ms = listed map :=
      eq_of_pairwise (fun a => hperm.mem_iff.trans (hmem a).symm) hms hpairwise
    rw [hsame, hhash]
  · intro hsame
    refine hsame _ ?_ hpairwise
    exact (List.perm_ext_iff_of_nodup (nodup_of_pairwise hpairwise)
      (nodup_of_pairwise m.list_pairwise)).mpr hmem

theorem RoundTrip.apart_sameHash {m : MessageMap mysvid} (h : m.RoundTrip c reader) :
    m.Apart reader ∧ m.SameHash c reader := by
  have hsmall := h.length_lt
  obtain ⟨map, hread⟩ := exists_readInto (fun a ha => m.num_isSome ha reader) ∅
  have hfrom := readInto_readFrom hread
  have hmsg := m.toNat_header (c := c) (by omega)
  have hloop := msglMap_put reader hmsg hsmall (listHash c m.list) fun _ => 0
  rw [hread] at hloop
  obtain ⟨hd, file, hput, fuel, map₁, hload, hmem, map₂, h', file', hprocess, -, hhash, -⟩ :=
    h [] [] fun _ => 0
  rw [msglPut_eq] at hput
  cases hput
  have hmap₁ := msglLoad_eq_some hload
  obtain ⟨hmap₂, hown⟩ := msglProcess_eq_some hprocess
  rw [msglGet_header m (by omega)] at hmap₁ hmap₂
  have heq₁ : map₁ = map := msglMap_unique hmap₁ hloop
  have heq₂ : map₂ = map := msglMap_unique hmap₂ hloop
  rw [heq₁] at hmem
  rw [heq₂, hhash] at hown
  exact ⟨(m.mem_listed_iff_apart hfrom).mp hmem,
    (m.listHash_eq_iff_sameHash hfrom hmem).mp hown.symm⟩

theorem roundTrip_of_apart_sameHash (hsmall : m.list.length < 2 ^ 16) (hapart : m.Apart reader)
    (hsame : m.SameHash c reader) : m.RoundTrip c reader := by
  intro old old' memory
  obtain ⟨map, hread⟩ := exists_readInto (fun a ha => m.num_isSome ha reader) ∅
  have hfrom := readInto_readFrom hread
  have hmem := (m.mem_listed_iff_apart hfrom).mpr hapart
  have hhash := (m.listHash_eq_iff_sameHash (c := c) hfrom hmem).mpr hsame
  have hlength : (listed map).length = m.list.length :=
    ((List.perm_ext_iff_of_nodup
      (nodup_of_pairwise (listed_pairwise fun k a hk => (hfrom.stored k a hk).1))
      (nodup_of_pairwise m.list_pairwise)).mpr hmem).length_eq
  have hput : msglPut c map (some (listHash c m.list)) old' =
      (m.header c, some (overwrite (msglistBytes c (listed map)) old')) := by
    rw [msglPut]
    simp [hhash, hlength, header]
  obtain ⟨hload, hprocess⟩ := m.readers_eq (c := c) hsmall hread old memory
  refine ⟨_, _, m.msglPut_eq old, _, map, hload, hmem, map, m.header c,
    overwrite (msglistBytes c (listed map)) old', ?_, hmem, rfl, rfl⟩
  rw [hprocess old', hput]
  rfl

theorem apart_sameHash_of_pairwise (h : m.list.Pairwise (ListedMsg.Before reader)) :
    m.Apart reader ∧ m.SameHash c reader := by
  refine ⟨?_, ?_⟩
  · intro a ha b hb hnum
    by_contra hne
    have hdiffer : m.list.Pairwise fun a b => a.num reader ≠ b.num reader := by
      refine h.imp ?_
      rintro a b ⟨k, hk, l, hl, hlt⟩ heq
      cases Option.some.inj (hk.symm.trans (heq.trans hl))
      exact UInt64.lt_irrefl k hlt
    have hsymm : Std.Symm fun a b : ListedMsg => a.num reader ≠ b.num reader :=
      ⟨fun _ _ hab => hab.symm⟩
    exact hdiffer.forall ha hb hne hnum
  · intro ms hperm hms
    rw [eq_of_pairwise (fun a => hperm.mem_iff) hms h]

end MessageMap

theorem toNat_hashNum (hashval type : UInt8) (msid : UInt32) (svid : UInt16) :
    (hashNum hashval type msid svid).toNat =
      hashval.toNat + 2 ^ 8 * type.toNat + 2 ^ 16 * msid.toNat + 2 ^ 48 * svid.toNat := by
  have hhash := hashval.toNat_lt
  have htype := type.toNat_lt
  have hmsid := msid.toNat_lt
  have hsvid := svid.toNat_lt
  rw [hashNum, UInt64.toNat_ofNat_of_lt']
  change _ < 2 ^ 64
  omega

/-- The upper bytes of a key are the ids. -/
theorem ListedMsg.num_div {k : UInt64} (h : a.num mysvid = some k) :
    k.toNat / 2 ^ 16 = a.msid.toNat + 2 ^ 32 * a.svid.toNat := by
  have hupper (hashval type : UInt8) :
      (hashNum hashval type a.msid a.svid).toNat / 2 ^ 16 =
        a.msid.toNat + 2 ^ 32 * a.svid.toNat := by
    have hhash := hashval.toNat_lt
    have htype := type.toNat_lt
    rw [toNat_hashNum]
    omega
  unfold num at h
  split at h
  · cases h
    exact hupper _ _
  · obtain ⟨val, -, rfl⟩ := Option.map_eq_some_iff.mp h
    exact hupper _ _

/-- Versions apart, all nodes have the same order. -/
theorem ListedMsg.Before.transfer (h : a.Before mysvid b)
    (hids : ¬ (a.svid = b.svid ∧ a.msid = b.msid)) (ha : (a.num reader).isSome)
    (hb : (b.num reader).isSome) : a.Before reader b := by
  obtain ⟨k, hk, l, hl, hlt⟩ := h
  obtain ⟨k', hk'⟩ := Option.isSome_iff_exists.mp ha
  obtain ⟨l', hl'⟩ := Option.isSome_iff_exists.mp hb
  refine ⟨k', hk', l', hl', ?_⟩
  have hka := num_div hk
  have hlb := num_div hl
  have hka' := num_div hk'
  have hlb' := num_div hl'
  have hma := a.msid.toNat_lt
  have hmb := b.msid.toNat_lt
  rw [← UInt16.toNat_inj, ← UInt32.toNat_inj] at hids
  rw [UInt64.lt_iff_toNat_lt] at hlt ⊢
  omega

theorem ListedMsg.num_congr (h : mysvid % 32 = reader % 32) (a : ListedMsg) :
    a.num mysvid = a.num reader := by
  have hnat := congrArg UInt16.toNat h
  rw [UInt16.toNat_mod, UInt16.toNat_mod] at hnat
  have hval : Txs.hashval mysvid a.sigh = Txs.hashval reader a.sigh := by
    unfold Txs.hashval
    rw [show mysvid.toNat % 32 = reader.toNat % 32 by exact hnat]
  unfold num hashval
  rw [hval]

theorem MessageMap.pairwise_reader (m : MessageMap mysvid)
    (h : m.Single ∨ mysvid % 32 = reader % 32) : m.list.Pairwise (ListedMsg.Before reader) := by
  rcases h with hsingle | hbyte
  · refine m.list_pairwise.imp_of_mem ?_
    intro a b ha hb hbefore
    refine hbefore.transfer ?_ (m.num_isSome ha reader) (m.num_isSome hb reader)
    rintro ⟨hsvid, hmsid⟩
    exact hbefore.ne (hsingle a ha b hb hsvid hmsid)
  · refine m.list_pairwise.imp ?_
    rintro a b ⟨k, hk, l, hl, hlt⟩
    exact ⟨k, ListedMsg.num_congr hbyte a ▸ hk, l, ListedMsg.num_congr hbyte b ▸ hl, hlt⟩

/-- The readers end with the messages and the hash of the list exactly if the counter can
count the messages, the reader tells them apart and its order gives the same hash. With
one version of each message, or one hash byte for both nodes, the number decides. -/
theorem msgl_roundTrip_iff (c : Crypto) {mysvid : UInt16} (m : MessageMap mysvid)
    (reader : UInt16) :
    (m.RoundTrip c reader ↔
      m.list.length < 2 ^ 16 ∧ m.Apart reader ∧ m.SameHash c reader) ∧
    (m.Single ∨ mysvid % 32 = reader % 32 →
      (m.RoundTrip c reader ↔ m.list.length < 2 ^ 16)) := by
  refine ⟨⟨?_, ?_⟩, ?_⟩
  · intro h
    exact ⟨h.length_lt, h.apart_sameHash⟩
  · rintro ⟨hsmall, hapart, hsame⟩
    exact m.roundTrip_of_apart_sameHash hsmall hapart hsame
  · intro horder
    obtain ⟨hapart, hsame⟩ := m.apart_sameHash_of_pairwise (c := c) (m.pairwise_reader horder)
    exact ⟨fun h => h.length_lt, fun hsmall => m.roundTrip_of_apart_sameHash hsmall hapart hsame⟩

namespace Sample

/-- A message of node 1. -/
def listedMsg (i : Nat) : ListedMsg := ⟨1, .ofNat (i + 1), 0⟩

def listedKey (i : Nat) : UInt64 := hashNum (Txs.hashval 1 0) msgtypeMsg (.ofNat (i + 1)) 1

def listedMap : Nat → ListedMap
  | 0 => ∅
  | n + 1 => (listedMap n).insert (listedKey n) (listedMsg n)

theorem getElem?_listedMap {k : UInt64} {m : ListedMsg} (h : (listedMap n)[k]? = some m) :
    ∃ i < n, k = listedKey i ∧ m = listedMsg i := by
  induction n with
  | zero => simp [listedMap] at h
  | succ n ih =>
      rw [listedMap, Map.getElem?_insert] at h
      split at h
      · rename_i hkey
        cases h
        exact ⟨n, Nat.lt_succ_self n, hkey, rfl⟩
      · obtain ⟨i, hi, hboth⟩ := ih h
        exact ⟨i, Nat.lt_succ_of_lt hi, hboth⟩

theorem toNat_listedMsid {i : Nat} (hi : i < 2 ^ 16) : (UInt32.ofNat (i + 1)).toNat = i + 1 := by
  rw [UInt32.toNat_ofNat_of_lt']
  change _ < 2 ^ 32
  omega

theorem listedKey_inj {i j : Nat} (hi : i < 2 ^ 16) (hj : j < 2 ^ 16)
    (h : listedKey i = listedKey j) : i = j := by
  have hnat := congrArg UInt64.toNat h
  rw [listedKey, listedKey, toNat_hashNum, toNat_hashNum, toNat_listedMsid hi,
    toNat_listedMsid hj] at hnat
  omega

theorem num_listedMsg {i : Nat} (hi : i < 2 ^ 16) : (listedMsg i).num 1 = some (listedKey i) := by
  have hmsid : (listedMsg i).msid ≠ dblMsid := by
    rw [← UInt32.toNat_inj.ne]
    change (UInt32.ofNat (i + 1)).toNat ≠ 0xffffffff
    rw [toNat_listedMsid hi]
    omega
  rw [ListedMsg.num, if_neg hmsid, ListedMsg.hashval, if_neg (by change ¬ (0 : Hash) = _; decide)]
  rfl

theorem size_listedMap (hn : n ≤ 2 ^ 16) : (listedMap n).size = n := by
  induction n with
  | zero => rfl
  | succ n ih =>
      have hnew : listedKey n ∉ listedMap n := by
        intro hmem
        obtain ⟨m, hm⟩ := Option.isSome_iff_exists.mp
          (Std.ExtTreeMap.isSome_getElem?_iff_mem.mpr hmem)
        obtain ⟨i, hi, hkey, -⟩ := getElem?_listedMap hm
        have heq := listedKey_inj (by omega) (by omega) hkey
        omega
      rw [listedMap, Std.ExtTreeMap.size_insert,
        if_neg (Std.ExtTreeMap.contains_iff_mem.not.mpr hnew), ih (by omega)]

/-- The first messages of node 1. -/
def messages (n : Nat) (hn : n ≤ 2 ^ 16) : MessageMap 1 where
  map := listedMap n
  stored k m h := by
    obtain ⟨i, hi, rfl, rfl⟩ := getElem?_listedMap h
    exact num_listedMsg (by omega)

theorem length_messages (hn : n ≤ 2 ^ 16) : (messages n hn).list.length = n := by
  rw [MessageMap.list, listed, List.length_map, Std.ExtTreeMap.length_toList]
  exact size_listedMap hn

theorem single_messages (hn : n ≤ 2 ^ 16) : (messages n hn).Single := by
  intro a ha b hb _ hmsid
  obtain ⟨k, hk⟩ := mem_listed.mp ha
  obtain ⟨l, hl⟩ := mem_listed.mp hb
  obtain ⟨i, hi, -, rfl⟩ := getElem?_listedMap hk
  obtain ⟨j, hj, -, rfl⟩ := getElem?_listedMap hl
  have hnat := congrArg UInt32.toNat hmsid
  rw [listedMsg, listedMsg, toNat_listedMsid (by omega), toNat_listedMsid (by omega)] at hnat
  obtain rfl : i = j := by omega
  rfl

def listCrypto : Crypto where
  sha256 _ := 0
  signOpen _ _ _ := false
  strayLength _ := none

end Sample

/-- The node that reads its own list of `2 ^ 16` messages never finishes. -/
theorem msgl_load_endless :
    (Sample.messages (2 ^ 16) le_rfl).list.length = 2 ^ 16 ∧
    (Sample.messages (2 ^ 16) le_rfl).Single ∧
    (∀ fuel, msglLoad 1 ((Sample.messages (2 ^ 16) le_rfl).header Sample.listCrypto)
      (overwrite (msglistBytes Sample.listCrypto (Sample.messages (2 ^ 16) le_rfl).list) [])
      (fun _ => 0) fuel = none) ∧
    ¬ (Sample.messages (2 ^ 16) le_rfl).RoundTrip Sample.listCrypto 1 := by
  have hlength := Sample.length_messages (n := 2 ^ 16) le_rfl
  refine ⟨hlength, Sample.single_messages le_rfl, ?_, ?_⟩
  · intro fuel
    have hmsg := (Sample.messages (2 ^ 16) le_rfl).toNat_header (c := Sample.listCrypto)
      (by omega)
    rw [MessageMap.msglLoad_put _ (by omega), msglMap_endless (by omega)]
    rfl
  · intro h
    have hlt := h.length_lt
    omega

end Esc
