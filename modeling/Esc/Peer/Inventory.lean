import Esc.Lib.Link
import Esc.Peer.BankTransfer
import Esc.Peer.Vote

/-!
# The exchange of the messages of a block

When a block ends, two peers tell each other which messages they have. Each peer first names the
nodes of which it has fewer messages than the other expects, then it lists the messages that the
other should lack, and the other one checks the result with the hash that it was sent before. Only
if that fails the whole list is sent.

What a peer expects of the other may be out of date. The hash decides, so the exchange is right
whatever the tables say.
-/

namespace Esc

open Lib

/-- The node and the message id of a key. -/
def keySvid (key : UInt64) : UInt16 := UInt16.ofNat (key.toNat / 2 ^ 48)

def keyMsid (key : UInt64) : UInt32 := UInt32.ofNat (key.toNat / 2 ^ 16)

/-- A `msidsvidhash_t`. -/
abbrev MsidSvidHash := UInt32 × UInt16 × Hash

def msidSvidHashCodec : Codec MsidSvidHash := u32Codec.prod (u16Codec.prod hashCodec)

def svidMsidCodec : Codec (UInt16 × UInt32) := u16Codec.prod u32Codec

def msidSvidHash (p : UInt64 × Hash) : MsidSvidHash := (keyMsid p.1, keySvid p.1, p.2)

/-- The two lowest bytes of the key are zero. -/
def MsidSvidHash.entry (r : MsidSvidHash) : UInt64 × Hash :=
  (UInt64.ofNat (2 ^ 16 * r.1.toNat + 2 ^ 48 * r.2.1.toNat), r.2.2)

/-- What `sync_start` reads of the server and of the peer object. -/
structure SyncNode where
  /-- The number of nodes. -/
  nodes : Nat
  /-- `LAST_block_all_msgs`, with the signature hashes. -/
  msgs : Map UInt64 Hash
  /-- `LAST_block_svid_msgs`, with the message ids. -/
  svidMsgs : Map UInt16 UInt32
  /-- `svid_msid_new`. -/
  svidMsidNew : Map UInt16 UInt32
  /-- `last_message_hash`, from the `STOP` message of the peer. -/
  lastMessageHash : Hash

/-- What the peer has sent with its deletions: the count and `PEER_block_del_start`. -/
structure PeerDel where
  count : UInt16
  start : Map UInt16 UInt32 := ∅

/-- All messages are sent if the peer asks for it. -/
def PeerDel.sendsAll (d : PeerDel) (error : Bool) : Bool := d.count = 0xffff ∨ error

namespace SyncNode

variable (n : SyncNode)

/-- The entries of `write_serv_del`. -/
def servDel : List (UInt16 × UInt32) :=
  n.svidMsidNew.toList.filterMap fun p =>
    match n.svidMsgs[p.1]? with
    | none => some (p.1, 0)
    | some msid => if msid < p.2 then some (p.1, msid) else none

/-- `write_serv_del`; the count has 16 bits. -/
def delBytes : List UInt8 :=
  bytesLE 2 n.servDel.length ++ svidMsidCodec.encodeAll n.servDel

/-- `read_peer_del`. -/
def readPeerDel : Party UInt8 PeerDel :=
  .recv 2 fun bs =>
    let count := UInt16.ofNat (ofLE bs)
    if count = 0 ∨ count = 0xffff then .done { count }
    else
      .recv (6 * count.toNat) fun bs =>
        let entries := svidMsidCodec.decodeAll count.toNat bs
        if entries.all fun p => p.1.toNat < n.nodes then
          .done { count, start := entries.foldl (fun m p => m.insert p.1 p.2) ∅ }
        else .leave

/-- The newest message of a node that the peer should have. -/
def maxMsid (start : Map UInt16 UInt32) (svid : UInt16) : UInt32 :=
  match start[svid]? with
  | some msid => msid
  | none => n.svidMsidNew.val svid

/-- The loop over the messages in `write_serv_add` and `read_peer_add`: the bound is looked up when
the node changes. A message that the peer should lack is marked. -/
def scan (start : Map UInt16 UInt32) :
    UInt16 → UInt32 → List (UInt64 × Hash) → List ((UInt64 × Hash) × Bool)
  | _, _, [] => []
  | lastsvid, maxmsid, p :: ps =>
    let maxmsid := if keySvid p.1 ≠ lastsvid then n.maxMsid start (keySvid p.1) else maxmsid
    (p, maxmsid < keyMsid p.1) :: scan start (keySvid p.1) maxmsid ps

def scanned (d : PeerDel) : List ((UInt64 × Hash) × Bool) := n.scan d.start 0 0 n.msgs.toList

/-- The messages that `write_serv_add` lists. -/
def servAdd (d : PeerDel) (error : Bool) : List (UInt64 × Hash) :=
  if d.sendsAll error then n.msgs.toList else ((n.scanned d).filter Prod.snd).map Prod.fst

/-- `write_serv_add`; the count has 32 bits. -/
def addBytes (d : PeerDel) (error : Bool) : List UInt8 :=
  bytesLE 4 (n.servAdd d error).length ++
    msidSvidHashCodec.encodeAll ((n.servAdd d error).map msidSvidHash)

/-- The messages of the peer as far as the node expects them of its own. -/
def expected (d : PeerDel) (error : Bool) : PeerBlock :=
  if d.sendsAll error then { del := n.msgs.map fun _ _ => () }
  else
    (n.scanned d).foldl (fun b p =>
      if p.2 then { b with del := b.del.insert p.1.1 () }
      else { b with all := b.all.insert p.1.1 p.1.2 }) {}

/-- The messages of the peer after its list. -/
def received (d : PeerDel) (error : Bool) (entries : List (UInt64 × Hash)) : PeerBlock :=
  entries.foldl (fun b p => b.insert p.1 p.2) (n.expected d error)

/-- Whether the hash differs. -/
def failed (c : Crypto) (block : PeerBlock) : Bool := messagePhash c block.all ≠ n.lastMessageHash

/-- The end of `read_peer_add`. -/
def checkPeerAdd (c : Crypto) (d : PeerDel) (error : Bool) (entries : List (UInt64 × Hash)) :
    Party UInt8 (PeerBlock × Bool) :=
  if entries.all fun p => (keySvid p.1).toNat < n.nodes then
    .done (n.received d error entries, n.failed c (n.received d error entries))
  else .leave

/-- `read_peer_add`. A list whose length does not fit in 32 bits is not received. -/
def readPeerAdd (c : Crypto) (d : PeerDel) (error : Bool) : Party UInt8 (PeerBlock × Bool) :=
  .recv 4 fun bs =>
    let count := UInt32.ofNat (ofLE bs)
    if count = 0 then n.checkPeerAdd c d error []
    else if 2 ^ 32 ≤ 38 * count.toNat then .leave
    else
      .recv (38 * count.toNat) fun bs =>
        n.checkPeerAdd c d error ((msidSvidHashCodec.decodeAll count.toNat bs).map
          MsidSvidHash.entry)

/-- `write_serv_check`. -/
def checkByte (error : Bool) : List UInt8 := [if error then 1 else 0]

/-- `read_peer_check`. -/
def readPeerCheck : Party UInt8 Bool := .recv 1 fun bs => .done (bs ≠ [0])

/-- The end of `sync_start`, after the second list has been read if there was one. -/
def syncEnd (servError peerError : Bool) (block : PeerBlock) : Party UInt8 PeerBlock :=
  if peerError then
    readPeerCheck.bind fun peerError => if servError ∨ peerError then .leave else .done block
  else if servError then .leave
  else .done block

/-- `sync_start` after the checks: the lists that failed are sent once more, in full. -/
def syncAgain (c : Crypto) (d : PeerDel) (servError peerError : Bool) (block : PeerBlock) :
    Party UInt8 PeerBlock :=
  let read : Party UInt8 PeerBlock :=
    if servError then
      (n.readPeerAdd c d true).bind fun r =>
        .send (checkByte r.2) (syncEnd r.2 peerError r.1)
    else syncEnd false peerError block
  if peerError then .send (n.addBytes d true) read else read

/-- `sync_start`, when both sides have stopped. -/
def syncStart (c : Crypto) : Party UInt8 PeerBlock :=
  .send n.delBytes <| n.readPeerDel.bind fun d =>
    .send (n.addBytes d false) <| (n.readPeerAdd c d false).bind fun r =>
      .send (checkByte r.2) <| readPeerCheck.bind fun peerError =>
        n.syncAgain c d r.2 peerError r.1

end SyncNode

/-! ## The difference between two blocks -/

/-- The own messages without the deleted ones, and with the added ones in their place, are the
messages of the peer. No message is deleted and added. -/
structure PeerBlock.Faithful (mine : Map UInt64 Hash) (b : PeerBlock) : Prop where
  all : ∀ k, b.all[k]? = b.add[k]?.or (if k ∈ b.del then none else mine[k]?)
  apart : ∀ k ∈ b.add, k ∉ b.del

namespace PeerBlock.Faithful

variable {mine : Map UInt64 Hash} {b : PeerBlock}

theorem insert (h : b.Faithful mine) (key : UInt64) (x : Hash) :
    (b.insert key x).Faithful mine where
  all k := by
    show (b.all.insert key x)[k]? =
      (b.add.insert key x)[k]?.or (if k ∈ b.del.erase key then none else mine[k]?)
    rw [Map.getElem?_insert, Map.getElem?_insert]
    by_cases hk : k = key
    · rw [if_pos hk, if_pos hk]
      rfl
    · have hmem : k ∈ b.del.erase key ↔ k ∈ b.del := by
        rw [Std.ExtTreeMap.mem_erase, Ne, Std.compare_eq_iff_eq]
        exact and_iff_right fun heq => hk heq.symm
      rw [if_neg hk, if_neg hk, h.all k]
      simp only [hmem]
  apart k hk hdel := by
    obtain ⟨hne, hmem⟩ := Std.ExtTreeMap.mem_erase.mp hdel
    rcases Map.mem_insert_iff.mp hk with rfl | hadd
    · exact hne Std.compare_self
    · exact h.apart k hadd hmem

/-- Messages that are added one after the other. -/
theorem insertAll (h : b.Faithful mine) (entries : List (UInt64 × Hash)) :
    (entries.foldl (fun b p => b.insert p.1 p.2) b).Faithful mine := by
  induction entries generalizing b with
  | nil => exact h
  | cons p entries ih => exact ih (h.insert p.1 p.2)

end PeerBlock.Faithful

namespace SyncNode

variable {n : SyncNode} {d : PeerDel} {error : Bool}

theorem map_fst_scan (start : Map UInt16 UInt32) (lastsvid : UInt16) (maxmsid : UInt32)
    (ps : List (UInt64 × Hash)) : (n.scan start lastsvid maxmsid ps).map Prod.fst = ps := by
  induction ps generalizing lastsvid maxmsid with
  | nil => rfl
  | cons p ps ih => rw [scan, List.map_cons, ih]

theorem map_fst_scanned : (n.scanned d).map Prod.fst = n.msgs.toList := map_fst_scan ..

/-- The messages met so far are deleted or kept. -/
structure Sorted (n : SyncNode) (pre : List ((UInt64 × Hash) × Bool)) (b : PeerBlock) : Prop where
  add : b.add = ∅
  del : ∀ k ∈ b.del, k ∈ pre.map fun p => p.1.1
  all : ∀ k, b.all[k]? =
    if k ∈ b.del then none else if k ∈ pre.map fun p => p.1.1 then n.msgs[k]? else none

theorem Sorted.step {pre : List ((UInt64 × Hash) × Bool)} {b : PeerBlock} (h : Sorted n pre b)
    {p : (UInt64 × Hash) × Bool} (hnew : p.1.1 ∉ pre.map fun p => p.1.1)
    (hmsg : n.msgs[p.1.1]? = some p.1.2) :
    Sorted n (pre ++ [p]) (if p.2 then { b with del := b.del.insert p.1.1 () }
      else { b with all := b.all.insert p.1.1 p.1.2 }) := by
  have hdel : p.1.1 ∉ b.del := fun hmem => hnew (h.del _ hmem)
  have hkeys (k : UInt64) : (k ∈ (pre ++ [p]).map fun p => p.1.1) ↔
      k ∈ (pre.map fun p => p.1.1) ∨ k = p.1.1 := by
    rw [List.map_append, List.mem_append, List.map_singleton, List.mem_singleton]
  split
  · refine ⟨h.add, fun k hk => ?_, fun k => ?_⟩
    · rw [hkeys]
      exact (Map.mem_insert_iff.mp hk).symm.imp_left (h.del k)
    · show b.all[k]? = _
      rw [h.all k]
      simp only [Map.mem_insert_iff, hkeys]
      by_cases hk : k = p.1.1
      · simp [hk, hdel, hnew]
      · simp [hk]
  · refine ⟨h.add, fun k hk => ?_, fun k => ?_⟩
    · rw [hkeys]
      exact .inl (h.del k hk)
    · show (b.all.insert p.1.1 p.1.2)[k]? = _
      rw [Map.getElem?_insert, h.all k]
      simp only [hkeys]
      by_cases hk : k = p.1.1
      · simp [hk, hdel, hmsg]
      · simp [hk]

/-- All own messages are sorted. -/
theorem sorted_scanned :
    Sorted n (n.scanned d) ((n.scanned d).foldl (fun b p =>
      if p.2 then { b with del := b.del.insert p.1.1 () }
      else { b with all := b.all.insert p.1.1 p.1.2 }) {}) := by
  have hkeys : ((n.scanned d).map fun p => p.1.1) = n.msgs.toList.map Prod.fst := by
    rw [← map_fst_scanned, List.map_map]
    rfl
  have hstart : Sorted n [] {} :=
    ⟨rfl, fun k hk => absurd hk Std.ExtTreeMap.not_mem_empty, fun k => by simp⟩
  refine foldl_invariant (Sorted n) hstart ?_
  intro pre p post b hsplit hpre
  refine hpre.step ?_ ?_
  · -- every key is met once
    have hnodup : ((n.scanned d).map fun p => p.1.1).Nodup := hkeys ▸ Map.nodup_keys n.msgs
    rw [← hsplit, List.map_append, List.map_cons] at hnodup
    intro hmem
    exact (List.nodup_append.mp hnodup).2.2 _ hmem _ List.mem_cons_self rfl
  · have hmem : p ∈ n.scanned d := hsplit ▸ List.mem_append_right pre List.mem_cons_self
    have hfst : p.1 ∈ (n.scanned d).map Prod.fst := List.mem_map_of_mem hmem
    rw [map_fst_scanned] at hfst
    exact Map.mem_toList.mp hfst

/-- What a node expects of the peer is a part of its own messages. -/
theorem faithful_expected : (n.expected d error).Faithful n.msgs := by
  rw [expected]
  split
  · refine ⟨fun k => ?_, fun k hk => absurd hk Std.ExtTreeMap.not_mem_empty⟩
    simp only [Std.ExtTreeMap.mem_map]
    split
    · rfl
    · rename_i hk
      exact (Std.ExtTreeMap.getElem?_eq_none hk).symm
  · have hsorted : Sorted n (n.scanned d) _ := sorted_scanned
    refine ⟨fun k => ?_, fun k hk => ?_⟩
    · have hkeys : k ∈ ((n.scanned d).map fun p => p.1.1) ↔ k ∈ n.msgs := by
        rw [← Std.ExtTreeMap.mem_keys, ← Std.ExtTreeMap.map_fst_toList_eq_keys, ← map_fst_scanned,
          List.map_map]
        rfl
      rw [hsorted.all k, hsorted.add, Std.ExtTreeMap.getElem?_empty, Option.none_or]
      simp only [hkeys]
      by_cases hk : k ∈ n.msgs
      · simp [hk]
      · rw [if_neg hk, Std.ExtTreeMap.getElem?_eq_none hk]
    · rw [hsorted.add] at hk
      exact absurd hk Std.ExtTreeMap.not_mem_empty

/-! ## Messages between the peers -/

/-- The messages and the tables of a node that a peer can read. -/
structure Announces (c : Crypto) (a b : SyncNode) : Prop where
  /-- The two lowest bytes of the keys are not sent. -/
  keys : ∀ k ∈ a.msgs, k.toNat % 2 ^ 16 = 0
  svids : ∀ k ∈ a.msgs, (keySvid k).toNat < b.nodes
  table : ∀ svid ∈ a.svidMsidNew, svid.toNat < b.nodes
  nodes : b.nodes < 65535
  size : 38 * a.msgs.size < 2 ^ 32
  /-- The `STOP` message had the hash of the messages. -/
  hash : b.lastMessageHash = messagePhash c a.msgs
  /-- No other string has this hash. -/
  unique : ∀ bs, c.sha256 bs = b.lastMessageHash → bs = a.msgs.toList.flatMap fun p => hashBytes p.2
  /-- The signature hash belongs to one message. -/
  signed : ∀ (k k' : UInt64) (x : Hash), a.msgs[k]? = some x →
    (a.msgs[k']? = some x ∨ b.msgs[k']? = some x) → k' = k

variable {c : Crypto} {a b : SyncNode}

theorem entry_msidSvidHash {p : UInt64 × Hash} (h : p.1.toNat % 2 ^ 16 = 0) :
    (msidSvidHash p).entry = p := by
  have hlt := p.1.toNat_lt
  have hmsid : (keyMsid p.1).toNat = p.1.toNat / 2 ^ 16 % 2 ^ 32 := UInt32.toNat_ofNat'
  have hsvid : (keySvid p.1).toNat = p.1.toNat / 2 ^ 48 % 2 ^ 16 := UInt16.toNat_ofNat'
  refine Prod.ext (UInt64.toNat_inj.mp ?_) rfl
  show (UInt64.ofNat (2 ^ 16 * (keyMsid p.1).toNat + 2 ^ 48 * (keySvid p.1).toNat)).toNat = _
  rw [UInt64.toNat_ofNat', hmsid, hsvid]
  omega

theorem mem_servDel {p : UInt16 × UInt32} (h : p ∈ a.servDel) : p.1 ∈ a.svidMsidNew := by
  obtain ⟨q, hq, heq⟩ := List.mem_filterMap.mp h
  have hfst : p.1 = q.1 := by
    split at heq
    · rw [← Option.some.inj heq]
    · split at heq
      · rw [← Option.some.inj heq]
      · cases heq
  exact hfst ▸ Map.mem_of_getElem? (Map.mem_toList.mp hq)

/-- There are no more entries than nodes. -/
theorem Announces.length_servDel (h : Announces c a b) : a.servDel.length ≤ b.nodes := by
  have hnodup : (a.svidMsidNew.toList.map fun p => p.1.toNat).Nodup := by
    have hkeys := (Map.nodup_keys a.svidMsidNew).map fun _ _ => UInt16.toNat_inj.mp
    rwa [List.map_map] at hkeys
  have hsubset : (a.svidMsidNew.toList.map fun p => p.1.toNat) ⊆ List.range b.nodes := by
    intro svid hsvid
    obtain ⟨p, hp, rfl⟩ := List.mem_map.mp hsvid
    exact List.mem_range.mpr (h.table p.1 (Map.mem_of_getElem? (Map.mem_toList.mp hp)))
  calc a.servDel.length ≤ a.svidMsidNew.toList.length := List.length_filterMap_le ..
    _ = (a.svidMsidNew.toList.map fun p => p.1.toNat).length := (List.length_map ..).symm
    _ ≤ (List.range b.nodes).length := (hnodup.subperm hsubset).length_le
    _ = b.nodes := List.length_range

theorem Announces.reads_del (h : Announces c a b) : ∃ d, b.readPeerDel.Reads a.delBytes d := by
  have hlength := h.length_servDel
  have hnodes := h.nodes
  have hcount : UInt16.ofNat (ofLE (bytesLE 2 a.servDel.length)) = .ofNat a.servDel.length := by
    rw [ofLE_bytesLE, Nat.mod_eq_of_lt (by omega)]
  have htoNat : (UInt16.ofNat a.servDel.length).toNat = a.servDel.length :=
    UInt16.toNat_ofNat_of_lt' (lt_of_le_of_lt hlength (hnodes.trans (by decide)))
  by_cases hzero : a.servDel.length = 0
  · refine ⟨{ count := 0 }, ?_⟩
    rw [delBytes, readPeerDel, List.length_eq_zero_iff.mp hzero]
    refine .recv (length_bytesLE ..) ?_
    rw [if_pos (by decide)]
    exact .done _
  · have hentries : svidMsidCodec.decodeAll a.servDel.length (svidMsidCodec.encodeAll a.servDel) =
        a.servDel := by
      have hdecode := svidMsidCodec.decodeAll_encodeAll a.servDel []
      rwa [List.append_nil] at hdecode
    have hnot : ¬ (UInt16.ofNat a.servDel.length = 0 ∨ UInt16.ofNat a.servDel.length = 0xffff) := by
      rw [← UInt16.toNat_inj, ← UInt16.toNat_inj, htoNat]
      rintro (heq | heq)
      · exact hzero heq
      · have hmax : (0xffff : UInt16).toNat = 65535 := rfl
        omega
    have hsvids : a.servDel.all fun p => p.1.toNat < b.nodes := by
      simpa using fun svid msid hp => h.table svid (mem_servDel hp)
    refine ⟨⟨.ofNat a.servDel.length, a.servDel.foldl (fun m p => m.insert p.1 p.2) ∅⟩, ?_⟩
    rw [delBytes, readPeerDel]
    refine .recv (length_bytesLE ..) ?_
    rw [hcount, if_neg hnot]
    rw [htoNat, ← List.append_nil (svidMsidCodec.encodeAll a.servDel)]
    refine .recv ?_ ?_
    · rw [Codec.length_encodeAll, Nat.mul_comm]
      rfl
    · rw [hentries, if_pos hsvids]
      exact .done _

theorem mem_servAdd {p : UInt64 × Hash} (h : p ∈ a.servAdd d error) :
    a.msgs[p.1]? = some p.2 := by
  rw [servAdd] at h
  split at h
  · exact Map.mem_toList.mp h
  · obtain ⟨q, hq, rfl⟩ := List.mem_map.mp h
    have hmem : q.1 ∈ (a.scanned d).map Prod.fst := List.mem_map_of_mem (List.mem_of_mem_filter hq)
    rw [map_fst_scanned] at hmem
    exact Map.mem_toList.mp hmem

theorem length_servAdd : (a.servAdd d error).length ≤ a.msgs.size := by
  rw [← Std.ExtTreeMap.length_toList, servAdd]
  split
  · exact Nat.le_refl _
  · have hscanned : ((a.scanned d).map Prod.fst).length = a.msgs.toList.length := by
      rw [map_fst_scanned]
    rw [List.length_map, ← hscanned, List.length_map]
    exact List.length_filter_le ..

theorem Announces.reads_add (h : Announces c a b) (d d' : PeerDel) (error : Bool) :
    (b.readPeerAdd c d' error).Reads (a.addBytes d error)
      (b.received d' error (a.servAdd d error),
        b.failed c (b.received d' error (a.servAdd d error))) := by
  have hlength : 38 * (a.servAdd d error).length < 2 ^ 32 :=
    lt_of_le_of_lt (Nat.mul_le_mul_left 38 length_servAdd) h.size
  have hcount : UInt32.ofNat (ofLE (bytesLE 4 (a.servAdd d error).length)) =
      .ofNat (a.servAdd d error).length := by
    rw [ofLE_bytesLE, Nat.mod_eq_of_lt (by omega)]
  have htoNat : (UInt32.ofNat (a.servAdd d error).length).toNat = (a.servAdd d error).length :=
    UInt32.toNat_ofNat_of_lt' (by show _ < 2 ^ 32; omega)
  have hsvids : (a.servAdd d error).all fun p => (keySvid p.1).toNat < b.nodes := by
    simpa using fun k x hp => h.svids k (Map.mem_of_getElem? (mem_servAdd hp))
  rw [addBytes, readPeerAdd]
  refine .recv (length_bytesLE ..) ?_
  rw [hcount]
  by_cases hzero : (a.servAdd d error).length = 0
  · have hnil := List.length_eq_zero_iff.mp hzero
    have hcase : UInt32.ofNat (a.servAdd d error).length = 0 := by rw [hzero]; rfl
    rw [hcase, if_pos rfl, hnil, checkPeerAdd, List.all_nil, if_pos rfl]
    exact .done _
  · have hnot : ¬ UInt32.ofNat (a.servAdd d error).length = 0 := by
      rw [← UInt32.toNat_inj, htoNat]
      exact hzero
    rw [if_neg hnot, htoNat, if_neg (by omega),
      ← List.append_nil (msidSvidHashCodec.encodeAll _)]
    refine .recv ?_ ?_
    · rw [Codec.length_encodeAll, List.length_map, Nat.mul_comm]
      rfl
    · have hdecode := msidSvidHashCodec.decodeAll_encodeAll
        ((a.servAdd d error).map msidSvidHash) []
      have hentries : ((a.servAdd d error).map msidSvidHash).map MsidSvidHash.entry =
          a.servAdd d error := by
        rw [List.map_map]
        refine (List.map_congr_left fun p hp => ?_).trans (List.map_id _)
        exact entry_msidSvidHash (h.keys p.1 (Map.mem_of_getElem? (mem_servAdd hp)))
      rw [List.append_nil, List.length_map] at hdecode
      rw [hdecode, hentries, checkPeerAdd, if_pos hsvids]
      exact .done _

/-! ## What is received -/

theorem all_insertAll (entries : List (UInt64 × Hash)) (block : PeerBlock) :
    (entries.foldl (fun b p => b.insert p.1 p.2) block).all = block.all.insertMany entries := by
  induction entries generalizing block with
  | nil => exact Std.ExtTreeMap.insertMany_nil.symm
  | cons p entries ih =>
    rw [List.foldl_cons, ih, Std.ExtTreeMap.insertMany_cons]
    rfl

theorem insertMany_eq_some {m : Map UInt64 Hash} {entries : List (UInt64 × Hash)} {k : UInt64}
    {x : Hash} (h : (m.insertMany entries)[k]? = some x) : (k, x) ∈ entries ∨ m[k]? = some x := by
  rw [Std.ExtTreeMap.getElem?_insertMany_list, List.findSomeRev?_eq_findSome?_reverse,
    Option.or_eq_some_iff] at h
  refine h.imp (fun hfind => ?_) And.right
  obtain ⟨⟨k', y⟩, hp, heq⟩ := List.exists_of_findSome?_eq_some hfind
  rw [Option.ite_none_right_eq_some, Std.compare_eq_iff_eq] at heq
  obtain ⟨rfl, hy⟩ := heq
  cases hy
  exact List.mem_reverse.mp hp

/-- The whole list of a map gives the map. -/
theorem insertMany_toList (m : Map UInt64 Hash) :
    (∅ : Map UInt64 Hash).insertMany m.toList = m := by
  refine Std.ExtTreeMap.ext_getElem? fun k => ?_
  cases hk : m[k]? with
  | some x =>
    exact Std.ExtTreeMap.getElem?_insertMany_list_of_mem Std.compare_self
      Std.ExtTreeMap.distinct_keys_toList (Map.mem_toList.mpr hk)
  | none =>
    refine Option.eq_none_iff_forall_ne_some.mpr fun x hx => ?_
    rcases insertMany_eq_some hx with hlist | hempty
    · rw [Map.mem_toList.mp hlist] at hk
      cases hk
    · rw [Std.ExtTreeMap.getElem?_empty] at hempty
      cases hempty

/-- A list in full leaves no error. -/
theorem all_received_full (d d' : PeerDel) :
    (b.received d' true (a.servAdd d true)).all = a.msgs := by
  have hexpected : (b.expected d' true).all = ∅ := by
    rw [expected, if_pos (by simp [PeerDel.sendsAll])]
  have hlist : a.servAdd d true = a.msgs.toList := by
    rw [servAdd, if_pos (by simp [PeerDel.sendsAll])]
  rw [received, all_insertAll, hexpected, hlist, insertMany_toList]

/-- Each message in the result is one of the two nodes. -/
theorem received_eq_some {d d' : PeerDel} {k : UInt64} {x : Hash}
    (h : (b.received d' error (a.servAdd d error)).all[k]? = some x) :
    a.msgs[k]? = some x ∨ b.msgs[k]? = some x := by
  rw [received, all_insertAll] at h
  rcases insertMany_eq_some h with hadd | hexpected
  · exact .inl (mem_servAdd hadd)
  · refine .inr ?_
    have hadd : (b.expected d' error).add = ∅ := by
      rw [expected]
      split
      · rfl
      · exact sorted_scanned.add
    rw [faithful_expected.all k, hadd, Std.ExtTreeMap.getElem?_empty, Option.none_or] at hexpected
    split at hexpected
    · cases hexpected
    · exact hexpected

theorem eq_of_map_snd {ps qs : List (UInt64 × Hash)} (h : ps.map Prod.snd = qs.map Prod.snd)
    (hinj : ∀ p ∈ ps, ∀ q ∈ qs, p.2 = q.2 → p = q) : ps = qs := by
  refine List.ext_getElem (by simpa using congrArg List.length h) fun i hi hi' => ?_
  refine hinj _ (List.getElem_mem hi) _ (List.getElem_mem hi') ?_
  have hget := List.getElem_of_eq h (by simpa using hi)
  rwa [List.getElem_map, List.getElem_map] at hget

theorem Announces.received_full (h : Announces c a b) (d d' : PeerDel) :
    b.failed c (b.received d' true (a.servAdd d true)) = false := by
  rw [failed, all_received_full, h.hash]
  exact decide_eq_false (not_not_intro rfl)

/-- The hash is right for the messages of the peer only. -/
theorem Announces.received_eq (h : Announces c a b) {d d' : PeerDel}
    (hok : b.failed c (b.received d' error (a.servAdd d error)) = false) :
    (b.received d' error (a.servAdd d error)).all = a.msgs := by
  have hsome : ∀ {k x}, (b.received d' error (a.servAdd d error)).all[k]? = some x →
      a.msgs[k]? = some x ∨ b.msgs[k]? = some x := received_eq_some
  rw [failed, decide_eq_false_iff_not, not_not] at hok
  generalize (b.received d' error (a.servAdd d error)).all = m at hok hsome ⊢
  have hhashes : m.toList.map Prod.snd = a.msgs.toList.map Prod.snd := by
    refine hashCodec.encodeAll_injective (by decide) ?_
    rw [Codec.encodeAll, Codec.encodeAll, List.flatMap_map, List.flatMap_map]
    exact h.unique _ hok
  refine Std.ExtTreeMap.toList_inj.mp (eq_of_map_snd hhashes fun p hp q hq heq => ?_)
  have hp := hsome (Map.mem_toList.mp hp)
  have hq := Map.mem_toList.mp hq
  exact Prod.ext (h.signed q.1 p.1 p.2 (heq ▸ hq) hp) heq

theorem faithful_received {entries : List (UInt64 × Hash)} :
    (n.received d error entries).Faithful n.msgs :=
  faithful_expected.insertAll entries

/-! ## Every order of steps -/

theorem reads_check (error : Bool) : readPeerCheck.Reads (checkByte error) error := by
  have hread : readPeerCheck.Reads (checkByte error) (decide (checkByte error ≠ [0])) :=
    .single (f := fun bs => decide (bs ≠ [0])) rfl
  cases error <;> exact hread

/-- One list has failed: it is sent again, in full. -/
theorem runs_again (h : Announces c b a) (da db : PeerDel) (blockA blockB : PeerBlock) :
    Link.Runs ⟨a.syncAgain c da true false blockA, b.syncAgain c db false true blockB, [], []⟩
      ⟨.done (a.received da true (b.servAdd db true)), .done blockB, [], []⟩ := by
  refine (Link.runs_toLeft (h.reads_add db da true) _ _).trans ?_
  rw [h.received_full]
  exact Link.runs_toRight (reads_check false) _ _

/-- Both lists have failed. -/
theorem runs_again_both (hab : Announces c a b) (hba : Announces c b a) (da db : PeerDel)
    (blockA blockB : PeerBlock) :
    Link.Runs ⟨a.syncAgain c da true true blockA, b.syncAgain c db true true blockB, [], []⟩
      ⟨.done (a.received da true (b.servAdd db true)),
        .done (b.received db true (a.servAdd da true)), [], []⟩ := by
  refine (Link.runs_exchange (hba.reads_add db da true) (hab.reads_add da db true) _ _).trans ?_
  rw [hab.received_full, hba.received_full]
  exact Link.runs_exchange (reads_check false) (reads_check false) _ _

/-- The nodes can come to the end of the exchange. -/
theorem runs_syncStart (hab : Announces c a b) (hba : Announces c b a) :
    ∃ blockA blockB : PeerBlock, (blockA.all = b.msgs ∧ blockA.Faithful a.msgs) ∧
      (blockB.all = a.msgs ∧ blockB.Faithful b.msgs) ∧
      Link.Runs ⟨a.syncStart c, b.syncStart c, [], []⟩ ⟨.done blockA, .done blockB, [], []⟩ := by
  obtain ⟨da, hda⟩ := hba.reads_del
  obtain ⟨db, hdb⟩ := hab.reads_del
  have hstart : Link.Runs ⟨a.syncStart c, b.syncStart c, [], []⟩
      ⟨a.syncAgain c da (a.failed c (a.received da false (b.servAdd db false)))
          (b.failed c (b.received db false (a.servAdd da false)))
          (a.received da false (b.servAdd db false)),
        b.syncAgain c db (b.failed c (b.received db false (a.servAdd da false)))
          (a.failed c (a.received da false (b.servAdd db false)))
          (b.received db false (a.servAdd da false)), [], []⟩ := by
    refine (Link.runs_exchange hda hdb _ _).trans ?_
    refine (Link.runs_exchange (hba.reads_add db da false) (hab.reads_add da db false) _ _).trans ?_
    exact Link.runs_exchange (reads_check _) (reads_check _) _ _
  have hfullA := @all_received_full b a db da
  have hfullB := @all_received_full a b da db
  cases hA : a.failed c (a.received da false (b.servAdd db false)) with
  | false =>
    have hokA := hba.received_eq hA
    cases hB : b.failed c (b.received db false (a.servAdd da false)) with
    | false =>
      have hokB := hab.received_eq hB
      rw [hA, hB] at hstart
      exact ⟨_, _, ⟨hokA, faithful_received⟩, ⟨hokB, faithful_received⟩, hstart⟩
    | true =>
      rw [hA, hB] at hstart
      refine ⟨_, _, ⟨hokA, faithful_received⟩, ⟨hfullB, faithful_received⟩, hstart.trans ?_⟩
      exact (runs_again hab db da (b.received db false (a.servAdd da false)) _).swap
  | true =>
    cases hB : b.failed c (b.received db false (a.servAdd da false)) with
    | false =>
      have hokB := hab.received_eq hB
      rw [hA, hB] at hstart
      refine ⟨_, _, ⟨hfullA, faithful_received⟩, ⟨hokB, faithful_received⟩, hstart.trans ?_⟩
      exact runs_again hba da db (a.received da false (b.servAdd db false)) _
    | true =>
      rw [hA, hB] at hstart
      refine ⟨_, _, ⟨hfullA, faithful_received⟩, ⟨hfullB, faithful_received⟩, hstart.trans ?_⟩
      exact runs_again_both hab hba da db (a.received da false (b.servAdd db false))
        (b.received db false (a.servAdd da false))

/-- Whatever the tables of the nodes say, and in whatever order the nodes and the network run: the
exchange ends after a fixed number of steps, no node leaves, and each node has the messages of the
other one, as its own messages with some deleted and some added. -/
theorem syncStart_exchange (hab : Announces c a b) (hba : Announces c b a) :
    ∃ blockA blockB : PeerBlock, (blockA.all = b.msgs ∧ blockA.Faithful a.msgs) ∧
      (blockB.all = a.msgs ∧ blockB.Faithful b.msgs) ∧
      ∃ total, ∀ m y, Steps Link.Step m ⟨a.syncStart c, b.syncStart c, [], []⟩ y →
        ∃ k, m + k = total ∧ Steps Link.Step k y ⟨.done blockA, .done blockB, [], []⟩ := by
  obtain ⟨blockA, blockB, hA, hB, hruns⟩ := runs_syncStart hab hba
  exact ⟨blockA, blockB, hA, hB, hruns.complete⟩

end SyncNode

namespace Sample

/-- A hash that is unique for two strings. -/
def twoHashes : Crypto where
  sha256 bs := if bs = [] then 0 else if bs = hashBytes 5 then 1 else 2
  signOpen _ _ _ := true
  strayLength _ := none

theorem twoHashes_unique (bs : List UInt8) : (twoHashes.sha256 bs = 0 → bs = []) ∧
    (twoHashes.sha256 bs = 1 → bs = hashBytes 5) := by
  simp only [twoHashes]
  split
  · exact ⟨fun _ => by assumption, fun h => absurd h (by decide)⟩
  split
  · exact ⟨fun h => absurd h (by decide), fun _ => by assumption⟩
  · exact ⟨fun h => absurd h (by decide), fun h => absurd h (by decide)⟩

/-- A node with one message, which it takes the peer to have already. -/
def withMessage : SyncNode where
  nodes := 2
  msgs := (∅ : Map UInt64 Hash).insert 0x0001000000070000 5
  svidMsgs := (∅ : Map UInt16 UInt32).insert 1 7
  svidMsidNew := (∅ : Map UInt16 UInt32).insert 1 7
  lastMessageHash := 0

def noMessage : SyncNode := ⟨2, ∅, ∅, ∅, 1⟩

theorem toList_withMessage : withMessage.msgs.toList = [(0x0001000000070000, 5)] := rfl

theorem withMessage_eq_some {k : UInt64} {x : Hash} (h : withMessage.msgs[k]? = some x) :
    k = 0x0001000000070000 := by
  have hmem : (k, x) ∈ withMessage.msgs.toList := Map.mem_toList.mpr h
  rw [toList_withMessage, List.mem_singleton] at hmem
  exact congrArg Prod.fst hmem

theorem mem_withMessage {k : UInt64} (h : k ∈ withMessage.msgs) : k = 0x0001000000070000 := by
  obtain ⟨x, hx⟩ := Option.isSome_iff_exists.mp (Std.ExtTreeMap.mem_iff_isSome_getElem?.mp h)
  exact withMessage_eq_some hx

theorem noMessage_eq_none {k : UInt64} {x : Hash} : ¬ noMessage.msgs[k]? = some x := by
  rw [noMessage, Std.ExtTreeMap.getElem?_empty]
  exact (Option.some_ne_none x).symm

theorem announces_withMessage : SyncNode.Announces twoHashes withMessage noMessage where
  keys k hk := by rw [mem_withMessage hk]; rfl
  svids k hk := by rw [mem_withMessage hk]; decide
  table svid hsvid := by
    rcases Map.mem_insert_iff.mp hsvid with rfl | hsvid
    · decide
    · exact absurd hsvid Std.ExtTreeMap.not_mem_empty
  nodes := by decide
  size := by rw [← Std.ExtTreeMap.length_toList, toList_withMessage]; decide
  hash := by rw [messagePhash, toList_withMessage]; decide
  unique bs hbs := by
    rw [toList_withMessage]
    exact (twoHashes_unique bs).2 hbs
  signed k k' x hk hk' := by
    rw [withMessage_eq_some hk, withMessage_eq_some (hk'.resolve_right noMessage_eq_none)]

theorem announces_noMessage : SyncNode.Announces twoHashes noMessage withMessage where
  keys k hk := absurd hk Std.ExtTreeMap.not_mem_empty
  svids k hk := absurd hk Std.ExtTreeMap.not_mem_empty
  table k hk := absurd hk Std.ExtTreeMap.not_mem_empty
  nodes := by decide
  size := by decide
  hash := by decide
  unique bs hbs := (twoHashes_unique bs).1 hbs
  signed k k' x hk := absurd hk noMessage_eq_none

end Sample

theorem SyncNode.syncStart_exchange_outdated :
    ∃ blockA blockB : PeerBlock,
      (blockA.all = Sample.noMessage.msgs ∧ blockA.Faithful Sample.withMessage.msgs) ∧
      (blockB.all = Sample.withMessage.msgs ∧ blockB.Faithful Sample.noMessage.msgs) ∧
      ∃ total, ∀ m y, Steps Link.Step m
          ⟨Sample.withMessage.syncStart Sample.twoHashes,
            Sample.noMessage.syncStart Sample.twoHashes, [], []⟩ y →
        ∃ k, m + k = total ∧ Steps Link.Step k y ⟨.done blockA, .done blockB, [], []⟩ :=
  syncStart_exchange Sample.announces_withMessage Sample.announces_noMessage

end Esc
