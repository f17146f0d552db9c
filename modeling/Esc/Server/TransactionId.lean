import Esc.Server.State

/-!
# Transaction ids in the block log

The keys of the block maps hold the number of the message relative to the previous block.
`ppi_txid` turns a key into the id of the transaction for the log of the block, whose hash
goes to node 0. It works on the key itself: first it overwrites the receiving bank with
the position, then it looks the number of the message up, with the position as the node.
-/

namespace Esc

open Lib

/-- The id of a transaction: message id, sending bank and position. -/
def packTxid (msid : UInt32) (svid tpos : UInt16) : UInt64 :=
  UInt64.ofNat (msid.toNat + 2 ^ 32 * svid.toNat + 2 ^ 48 * tpos.toNat)

/-- What a call of `ppi_txid` does: the node it reads, the id it returns and the key that it
leaves in the map. -/
structure TxidCall where
  node : Nat
  txid : UInt64
  key : UInt64
deriving DecidableEq

/-- `ppi_txid`; `outside` is the memory behind the node table. -/
def ppiTxid (last : Servers) (outside : Nat → UInt32) (ppi : UInt64) : TxidCall :=
  let tpos := UInt16.ofNat ppi.toNat
  let node := tpos.toNat
  let omsid := if node < last.nodes.size then (last.nodes.get node).msid else outside node
  let msid := omsid + UInt32.ofNat (ppi.toNat / 2 ^ 16 % 2 ^ 16)
  let v64 := packTxid msid (ppiAbank ppi) tpos
  { node := node, txid := v64, key := v64 }

/-- The ids that the log of a block is made of. -/
def logTxids (last : Servers) (outside : Nat → UInt32) (keys : List UInt64) : List UInt64 :=
  keys.map fun key => (ppiTxid last outside key).txid

/-- A transaction as `process_message` stores it. -/
structure StoredTx where
  tmpos : UInt32
  msid : UInt32
  abank : UInt16
  bbank : UInt16

/-- The number of the message after those of the previous block, as far as the key has
it. -/
def StoredTx.delta (t : StoredTx) (last : Servers) : Nat :=
  (t.msid - (last.node t.abank).msid).toNat % 2 ^ 16

def StoredTx.key (t : StoredTx) (last : Servers) : UInt64 :=
  makePpi t.tmpos (last.node t.abank).msid t.msid t.abank t.bbank

/-- The transaction is found again, whatever is in the memory behind the node table. -/
structure StoredTx.Recovered (t : StoredTx) (last : Servers) : Prop where
  inside : ∀ outside, (ppiTxid last outside (t.key last)).node < last.nodes.size
  position : t.tmpos.toNat < 2 ^ 16
  txid : ∀ outside, (ppiTxid last outside (t.key last)).txid =
    packTxid t.msid t.abank (UInt16.ofNat t.tmpos.toNat)
  key : ∀ outside, (ppiTxid last outside (t.key last)).key = t.key last

theorem toNat_packTxid (msid : UInt32) (svid tpos : UInt16) :
    (packTxid msid svid tpos).toNat = msid.toNat + 2 ^ 32 * svid.toNat + 2 ^ 48 * tpos.toNat := by
  have hmsid := msid.toNat_lt
  have hsvid := svid.toNat_lt
  have htpos := tpos.toNat_lt
  rw [packTxid, UInt64.toNat_ofNat']
  exact Nat.mod_eq_of_lt (by omega)

theorem packTxid_inj {msid msid' : UInt32} {svid svid' tpos tpos' : UInt16} :
    packTxid msid svid tpos = packTxid msid' svid' tpos' ↔
      msid = msid' ∧ svid = svid' ∧ tpos = tpos' := by
  constructor
  · intro h
    have hnat := congrArg UInt64.toNat h
    rw [toNat_packTxid, toNat_packTxid] at hnat
    have hmsid := msid.toNat_lt
    have hmsid' := msid'.toNat_lt
    have hsvid := svid.toNat_lt
    have hsvid' := svid'.toNat_lt
    refine ⟨UInt32.toNat_inj.mp (by omega), UInt16.toNat_inj.mp (by omega),
      UInt16.toNat_inj.mp (by omega)⟩
  · rintro ⟨rfl, rfl, rfl⟩
    rfl

/-- The parts of a stored key, as `ppi_txid` reads them. -/
theorem StoredTx.ppiTxid_key (t : StoredTx) (last : Servers) (outside : Nat → UInt32) :
    ppiTxid last outside (t.key last) =
      let tpos := UInt16.ofNat t.tmpos.toNat
      let omsid := if tpos.toNat < last.nodes.size then (last.nodes.get tpos.toNat).msid
        else outside tpos.toNat
      let v64 := packTxid (omsid + UInt32.ofNat (t.delta last)) t.abank tpos
      { node := tpos.toNat, txid := v64, key := v64 } := by
  have hnat : (t.key last).toNat = t.tmpos.toNat % 2 ^ 16 + 2 ^ 16 * t.delta last +
      2 ^ 32 * t.abank.toNat + 2 ^ 48 * t.bbank.toNat := toNat_makePpi ..
  have hdelta : t.delta last < 2 ^ 16 := Nat.mod_lt _ (by decide)
  have htpos : UInt16.ofNat (t.key last).toNat = UInt16.ofNat t.tmpos.toNat := by
    apply UInt16.toNat_inj.mp
    rw [UInt16.toNat_ofNat', UInt16.toNat_ofNat', hnat]
    omega
  have hmid : (t.key last).toNat / 2 ^ 16 % 2 ^ 16 = t.delta last := by
    rw [hnat]
    omega
  have habank : ppiAbank (t.key last) = t.abank := ppiAbank_makePpi ..
  rw [ppiTxid, htpos, hmid, habank]

/-- The node at the position of the transaction stands in for the sending bank, and the id
happens to be the key. -/
structure StoredTx.Coincides (t : StoredTx) (last : Servers) : Prop where
  inside : t.tmpos.toNat < last.nodes.size
  position : t.tmpos.toNat < 2 ^ 16
  number : (last.nodes.get t.tmpos.toNat).msid + UInt32.ofNat (t.delta last) = t.msid
  bank : t.bbank.toNat = t.tmpos.toNat
  word : t.msid.toNat = t.tmpos.toNat + 2 ^ 16 * t.delta last

theorem StoredTx.key_eq_packTxid {t : StoredTx} {last : Servers} (h : t.tmpos.toNat < 2 ^ 16) :
    packTxid t.msid t.abank (UInt16.ofNat t.tmpos.toNat) = t.key last ↔
      t.bbank.toNat = t.tmpos.toNat ∧ t.msid.toNat = t.tmpos.toNat + 2 ^ 16 * t.delta last := by
  have hkey : (t.key last).toNat = t.tmpos.toNat % 2 ^ 16 + 2 ^ 16 * t.delta last +
      2 ^ 32 * t.abank.toNat + 2 ^ 48 * t.bbank.toNat := toNat_makePpi ..
  have hdelta : t.delta last < 2 ^ 16 := Nat.mod_lt _ (by decide)
  have hmsid := t.msid.toNat_lt
  have habank := t.abank.toNat_lt
  have htpos : (UInt16.ofNat t.tmpos.toNat).toNat = t.tmpos.toNat := UInt16.toNat_ofNat_of_lt' h
  rw [← UInt64.toNat_inj, toNat_packTxid, hkey, htpos, Nat.mod_eq_of_lt h]
  clear hkey htpos
  omega

theorem StoredTx.recovered_iff (t : StoredTx) (last : Servers) :
    t.Recovered last ↔ t.Coincides last := by
  constructor
  · rintro ⟨hinside, hposition, htxid, hkey⟩
    have htpos : (UInt16.ofNat t.tmpos.toNat).toNat = t.tmpos.toNat :=
      UInt16.toNat_ofNat_of_lt' hposition
    have hnode := hinside fun _ => 0
    have htxid := htxid fun _ => 0
    have hkey := hkey fun _ => 0
    rw [t.ppiTxid_key] at hnode htxid hkey
    dsimp only at hnode htxid hkey
    rw [htpos] at hnode
    rw [htpos, if_pos hnode] at htxid hkey
    have hnumber := (packTxid_inj.mp htxid).1
    rw [hnumber] at hkey
    obtain ⟨hbank, hword⟩ := (StoredTx.key_eq_packTxid hposition).mp hkey
    exact ⟨hnode, hposition, hnumber, hbank, hword⟩
  · rintro ⟨hinside, hposition, hnumber, hbank, hword⟩
    have htpos : (UInt16.ofNat t.tmpos.toNat).toNat = t.tmpos.toNat :=
      UInt16.toNat_ofNat_of_lt' hposition
    have hcall : ∀ outside, ppiTxid last outside (t.key last) =
        ⟨t.tmpos.toNat, packTxid t.msid t.abank (UInt16.ofNat t.tmpos.toNat),
          packTxid t.msid t.abank (UInt16.ofNat t.tmpos.toNat)⟩ := by
      intro outside
      rw [t.ppiTxid_key]
      dsimp only
      rw [htpos, if_pos hinside, hnumber]
    refine ⟨fun outside => ?_, hposition, fun outside => ?_, fun outside => ?_⟩ <;> rw [hcall]
    · exact hinside
    · exact (StoredTx.key_eq_packTxid hposition).mpr ⟨hbank, hword⟩

/-- Ids that are looked up inside the node table are the same on all nodes. -/
theorem logTxids_congr {last : Servers} {keys : List UInt64}
    (h : ∀ key ∈ keys, key.toNat % 2 ^ 16 < last.nodes.size) (outside outside' : Nat → UInt32) :
    logTxids last outside keys = logTxids last outside' keys := by
  refine List.map_congr_left fun key hkey => ?_
  have hinside : (UInt16.ofNat key.toNat).toNat < last.nodes.size := by
    rw [UInt16.toNat_ofNat']
    exact h key hkey
  simp only [ppiTxid, if_pos hinside]

/-- A transaction is found again exactly when the node at its position has the right
message number and the id is the key; then the log does not depend on the memory behind
the node table. -/
theorem ppiTxid_recovers_iff (last : Servers) (t : StoredTx) :
    (t.Recovered last ↔ t.Coincides last) ∧
      ∀ ts : List StoredTx, (∀ t ∈ ts, t.Coincides last) → ∀ outside outside',
        logTxids last outside (ts.map fun t => t.key last) =
          logTxids last outside' (ts.map fun t => t.key last) := by
  refine ⟨t.recovered_iff last, fun ts hts outside outside' => logTxids_congr ?_ _ _⟩
  intro key hkey
  obtain ⟨t, ht, rfl⟩ := List.mem_map.mp hkey
  have hnat : (t.key last).toNat = t.tmpos.toNat % 2 ^ 16 + 2 ^ 16 * t.delta last +
      2 ^ 32 * t.abank.toNat + 2 ^ 48 * t.bbank.toNat := toNat_makePpi ..
  have hinside := (hts t ht).inside
  rw [hnat]
  omega

namespace Sample

/-- Two nodes; node 1 has sent seven messages. -/
def twoNodes : Servers where
  nodes := .ofList [{}, { msid := 7 }]

/-- The second transaction of the eighth message of node 1. -/
def secondTx : StoredTx := ⟨2, 8, 1, 1⟩

/-- The first transaction of the same message. -/
def firstTx : StoredTx := ⟨1, 8, 1, 1⟩

/-- Node 1 has sent `2 ^ 16` messages. -/
def busyNode : Servers where
  nodes := .ofList [{}, { msid := 0x10000 }]

/-- The first transaction of the next message. -/
def nextTx : StoredTx := ⟨1, 0x10001, 1, 1⟩

end Sample

theorem ppiTxid_recovers_next : Sample.nextTx.Recovered Sample.busyNode :=
  (ppiTxid_recovers_iff Sample.busyNode Sample.nextTx).1.mpr
    ⟨by decide, by decide, by decide, by decide, by decide⟩

/-- A transaction of node 1 is looked up behind a table of two nodes, so its id depends on
what is there; and the key of the first transaction, which gets its id, is overwritten by
it. -/
theorem ppiTxid_misses :
    (ppiTxid Sample.twoNodes (fun _ => 5) (Sample.secondTx.key Sample.twoNodes)).node = 2 ∧
      Sample.twoNodes.nodes.size = 2 ∧
      (ppiTxid Sample.twoNodes (fun _ => 5) (Sample.secondTx.key Sample.twoNodes)).txid =
        packTxid 6 1 2 ∧
      (ppiTxid Sample.twoNodes (fun _ => 9) (Sample.secondTx.key Sample.twoNodes)).txid =
        packTxid 10 1 2 ∧
      (ppiTxid Sample.twoNodes (fun _ => 5) (Sample.firstTx.key Sample.twoNodes)).txid =
        packTxid 8 1 1 ∧
      (ppiTxid Sample.twoNodes (fun _ => 5) (Sample.firstTx.key Sample.twoNodes)).key ≠
        Sample.firstTx.key Sample.twoNodes := by
  decide

end Esc
