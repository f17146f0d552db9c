import Esc.Message.DoubleSpend
import Esc.Servers

/-!
# How a double spend proof is built and received

A node that holds two messages of another node with the same message id joins them
behind the hash of the message before them and sends the result to its peers. A peer
reads the accused node from the head of the proof, but `read_head` looks for it
inside the signature of the first message. The check also wants votes without their
message lists and block headers without their vote counts, and three bytes hold the
length. The main result says exactly which proofs arrive.
-/

namespace Esc

open Lib

/-- What a node that builds a proof knows: its own id, the nodes already reported, the
last block, and the hash of a message by node id and message id if it has the message. -/
structure DblView where
  svid : UInt16
  time : UInt32
  doSync : Bool
  knownDbl : UInt16 → Bool
  last : Servers
  messageSvidmsid : UInt16 → UInt32 → Option Hash

/-- Hash of the message before the two, which only signatures of transactions cover. -/
def DblView.msha (v : DblView) (msg2 : Wire) : Option Hash :=
  if msg2.data 0 ≠ msgtypeMsg then some 0
  else if msg2.msid = 1 ∨ msg2.msid - 1 = (v.last.node msg2.svid).msid then
    some (v.last.node msg2.svid).msha
  else v.messageSvidmsid msg2.svid (msg2.msid - 1)

/-- The bytes of a proof. The length has three bytes. -/
def dblBytes (msg1 msg2 : Wire) (msha : Hash) : List UInt8 :=
  [msgtypeDbl] ++ (bytesLE 3 (4 + 32 + msg1.len + msg2.len) ++ (hashBytes msha ++
    (msg1.data.take msg1.len ++ msg2.data.take msg2.len)))

def dblMessage (v : DblView) (msg1 msg2 : Wire) (msha : Hash) : Wire where
  data := Bytes.ofList (dblBytes msg1 msg2 msha) fun _ => 0
  len := 4 + 32 + msg1.len + msg2.len
  svid := msg1.svid
  msid := msg1.msid
  now := v.time

/-- `server::create_double_spend_proof`. No proof is made for a node already reported, for
an old message, or without the message before. -/
def createDoubleSpendProof (v : DblView) (msg1 msg2 : Wire) : Except Stop (Option Wire) := do
  require (msg1.svid = msg2.svid ∧ msg1.msid = msg2.msid ∧ msg1.sigh ≠ msg2.sigh ∧
    v.doSync = false) .abort
  require (msg2.svid ≠ v.svid) .abort
  if v.knownDbl msg2.svid then return none
  if msg1.msid ≤ (v.last.node msg1.svid).msid then return none
  require (msg1.data 0 = msg2.data 0) .abort
  return (v.msha msg2).map (dblMessage v msg1 msg2)

/-- The message as a peer reads it, with other memory behind it. The peer takes the length
from the first bytes; `message::header` refuses short messages. -/
def Wire.arrive (m : Wire) (rest : Bytes) : Except Stop Wire := do
  let len := (m.data.skip 1).uint24
  require (4 + 64 + 10 < len) .fail
  return { data := Bytes.ofList (m.data.take len) rest, len := len }

/-- A message of one of the three kinds that a node has read from its bytes and whose
signature it has checked. -/
structure Received (c : Crypto) (pk msha : Hash) (m : Wire) : Prop where
  kind : m.data 0 = msgtypeMsg ∨ m.data 0 = msgtypeCnd ∨ m.data 0 = msgtypeBlk
  len_eq : m.len = (m.data.skip 1).uint24
  long : 4 + 64 + 10 < m.len
  read : m.receive c = .ok m
  valid : checkSignature c m pk msha = .ok ()

/-- A peer with the node's key reads the accused node and message from the proof and
accepts it. -/
def AcceptedBy (c : Crypto) (pk : Hash) (dbl msg : Wire) (rest : Bytes) : Prop :=
  ∃ w, dbl.arrive rest = .ok w ∧ w.readHead.svid = msg.svid ∧ w.readHead.msid = msg.msid ∧
    ∀ msha, checkSignature c w.readHead pk msha = .ok ()

/-- The messages of which a proof arrives: node id and message id happen to stand in the
signature of the first message where `read_head` looks for them, the lengths are what the
check expects, and transactions are of nearly the same time. -/
structure Provable (msg1 msg2 : Wire) : Prop where
  svid : (msg1.data.skip 32).uint16 = msg1.svid
  msid : (msg1.data.skip 34).uint32 = msg1.msid
  len : 4 + 32 + msg1.len + msg2.len < 2 ^ 24
  signature : (msg1.data.skip 4).take 64 ≠ (msg2.data.skip 4).take 64
  cnd : msg1.data 0 = msgtypeCnd → msg1.len = 4 + 64 + 10 + 32 ∧ msg2.len = 4 + 64 + 10 + 32
  blk : msg1.data 0 = msgtypeBlk →
    msg1.len = 4 + 64 + 10 + signedHeader ∧ msg2.len = 4 + 64 + 10 + signedHeader
  msg : msg1.data 0 = msgtypeMsg →
    msg1.now ≤ msg2.now + 3 * blockSec ∧ msg2.now ≤ msg1.now + 3 * blockSec

/-! ## The hash of a message depends on its own bytes only -/

section Congruence

variable {c : Crypto}

variable {d e : Bytes} {len : Nat} {svid : UInt16} {msid : UInt32}

theorem le_of_hashTxs {fuel p : Nat} {tnum : UInt16} {tree : HashTree}
    {r : Nat × UInt16 × HashTree} (h : hashTxs c d len svid msid fuel p tnum tree = .ok r) :
    p ≤ r.1 := by
  induction fuel generalizing p tnum tree with
  | zero => cases h
  | succ fuel ih =>
    rw [hashTxs] at h
    split at h
    · cases h
      exact le_rfl
    · split at h
      · cases h
      · exact le_trans (Nat.le_add_right _ _) (ih h)

theorem hashTxs_congr (hde : ∀ i < len, d i = e i) {fuel p : Nat} {tnum : UInt16}
    {tree : HashTree} {r : Nat × UInt16 × HashTree} (hend : r.1 = len)
    (h : hashTxs c d len svid msid fuel p tnum tree = .ok r) :
    hashTxs c e len svid msid fuel p tnum tree = .ok r := by
  induction fuel generalizing p tnum tree with
  | zero => cases h
  | succ fuel ih =>
    rw [hashTxs] at h ⊢
    split at h
    case isTrue hp => rw [if_pos hp, h]
    case isFalse hp =>
      rw [if_neg hp]
      split at h
      · cases h
      case h_2 l hl =>
        have hle : p + l ≤ len := hend ▸ le_of_hashTxs h
        have hbytes : ∀ i < l, d.skip p i = e.skip p i := by
          intro i hi
          exact hde (p + i) (by omega)
        rw [getSize_congr (hde p (by omega)) hl hbytes]
        dsimp only
        rw [← Bytes.take_congr hbytes]
        exact ih h

theorem hashTreeFast_eq_ok {sigh : Hash} :
    hashTreeFast c d len svid msid = .ok sigh ↔
      (d 0 = msgtypeMsg ∧ svid ≠ 0 ∧ msid ≠ 0) ∧ 4 + 64 + 10 < len ∧
      ∃ r, hashTxs c d len svid msid (len + 1) (4 + 64 + 10) 1
          (HashTree.empty.update c (c.sha256 ((d.skip (4 + 64)).take 10))) = .ok r ∧
        r.2.1 ≠ 0 ∧ r.1 = len ∧ HashTree.finish c r.2.2 = sigh := by
  rw [hashTreeFast, require_bind_eq_ok, require_bind_eq_ok, bind_eq_ok_iff]
  simp only [require_bind_eq_ok, pure, Except.pure, Except.ok.injEq]

/-- Memory behind a message does not enter its hash. -/
theorem hashTreeFast_congr (hde : ∀ i < len, d i = e i) {sigh : Hash}
    (h : hashTreeFast c d len svid msid = .ok sigh) :
    hashTreeFast c e len svid msid = .ok sigh := by
  obtain ⟨⟨htype, hids⟩, hlong, r, hloop, htnum, hend, hfinish⟩ := hashTreeFast_eq_ok.mp h
  have hhead : (d.skip (4 + 64)).take 10 = (e.skip (4 + 64)).take 10 :=
    Bytes.take_congr fun i hi => hde (4 + 64 + i) (by omega)
  rw [hhead] at hloop
  refine hashTreeFast_eq_ok.mpr ⟨⟨?_, hids⟩, hlong, r, ?_, htnum, hend, hfinish⟩
  · rw [← hde 0 (by omega)]
    exact htype
  · exact hashTxs_congr hde hend hloop

end Congruence

/-! ## The two messages inside a proof -/

/-- A copy of a message with other memory behind it. -/
structure Copies (w m : Wire) : Prop where
  len : w.len = m.len
  data : ∀ i < m.len, w.data i = m.data i

theorem Copies.take {w m : Wire} (h : Copies w m) {off n : Nat} (hle : off + n ≤ m.len) :
    (w.data.skip off).take n = (m.data.skip off).take n :=
  Bytes.take_congr fun i hi => h.data (off + i) (by omega)

section Built

variable (msg1 msg2 : Wire) (msha : Hash) (rest : Bytes)

theorem dblBytes_first {i : Nat} (hi : i < msg1.len) :
    Bytes.ofList (dblBytes msg1 msg2 msha) rest (4 + 32 + i) = msg1.data i := by
  have hoff : 4 + 32 + i = [msgtypeDbl].length +
      ((bytesLE 3 (4 + 32 + msg1.len + msg2.len)).length + ((hashBytes msha).length + i)) := by
    simp [bytesLE]
    omega
  rw [hoff, dblBytes, Bytes.ofList_append_right, Bytes.ofList_append_right,
    Bytes.ofList_append_right, Bytes.ofList_append_left _ _ _ (by simpa using hi)]
  simp [Bytes.take, hi]

theorem dblBytes_second {i : Nat} (hi : i < msg2.len) :
    Bytes.ofList (dblBytes msg1 msg2 msha) rest (4 + 32 + msg1.len + i) = msg2.data i := by
  have hoff : 4 + 32 + msg1.len + i = [msgtypeDbl].length +
      ((bytesLE 3 (4 + 32 + msg1.len + msg2.len)).length + ((hashBytes msha).length +
        ((msg1.data.take msg1.len).length + i))) := by
    simp [bytesLE]
    omega
  rw [hoff, dblBytes, Bytes.ofList_append_right, Bytes.ofList_append_right,
    Bytes.ofList_append_right, Bytes.ofList_append_right, Bytes.ofList_take _ _ hi]

theorem dblBytes_uint24 :
    ((Bytes.ofList (dblBytes msg1 msg2 msha) rest).skip 1).uint24 =
      (4 + 32 + msg1.len + msg2.len) % 2 ^ 24 := by
  have htake : ((Bytes.ofList (dblBytes msg1 msg2 msha) rest).skip 1).take 3 =
      bytesLE 3 (4 + 32 + msg1.len + msg2.len) := rfl
  rw [Bytes.uint24, htake, ofLE_bytesLE]
  norm_num

theorem dblBytes_msha : readHash ((Bytes.ofList (dblBytes msg1 msg2 msha) rest).skip 4) = msha := by
  have htake : ((Bytes.ofList (dblBytes msg1 msg2 msha) rest).skip 4).take 32 =
      hashBytes msha := rfl
  rw [readHash, htake, hashBytes, ofLE_bytesLE]
  apply BitVec.eq_of_toNat_eq
  rw [BitVec.toNat_ofNat]
  have hlt := msha.isLt
  omega

end Built

/-! ## Which proofs arrive -/

section Accepted

variable {c : Crypto} {pk msha : Hash} {m msg1 msg2 w : Wire}

theorem Received.ids (h : Received c pk msha m) :
    m.svid = (m.data.skip (4 + 64)).uint16 ∧ m.msid = (m.data.skip (4 + 64 + 2)).uint32 ∧
      m.now = (m.data.skip (4 + 64 + 6)).uint32 := by
  have hhead : m.readHead = m.readIds (4 + 64) := Wire.readHead_eq (by have := h.kind; tauto)
  have hread := h.read
  rw [Wire.receive, hhead] at hread
  split at hread
  · obtain ⟨sigh, -, heq⟩ := bind_eq_ok_iff.mp hread
    injection heq with heq
    rw [← heq]
    exact ⟨rfl, rfl, rfl⟩
  · injection hread with heq
    rw [← heq]
    exact ⟨rfl, rfl, rfl⟩

/-- Votes and block headers are received as they are. -/
theorem Wire.receive_hashSignature (h : m.data 0 = msgtypeCnd ∨ m.data 0 = msgtypeBlk) :
    m.readHead.hashSignature.receive c = .ok m.readHead.hashSignature := by
  have hmsg : m.data 0 ≠ msgtypeMsg := by rcases h with h | h <;> rw [h] <;> decide
  have hhead : m.readHead = m.readIds (4 + 64) := Wire.readHead_eq (.inr (by tauto))
  have hagain : (m.readIds (4 + 64)).hashSignature.readHead =
      (m.readIds (4 + 64)).hashSignature.readIds (4 + 64) :=
    Wire.readHead_eq (m := (m.readIds (4 + 64)).hashSignature) (.inr (by
      rcases h with h | h
      · exact .inl h
      · exact .inr (.inl h)))
  rw [hhead, Wire.receive, hagain]
  exact if_neg hmsg

theorem Received.verify (h : Received c pk msha m) : m.verify c pk msha = .ok () :=
  bind_eq_ok_iff.mpr ⟨m, h.read, h.valid⟩

/-- Copies of checked transactions pass the check inside a proof if their times are close. -/
theorem checkDblSignatures_copies_msg {w1 w2 : Wire} (h1 : Received c pk msha msg1)
    (h2 : Received c pk msha msg2) (hw1 : Copies w1 msg1) (hw2 : Copies w2 msg2)
    (htype : msg1.data 0 = msg2.data 0) (hkind : msg1.data 0 = msgtypeMsg) :
    checkDblSignatures c pk msha w1 w2 = .ok () ↔
      msg1.now ≤ msg2.now + 3 * blockSec ∧ msg2.now ≤ msg1.now + 3 * blockSec := by
  have hlong1 := h1.long
  have hlong2 := h2.long
  have hzero : w1.data 0 = msgtypeMsg := by rw [hw1.data 0 (by omega), hkind]
  rw [checkDblSignatures_msg hzero, h1.ids.2.2, h2.ids.2.2,
    Bytes.uint32_congr (hw1.take (by omega)), Bytes.uint32_congr (hw2.take (by omega))]
  apply and_iff_left
  obtain ⟨sigh1, hsigh1, hopen1⟩ := (Wire.verify_msg hkind).mp h1.verify
  obtain ⟨sigh2, hsigh2, hopen2⟩ := (Wire.verify_msg (htype ▸ hkind)).mp h2.verify
  have hcopy : ∀ {w m : Wire} {sigh : Hash}, Copies w m → 4 + 64 + 10 < m.len →
      hashTreeFast c m.data m.len (m.data.skip (4 + 64)).uint16
        (m.data.skip (4 + 64 + 2)).uint32 = .ok sigh →
      hashTreeFast c w.data w.len (w.data.skip (4 + 64)).uint16
        (w.data.skip (4 + 64 + 2)).uint32 = .ok sigh := by
    intro w m sigh hw hlong hsigh
    rw [hw.len, Bytes.uint16_congr (hw.take (by omega)), Bytes.uint32_congr (hw.take (by omega))]
    exact hashTreeFast_congr (fun i hi => (hw.data i hi).symm) hsigh
  refine ⟨sigh1, hcopy hw1 hlong1 hsigh1, sigh2, hcopy hw2 hlong2 hsigh2, ?_, ?_⟩
  · rwa [readSignature, hw1.take (by omega)]
  · rwa [readSignature, hw2.take (by omega)]

/-- Votes pass only without their message lists. -/
theorem checkDblSignatures_copies_cnd {w1 w2 : Wire} (h1 : Received c pk msha msg1)
    (h2 : Received c pk msha msg2) (hw1 : Copies w1 msg1) (hw2 : Copies w2 msg2)
    (htype : msg1.data 0 = msg2.data 0) (hkind : msg1.data 0 = msgtypeCnd) :
    checkDblSignatures c pk msha w1 w2 = .ok () ↔
      msg1.len = 4 + 64 + 10 + 32 ∧ msg2.len = 4 + 64 + 10 + 32 := by
  have hlong1 := h1.long
  have hlong2 := h2.long
  have hzero : w1.data 0 = msgtypeCnd := by rw [hw1.data 0 (by omega), hkind]
  rw [checkDblSignatures_cnd hzero, hw1.len, hw2.len]
  constructor
  · rintro ⟨heq, hlen, -⟩
    exact ⟨hlen, heq ▸ hlen⟩
  · rintro ⟨hlen1, hlen2⟩
    refine ⟨hlen1.trans hlen2.symm, hlen1, ?_, ?_⟩
    · rw [readSignature, hw1.take (by omega), hw1.take (by omega)]
      exact (Wire.verify_cnd hkind).mp h1.verify
    · rw [readSignature, hw2.take (by omega), hw2.take (by omega)]
      exact (Wire.verify_cnd (htype ▸ hkind)).mp h2.verify

/-- Block headers pass only without their vote counts. -/
theorem checkDblSignatures_copies_blk {w1 w2 : Wire} (h1 : Received c pk msha msg1)
    (h2 : Received c pk msha msg2) (hw1 : Copies w1 msg1) (hw2 : Copies w2 msg2)
    (htype : msg1.data 0 = msg2.data 0) (hkind : msg1.data 0 = msgtypeBlk) :
    checkDblSignatures c pk msha w1 w2 = .ok () ↔
      msg1.len = 4 + 64 + 10 + signedHeader ∧ msg2.len = 4 + 64 + 10 + signedHeader := by
  have hlong1 := h1.long
  have hlong2 := h2.long
  have hzero : w1.data 0 = msgtypeBlk := by rw [hw1.data 0 (by omega), hkind]
  rw [checkDblSignatures_blk hzero, hw1.len, hw2.len]
  constructor
  · rintro ⟨heq, hlen, -⟩
    exact ⟨hlen, heq ▸ hlen⟩
  · rintro ⟨hlen1, hlen2⟩
    have hheader : 4 ≤ signedHeader := by decide
    obtain ⟨hnow, hopen1⟩ := (Wire.verify_blk hkind).mp h1.verify
    obtain ⟨-, hopen2⟩ := (Wire.verify_blk (htype ▸ hkind)).mp h2.verify
    refine ⟨hlen1.trans hlen2.symm, hlen1, ?_, ?_, ?_⟩
    · rw [Bytes.uint32_congr (hw1.take (by omega)), Bytes.uint32_congr (hw1.take (by omega))]
      exact Bytes.uint32_congr hnow.symm
    · rw [readSignature, hw1.take (by omega), hw1.take (by omega)]
      exact hopen1
    · rw [readSignature, hw2.take (by omega), hw2.take (by omega)]
      exact hopen2

/-- The check of a complete proof of two received messages. -/
theorem checkDbl_copies_iff (h1 : Received c pk msha msg1) (h2 : Received c pk msha msg2)
    (hw1 : Copies w.first msg1) (hw2 : Copies w.second msg2)
    (hlen : w.len = 4 + 32 + msg1.len + msg2.len) (hmsha : w.dblMsha = msha)
    (htype : msg1.data 0 = msg2.data 0) (hsvid : msg1.svid = msg2.svid)
    (hmsid : msg1.msid = msg2.msid) :
    checkDbl c w pk = .ok () ↔
      (msg1.data.skip 4).take 64 ≠ (msg2.data.skip 4).take 64 ∧
      checkDblSignatures c pk msha w.first w.second = .ok () := by
  have hlong1 := h1.long
  have hlong2 := h2.long
  rw [checkDbl_iff, hmsha, hw1.len, hw2.len, hlen, hw1.data 0 (by omega), hw2.data 0 (by omega),
    hw1.take (by omega), hw2.take (by omega), Bytes.uint16_congr (hw1.take (by omega)),
    Bytes.uint16_congr (hw2.take (by omega)), Bytes.uint32_congr (hw1.take (by omega)),
    Bytes.uint32_congr (hw2.take (by omega)), ← h1.ids.1, ← h1.ids.2.1, ← h2.ids.1, ← h2.ids.2.1]
  constructor
  · rintro ⟨-, -, -, -, hsig, hcheck⟩
    exact ⟨hsig, hcheck⟩
  · rintro ⟨hsig, hcheck⟩
    exact ⟨by omega, rfl, htype, ⟨hsvid, hmsid⟩, hsig, hcheck⟩

/-- What a peer has of a proof: its bytes up to the length in the head. -/
structure ProofArrived (msg1 msg2 : Wire) (msha : Hash) (w : Wire) : Prop where
  long : 4 + 64 + 10 < w.len
  len : w.len = (4 + 32 + msg1.len + msg2.len) % 2 ^ 24
  data : ∀ i < w.len, w.data i = Bytes.ofList (dblBytes msg1 msg2 msha) (fun _ => 0) i

theorem createDoubleSpendProof_built {v : DblView} {dbl : Wire} (hmsha : v.msha msg2 = some msha)
    (h : createDoubleSpendProof v msg1 msg2 = .ok (some dbl)) :
    msg1.data 0 = msg2.data 0 ∧ msg1.svid = msg2.svid ∧ msg1.msid = msg2.msid ∧
      dbl.data = Bytes.ofList (dblBytes msg1 msg2 msha) fun _ => 0 := by
  rw [createDoubleSpendProof, require_bind_eq_ok, require_bind_eq_ok] at h
  obtain ⟨⟨hsvid, hmsid, -⟩, -, h⟩ := h
  split at h
  · cases h
  · split at h
    · cases h
    · rw [require_bind_eq_ok, hmsha] at h
      obtain ⟨htype, h⟩ := h
      injection h with h
      injection h with h
      rw [← h]
      exact ⟨htype, hsvid, hmsid, rfl⟩

/-- The conditions under which a proof is built. -/
theorem createDoubleSpendProof_of {v : DblView} (hmsha : v.msha msg2 = some msha)
    (hids : msg1.svid = msg2.svid ∧ msg1.msid = msg2.msid ∧ msg1.sigh ≠ msg2.sigh ∧
      v.doSync = false)
    (hown : msg2.svid ≠ v.svid) (hknown : v.knownDbl msg2.svid = false)
    (hnew : ¬msg1.msid ≤ (v.last.node msg1.svid).msid) (htype : msg1.data 0 = msg2.data 0) :
    createDoubleSpendProof v msg1 msg2 = .ok (some (dblMessage v msg1 msg2 msha)) := by
  refine require_bind_eq_ok.mpr ⟨hids, require_bind_eq_ok.mpr ⟨hown, ?_⟩⟩
  rw [if_neg (by simp [hknown]), if_neg hnew]
  refine require_bind_eq_ok.mpr ⟨htype, ?_⟩
  rw [hmsha]
  rfl

theorem proofArrived_of_arrive {dbl : Wire} {rest : Bytes}
    (hdata : dbl.data = Bytes.ofList (dblBytes msg1 msg2 msha) fun _ => 0)
    (h : dbl.arrive rest = .ok w) : ProofArrived msg1 msg2 msha w := by
  rw [Wire.arrive, require_bind_eq_ok] at h
  obtain ⟨hlong, h⟩ := h
  injection h with h
  rw [← h]
  refine ⟨hlong, ?_, ?_⟩
  · show (dbl.data.skip 1).uint24 = _
    rw [hdata, dblBytes_uint24]
  · intro i hi
    show Bytes.ofList (dbl.data.take _) rest i = _
    rw [Bytes.ofList_take _ _ hi, hdata]

theorem ProofArrived.first (h : ProofArrived msg1 msg2 msha w) {i : Nat} (hi : i < msg1.len)
    (hw : 4 + 32 + i < w.len) : w.data (4 + 32 + i) = msg1.data i := by
  rw [h.data _ hw, dblBytes_first _ _ _ _ hi]

theorem ProofArrived.first_take (h : ProofArrived msg1 msg2 msha w) {off n : Nat}
    (hi : off + n ≤ msg1.len) (hw : 4 + 32 + off + n ≤ w.len) :
    (w.data.skip (4 + 32 + off)).take n = (msg1.data.skip off).take n := by
  apply Bytes.take_congr
  intro i hin
  rw [Bytes.skip_apply, Nat.add_assoc]
  exact h.first (by omega) (by omega)

theorem ProofArrived.first_len (h : ProofArrived msg1 msg2 msha w)
    (h1 : Received c pk msha msg1) : w.first.len = msg1.len := by
  have hlong := h.long
  have hlong1 := h1.long
  have htake : (w.data.skip (4 + 32 + 1)).take 3 = (msg1.data.skip 1).take 3 :=
    h.first_take (by omega) (by omega)
  rw [h1.len_eq]
  exact Bytes.uint24_congr htake

/-- A length that needs more than three bytes is cut and no longer covers the first
message. -/
theorem ProofArrived.len_lt (h : ProofArrived msg1 msg2 msha w) (h1 : Received c pk msha msg1)
    (h2 : Received c pk msha msg2) (hcheck : checkDbl c w pk = .ok ()) :
    4 + 32 + msg1.len + msg2.len < 2 ^ 24 := by
  have hcover := (checkDbl_iff.mp hcheck).1
  have hlen2 : msg2.len < 2 ^ 24 := h2.len_eq ▸ Bytes.uint24_lt _
  have hlen := h.len
  rw [h.first_len h1] at hcover
  omega

theorem ProofArrived.copies (h : ProofArrived msg1 msg2 msha w) (h1 : Received c pk msha msg1)
    (h2 : Received c pk msha msg2) (hlen : 4 + 32 + msg1.len + msg2.len < 2 ^ 24) :
    w.len = 4 + 32 + msg1.len + msg2.len ∧ Copies w.first msg1 ∧ Copies w.second msg2 := by
  have hlong1 := h1.long
  have hlong2 := h2.long
  have hwlen : w.len = 4 + 32 + msg1.len + msg2.len := by rw [h.len, Nat.mod_eq_of_lt hlen]
  have hfirst := h.first_len h1
  have hsecond : ∀ i < msg2.len, w.second.data i = msg2.data i := by
    intro i hi
    show w.data (4 + 32 + w.first.len + i) = _
    rw [hfirst, h.data _ (by omega), dblBytes_second _ _ _ _ hi]
  refine ⟨hwlen, ⟨hfirst, ?_⟩, ⟨?_, hsecond⟩⟩
  · intro i hi
    exact h.first hi (by omega)
  · rw [h2.len_eq]
    exact Bytes.uint24_congr (Bytes.take_congr fun i hi => hsecond (1 + i) (by omega))

theorem ProofArrived.msha_eq (h : ProofArrived msg1 msg2 msha w) : w.dblMsha = msha := by
  have hlong := h.long
  have htake : (w.data.skip 4).take 32 =
      ((Bytes.ofList (dblBytes msg1 msg2 msha) fun _ => 0).skip 4).take 32 :=
    Bytes.take_congr fun i hi => h.data (4 + i) (by omega)
  rw [Wire.dblMsha, readHash, htake]
  exact dblBytes_msha msg1 msg2 msha _

/-- `read_head` looks 32 bytes into the first message. -/
theorem ProofArrived.readHead (h : ProofArrived msg1 msg2 msha w) (h1 : Received c pk msha msg1) :
    w.data 0 = msgtypeDbl ∧ w.readHead.svid = (msg1.data.skip 32).uint16 ∧
      w.readHead.msid = (msg1.data.skip 34).uint32 := by
  have hlong := h.long
  have hlong1 := h1.long
  have hzero : w.data 0 = msgtypeDbl := h.data 0 (by omega)
  rw [Wire.readHead_eq (.inr (.inr (.inr hzero)))]
  have hsvid : (w.data.skip (4 + 32 + 32)).take 2 = (msg1.data.skip 32).take 2 :=
    h.first_take (by omega) (by omega)
  have hmsid : (w.data.skip (4 + 32 + 34)).take 4 = (msg1.data.skip 34).take 4 :=
    h.first_take (by omega) (by omega)
  exact ⟨hzero, Bytes.uint16_congr hsvid, Bytes.uint32_congr hmsid⟩

theorem ProofArrived.checkSignature (h : ProofArrived msg1 msg2 msha w)
    (h1 : Received c pk msha msg1) (msha' : Hash) :
    checkSignature c w.readHead pk msha' = checkDbl c w pk := by
  have hzero := (h.readHead h1).1
  rw [Wire.readHead_eq (.inr (.inr (.inr hzero)))]
  exact checkSignature_dbl (m := w.readIds (4 + 64)) hzero

/-- The check of the signatures of a complete proof comes down to lengths and times. -/
theorem checkDblSignatures_copies_iff {w1 w2 : Wire} (h1 : Received c pk msha msg1)
    (h2 : Received c pk msha msg2) (hw1 : Copies w1 msg1) (hw2 : Copies w2 msg2)
    (htype : msg1.data 0 = msg2.data 0) :
    checkDblSignatures c pk msha w1 w2 = .ok () ↔
      (msg1.data 0 = msgtypeCnd →
        msg1.len = 4 + 64 + 10 + 32 ∧ msg2.len = 4 + 64 + 10 + 32) ∧
      (msg1.data 0 = msgtypeBlk →
        msg1.len = 4 + 64 + 10 + signedHeader ∧ msg2.len = 4 + 64 + 10 + signedHeader) ∧
      (msg1.data 0 = msgtypeMsg →
        msg1.now ≤ msg2.now + 3 * blockSec ∧ msg2.now ≤ msg1.now + 3 * blockSec) := by
  rcases h1.kind with hkind | hkind | hkind
  · rw [checkDblSignatures_copies_msg h1 h2 hw1 hw2 htype hkind]
    simp [hkind, msgtypeMsg, msgtypeCnd, msgtypeBlk]
  · rw [checkDblSignatures_copies_cnd h1 h2 hw1 hw2 htype hkind]
    simp [hkind, msgtypeMsg, msgtypeCnd, msgtypeBlk]
  · rw [checkDblSignatures_copies_blk h1 h2 hw1 hw2 htype hkind]
    simp [hkind, msgtypeMsg, msgtypeCnd, msgtypeBlk]

end Accepted

/-- A proof that a node builds of two received messages is read correctly and accepted by
a peer exactly if the messages are provable. -/
theorem createDoubleSpendProof_accepted_iff {c : Crypto} {pk msha : Hash} {v : DblView}
    {msg1 msg2 dbl : Wire} (h1 : Received c pk msha msg1) (h2 : Received c pk msha msg2)
    (hmsha : v.msha msg2 = some msha)
    (hbuilt : createDoubleSpendProof v msg1 msg2 = .ok (some dbl)) (rest : Bytes) :
    AcceptedBy c pk dbl msg1 rest ↔ Provable msg1 msg2 := by
  obtain ⟨htype, hsvid, hmsid, hdata⟩ := createDoubleSpendProof_built hmsha hbuilt
  constructor
  · rintro ⟨w, harrive, hsvid', hmsid', hcheck⟩
    have hw := proofArrived_of_arrive hdata harrive
    obtain ⟨-, hheadSvid, hheadMsid⟩ := hw.readHead h1
    have hdbl : checkDbl c w pk = .ok () := (hw.checkSignature h1 0).symm.trans (hcheck 0)
    have hlen := hw.len_lt h1 h2 hdbl
    obtain ⟨hwlen, hw1, hw2⟩ := hw.copies h1 h2 hlen
    rw [checkDbl_copies_iff h1 h2 hw1 hw2 hwlen hw.msha_eq htype hsvid hmsid,
      checkDblSignatures_copies_iff h1 h2 hw1 hw2 htype] at hdbl
    exact ⟨hheadSvid ▸ hsvid', hheadMsid ▸ hmsid', hlen, hdbl.1, hdbl.2.1, hdbl.2.2.1, hdbl.2.2.2⟩
  · intro h
    have hlong1 := h1.long
    have hlong : 4 + 64 + 10 < (dbl.data.skip 1).uint24 := by
      rw [hdata, dblBytes_uint24, Nat.mod_eq_of_lt h.len]
      omega
    have harrive : dbl.arrive rest = .ok _ := require_bind_eq_ok.mpr ⟨hlong, rfl⟩
    have hw := proofArrived_of_arrive hdata harrive
    obtain ⟨-, hheadSvid, hheadMsid⟩ := hw.readHead h1
    obtain ⟨hwlen, hw1, hw2⟩ := hw.copies h1 h2 h.len
    refine ⟨_, harrive, hheadSvid.trans h.svid, hheadMsid.trans h.msid, ?_⟩
    intro msha'
    rw [hw.checkSignature h1]
    refine (checkDbl_copies_iff h1 h2 hw1 hw2 hwlen hw.msha_eq htype hsvid hmsid).mpr
      ⟨h.signature, ?_⟩
    exact (checkDblSignatures_copies_iff h1 h2 hw1 hw2 htype).mpr ⟨h.cnd, h.blk, h.msg⟩

namespace Sample

/-- A node that has reported nobody and whose last block has no message of node 1. -/
def view : DblView where
  svid := 2
  time := 700
  doSync := false
  knownDbl _ := false
  last := {}
  messageSvidmsid _ _ := none

/-- A vote of node 1 as received. -/
def receivedVote (sig hash : Nat) : Wire :=
  let m : Wire := { data := Bytes.ofList (vote sig hash) fun _ => 0, len := 4 + 64 + 10 + 32 }
  m.readHead.hashSignature

theorem receivedVote_data_zero (sig hash : Nat) :
    (receivedVote sig hash).data 0 = msgtypeCnd := rfl

theorem received_vote {sig hash : Nat}
    (hlen : ((receivedVote sig hash).data.skip 1).uint24 = 4 + 64 + 10 + 32) :
    Received allValid 0 0 (receivedVote sig hash) where
  kind := .inr (.inl (receivedVote_data_zero sig hash))
  len_eq := hlen.symm
  long := show 4 + 64 + 10 < 4 + 64 + 10 + 32 by decide
  read := Wire.receive_hashSignature (.inl (receivedVote_data_zero sig hash))
  valid := (checkSignature_cnd (receivedVote_data_zero sig hash)).mpr rfl

/-- A signature that has node id 1 and message id 512 where they are looked for. -/
def luckySignature : Nat := 256 ^ 28 + 512 * 256 ^ 30

theorem view_msha : view.msha (receivedVote 2 8) = some 0 := if_pos (by decide)

theorem createDoubleSpendProof_votes {sig : Nat}
    (hids : (receivedVote sig 7).svid = 1 ∧ (receivedVote sig 7).msid = 512)
    (hsigh : (receivedVote sig 7).sigh ≠ (receivedVote 2 8).sigh) :
    ∃ dbl, createDoubleSpendProof view (receivedVote sig 7) (receivedVote 2 8) =
      .ok (some dbl) := by
  have hsvid : (receivedVote 2 8).svid = 1 := by decide +kernel
  have hmsid : (receivedVote 2 8).msid = 512 := by decide +kernel
  refine ⟨_, createDoubleSpendProof_of view_msha ⟨?_, ?_, hsigh, rfl⟩ ?_ rfl ?_ rfl⟩
  · rw [hids.1, hsvid]
  · rw [hids.2, hmsid]
  · rw [hsvid]
    decide
  · rw [hids.1, hids.2]
    decide

theorem provable_votes : Provable (receivedVote luckySignature 7) (receivedVote 2 8) where
  svid := by decide +kernel
  msid := by decide +kernel
  len := by decide
  signature := by decide +kernel
  cnd _ := ⟨rfl, rfl⟩
  blk h := absurd h (by decide)
  msg h := absurd h (by decide)

end Sample

/-- A proof of two votes arrives if the first signature is lucky. -/
theorem createDoubleSpendProof_accepted_votes :
    ∃ dbl, createDoubleSpendProof Sample.view (Sample.receivedVote Sample.luckySignature 7)
        (Sample.receivedVote 2 8) = .ok (some dbl) ∧
      AcceptedBy Sample.allValid 0 dbl (Sample.receivedVote Sample.luckySignature 7)
        fun _ => 0 := by
  obtain ⟨dbl, hbuilt⟩ := @Sample.createDoubleSpendProof_votes Sample.luckySignature
    (by decide +kernel) (by decide +kernel)
  refine ⟨dbl, hbuilt, ?_⟩
  exact (createDoubleSpendProof_accepted_iff (Sample.received_vote (by decide +kernel))
    (Sample.received_vote (by decide +kernel)) Sample.view_msha hbuilt _).mpr
      Sample.provable_votes

/-- A proof of two votes with other signatures is not accepted by anyone. -/
theorem createDoubleSpendProof_lost :
    ∃ dbl, createDoubleSpendProof Sample.view (Sample.receivedVote 1 7)
        (Sample.receivedVote 2 8) = .ok (some dbl) ∧
      Received Sample.allValid 0 0 (Sample.receivedVote 1 7) ∧
      Received Sample.allValid 0 0 (Sample.receivedVote 2 8) ∧
      ∀ rest, ¬AcceptedBy Sample.allValid 0 dbl (Sample.receivedVote 1 7) rest := by
  obtain ⟨dbl, hbuilt⟩ := @Sample.createDoubleSpendProof_votes 1 (by decide +kernel)
    (by decide +kernel)
  have hreceived : Received Sample.allValid 0 0 (Sample.receivedVote 1 7) :=
    Sample.received_vote (by decide +kernel)
  refine ⟨dbl, hbuilt, hreceived, Sample.received_vote (by decide +kernel), ?_⟩
  rintro rest ⟨w, harrive, hsvid, -⟩
  obtain ⟨-, -, -, hdata⟩ := createDoubleSpendProof_built Sample.view_msha hbuilt
  have hw := proofArrived_of_arrive hdata harrive
  rw [(hw.readHead hreceived).2.1] at hsvid
  exact absurd hsvid (by decide +kernel)

end Esc
