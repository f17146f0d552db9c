import Esc.Lib.Map
import Esc.Lib.ReadLog
import Esc.Message.Positions

/-!
# Votes of a peer for a block

A `CND` message names a candidate by its hash. If the node does not know the candidate, the
message also has to list the messages by which the candidate differs from the peer's block:
two counts, the keys to delete, and the keys to add with their hashes.

`parse_vote` is modelled with its reads. The lengths are compared in the arithmetic of the
source, where the product of the first count is a 32-bit number and that of the second a
64-bit one.
-/

namespace Esc

open Lib

/-- The messages of a peer's block, and its difference from the node's own. -/
structure PeerBlock where
  /-- `PEER_block_all`. -/
  all : Map UInt64 Hash := ∅
  /-- `PEER_block_add`. -/
  add : Map UInt64 Hash := ∅
  /-- `PEER_block_del`, a set. -/
  del : Map UInt64 Unit := ∅

def PeerBlock.delete (b : PeerBlock) (key : UInt64) : PeerBlock where
  all := b.all.erase key
  add := b.add.erase key
  del := b.del.insert key ()

def PeerBlock.insert (b : PeerBlock) (key : UInt64) (h : Hash) : PeerBlock where
  all := b.all.insert key h
  add := b.add.insert key h
  del := b.del.erase key

/-- The fields of `candidate` that a vote is stored with. -/
structure Candidate where
  /-- `msg_add`. -/
  msgAdd : Map UInt64 Hash := ∅
  /-- `msg_del`, a set. -/
  msgDel : Map UInt64 Unit := ∅

/-- `read_msg_`. -/
structure VoteMsg where
  data : Bytes
  len : UInt32
  msid : UInt32
  now : UInt32

/-- The test of the block time, in 32-bit numbers. -/
def VoteMsg.Timely (m : VoteMsg) (lastBlock : UInt32) : Prop :=
  lastBlock ≤ m.msid ∧ m.msid ≤ lastBlock + blockSec ∧ m.msid ≤ m.now ∧
    m.now < m.msid + 2 * blockSec

instance (m : VoteMsg) (lastBlock : UInt32) : Decidable (m.Timely lastBlock) :=
  inferInstanceAs (Decidable (_ ∧ _))

/-- Six bytes above the two lowest of a key. -/
def voteKey (bs : List UInt8) : UInt64 := UInt64.ofNat (2 ^ 16 * ofLE bs)

def keyBytes (key : UInt64) : List UInt8 := (bytesLE 8 key.toNat).drop 2

/-- `message_phash`. -/
def messagePhash (c : Crypto) (m : Map UInt64 Hash) : Hash :=
  c.sha256 (m.toList.flatMap fun p => hashBytes p.2)

/-- The loop over the keys to delete. -/
def voteDeletions (d : Bytes) : Nat → Nat → PeerBlock → ReadLog PeerBlock :=
  ReadLog.records (fun off b => do
    let key ← ReadLog.read d off 6
    return b.delete (voteKey key)) 6

/-- The loop over the keys to add; a record is a `msidsvidhash_t`. -/
def voteAdditions (d : Bytes) : Nat → Nat → PeerBlock → ReadLog PeerBlock :=
  ReadLog.records (fun off b => do
    let key ← ReadLog.read d off 6
    let h ← ReadLog.read d (off + 6) 32
    return b.insert (voteKey key) (BitVec.ofNat 256 (ofLE h))) 38

/-- The lists of a candidate as they follow the hash in a stored vote. -/
def Candidate.tail (cand : Candidate) : List UInt8 :=
  if cand.msgAdd.isEmpty ∧ cand.msgDel.isEmpty then []
  else
    bytesLE 4 cand.msgDel.size ++ bytesLE 4 cand.msgAdd.size ++
      cand.msgDel.toList.flatMap (fun p => keyBytes p.1) ++
      cand.msgAdd.toList.flatMap fun p => keyBytes p.1 ++ hashBytes p.2

/-- The vote as it is stored: the tail is that of the candidate, and the length follows. -/
def VoteMsg.withTail (m : VoteMsg) (cand : Candidate) : VoteMsg :=
  let len := 4 + 64 + 10 + 32 + cand.tail.length
  { m with
    len := UInt32.ofNat len
    data := Bytes.ofList (m.data.take 1 ++ bytesLE 3 len ++ (m.data.skip 4).take (64 + 10 + 32) ++
      cand.tail) fun _ => 0 }

/-- The part of `parse_vote` for a candidate that is not known, with the stored vote if the
lists give the candidate's hash. `save` is `save_candidate`. -/
def parseVoteLists (c : Crypto) (save : UInt32 → Hash → PeerBlock → Candidate)
    (block : PeerBlock) (m : VoteMsg) (cand : Hash) : ReadLog (Option VoteMsg) :=
  if m.len < 4 + 64 + 10 + 32 + 4 + 2 then return none
  else do
    let numDel ← ReadLog.read m.data (4 + 64 + 10 + 32) 4
    let numAdd ← ReadLog.read m.data (4 + 64 + 10 + 32 + 4) 4
    let numDel := UInt32.ofNat (ofLE numDel)
    let numAdd := UInt32.ofNat (ofLE numAdd)
    if numAdd = 0 ∧ numDel = 0 then return none
    else if m.len.toNat <
        4 + 64 + 10 + 32 + 4 + 4 + numAdd.toNat * 38 + (numDel * 6).toNat then return none
    else do
      let off := 4 + 64 + 10 + 32 + 4 + 4
      let block ← voteDeletions m.data numDel.toNat off block
      let block ← voteAdditions m.data numAdd.toNat (off + numDel.toNat * 6) block
      if messagePhash c block.all ≠ cand then return none
      else return some (m.withTail (save m.msid cand block))

/-- `parse_vote`, with the stored vote if it is accepted; `known` is `known_candidate`. A vote
for the next block waits until that begins. -/
def parseVote (c : Crypto) (lastBlock : UInt32) (known : Hash → Option Candidate)
    (save : UInt32 → Hash → PeerBlock → Candidate) (block : PeerBlock) (m : VoteMsg) :
    ReadLog (Option VoteMsg) :=
  if ¬ m.Timely lastBlock then return none
  else do
    let cand ← ReadLog.read m.data (4 + 64 + 10) 32
    let cand := BitVec.ofNat 256 (ofLE cand)
    match known cand with
    | some candidate => return some (m.withTail candidate)
    | none => parseVoteLists c save block m cand

/-! ## What is read -/

/-- The hash that a vote names. -/
def VoteMsg.cand (m : VoteMsg) : Hash := readHash (m.data.skip (4 + 64 + 10))

/-- The number of keys to delete that a vote announces. -/
def VoteMsg.numDel (m : VoteMsg) : UInt32 := (m.data.skip (4 + 64 + 10 + 32)).uint32

/-- The number of keys to add that a vote announces. -/
def VoteMsg.numAdd (m : VoteMsg) : UInt32 := (m.data.skip (4 + 64 + 10 + 32 + 4)).uint32

/-- The message has room for the lists that its counts announce. -/
def VoteMsg.Fits (m : VoteMsg) : Prop :=
  4 + 64 + 10 + 32 + 4 + 4 + m.numAdd.toNat * 38 + m.numDel.toNat * 6 ≤ m.len.toNat

theorem inBounds_voteDeletions (d : Bytes) (len n off : Nat) (block : PeerBlock) :
    (voteDeletions d n off block).InBounds len ↔ n = 0 ∨ off + n * 6 ≤ len := by
  apply ReadLog.inBounds_records
  intro off b
  simp

theorem inBounds_voteAdditions (d : Bytes) (len n off : Nat) (block : PeerBlock) :
    (voteAdditions d n off block).InBounds len ↔ n = 0 ∨ off + n * 38 ≤ len := by
  apply ReadLog.inBounds_records
  intro off b
  simp only [ReadLog.inBounds_bind, ReadLog.inBounds_read, ReadLog.inBounds_pure, and_true]
  omega

/-- The product with the first count, in 32-bit numbers. -/
theorem toNat_mul_six (n : UInt32) : (n * 6).toNat = n.toNat * 6 % 2 ^ 32 := by
  rw [UInt32.toNat_mul]
  rfl

/-- The lists of a vote are read inside the message: there is no room for them, or there is
room for both counts and the length computed from them is right or too much. -/
def VoteMsg.ListsReadable (m : VoteMsg) : Prop :=
  m.len.toNat < 4 + 64 + 10 + 32 + 4 + 2 ∨
    4 + 64 + 10 + 32 + 4 + 4 ≤ m.len.toNat ∧
      (m.numDel.toNat * 6 < 2 ^ 32 ∨
        m.len.toNat <
          4 + 64 + 10 + 32 + 4 + 4 + m.numAdd.toNat * 38 + m.numDel.toNat * 6 % 2 ^ 32)

theorem parseVoteLists_spec (c : Crypto) (save : UInt32 → Hash → PeerBlock → Candidate)
    (block : PeerBlock) (m : VoteMsg) (cand : Hash) :
    ((parseVoteLists c save block m cand).InBounds m.len.toNat ↔ m.ListsReadable) ∧
      (m.ListsReadable → ¬ m.Fits → (parseVoteLists c save block m cand).value = none) := by
  rw [VoteMsg.ListsReadable]
  by_cases hshort : m.len < 4 + 64 + 10 + 32 + 4 + 2
  · rw [parseVoteLists, if_pos hshort]
    exact ⟨iff_of_true (ReadLog.inBounds_pure _ _) (.inl (UInt32.lt_iff_toNat_lt.mp hshort)),
      fun _ _ => rfl⟩
  have hlong : ¬ m.len.toNat < 4 + 64 + 10 + 32 + 4 + 2 := fun h =>
    hshort (UInt32.lt_iff_toNat_lt.mpr h)
  have hmax : m.len.toNat < 2 ^ 32 := m.len.toNat_lt
  have hdel : UInt32.ofNat (ofLE ((m.data.skip (4 + 64 + 10 + 32)).take 4)) = m.numDel := rfl
  have hadd : UInt32.ofNat (ofLE ((m.data.skip (4 + 64 + 10 + 32 + 4)).take 4)) = m.numAdd := rfl
  rw [parseVoteLists, if_neg hshort]
  simp only [ReadLog.inBounds_bind, ReadLog.value_bind, ReadLog.inBounds_read, ReadLog.value_read,
    toNat_mul_six, hdel, hadd]
  by_cases hzero : m.numAdd = 0 ∧ m.numDel = 0
  · have hnone : m.numDel.toNat = 0 := by
      rw [hzero.2]
      rfl
    simp only [if_pos hzero, ReadLog.inBounds_pure, ReadLog.value_pure, implies_true, and_true]
    omega
  by_cases hbad : m.len.toNat <
      4 + 64 + 10 + 32 + 4 + 4 + m.numAdd.toNat * 38 + m.numDel.toNat * 6 % 2 ^ 32
  · simp only [if_neg hzero, if_pos hbad, ReadLog.inBounds_pure, ReadLog.value_pure,
      implies_true, and_true]
    omega
  simp only [if_neg hzero, if_neg hbad, ReadLog.inBounds_bind, inBounds_voteDeletions,
    inBounds_voteAdditions]
  by_cases hwrap : m.numDel.toNat * 6 < 2 ^ 32
  · have hfits : m.Fits := by
      rw [VoteMsg.Fits]
      omega
    refine ⟨iff_of_true ⟨by omega, by omega, by omega, by omega, ?_⟩ (by omega),
      fun _ hnot => absurd hfits hnot⟩
    split <;> exact ReadLog.inBounds_pure _ _
  · refine ⟨iff_of_false ?_ (by omega), fun h => by omega⟩
    rintro ⟨-, -, hread, -⟩
    omega

/-- The reads of `parse_vote`. -/
theorem inBounds_parseVote (c : Crypto) {lastBlock : UInt32} (known : Hash → Option Candidate)
    (save : UInt32 → Hash → PeerBlock → Candidate) (block : PeerBlock) {m : VoteMsg}
    (htime : m.Timely lastBlock) :
    (parseVote c lastBlock known save block m).InBounds m.len.toNat ↔
      4 + 64 + 10 + 32 ≤ m.len.toNat ∧ (known m.cand ≠ none ∨ m.ListsReadable) := by
  have hcand : BitVec.ofNat 256 (ofLE ((m.data.skip (4 + 64 + 10)).take 32)) = m.cand := rfl
  rw [parseVote, if_neg (not_not_intro htime)]
  simp only [ReadLog.inBounds_bind, ReadLog.inBounds_read, ReadLog.value_read, hcand]
  refine and_congr_right fun _ => ?_
  cases known m.cand with
  | some candidate => simp
  | none => simpa using (parseVoteLists_spec c save block m m.cand).1

/-- `parse_vote` reads inside the message and refuses a vote for an unknown candidate whose
counts do not fit, exactly when the vote is out of time, or has room for the hash and either
names a known candidate or has lists that can be read. -/
theorem parseVote_safe_iff (c : Crypto) (lastBlock : UInt32) (known : Hash → Option Candidate)
    (save : UInt32 → Hash → PeerBlock → Candidate) (block : PeerBlock) (m : VoteMsg) :
    ((parseVote c lastBlock known save block m).InBounds m.len.toNat ∧
        (known m.cand = none → ¬ m.Fits →
          (parseVote c lastBlock known save block m).value = none)) ↔
      ¬ m.Timely lastBlock ∨
        4 + 64 + 10 + 32 ≤ m.len.toNat ∧ (known m.cand ≠ none ∨ m.ListsReadable) := by
  by_cases htime : m.Timely lastBlock
  · rw [or_iff_right (not_not_intro htime), ← inBounds_parseVote c known save block htime]
    refine and_iff_left_of_imp fun hbounds hknown hfits => ?_
    rw [inBounds_parseVote c known save block htime] at hbounds
    have hreadable := hbounds.2.resolve_left (not_not_intro hknown)
    have hcand : BitVec.ofNat 256 (ofLE ((m.data.skip (4 + 64 + 10)).take 32)) = m.cand := rfl
    rw [parseVote, if_neg (not_not_intro htime)]
    simp only [ReadLog.value_bind, ReadLog.value_read, hcand, hknown]
    exact (parseVoteLists_spec c save block m m.cand).2 hreadable hfits
  · rw [parseVote, if_pos htime]
    exact iff_of_true ⟨ReadLog.inBounds_pure _ _, fun _ _ => rfl⟩ (.inl htime)

namespace Sample

/-- A vote of node 1 in its block, with the given bytes behind the head. -/
def voteMsg (len : UInt32) (tail : List UInt8) : VoteMsg where
  data := Bytes.ofList (List.replicate 78 0 ++ tail) fun _ => 0
  len := len
  msid := 512
  now := 512

/-- A first count whose product with six is two in 32-bit numbers. -/
def wrappingVote : VoteMsg := voteMsg 124 (List.replicate 32 0 ++ [0xAB, 0xAA, 0xAA, 0x2A])

end Sample

/-- A vote of 79 bytes is read past its end for the hash, one of 116 bytes for the second
count, and one of 124 bytes with 0x2AAAAAAB keys to delete is taken for one with two bytes of
lists, so that the loop goes far past the end. -/
theorem parseVote_out_of_bounds :
    ¬ (parseVote Sample.plainCrypto 512 (fun _ => none) (fun _ _ _ => {}) {}
        (Sample.voteMsg 79 [])).InBounds 79 ∧
      ¬ (parseVote Sample.plainCrypto 512 (fun _ => none) (fun _ _ _ => {}) {}
        (Sample.voteMsg 116 [])).InBounds 116 ∧
      ¬ (parseVote Sample.plainCrypto 512 (fun _ => none) (fun _ _ _ => {}) {}
        Sample.wrappingVote).InBounds 124 := by
  have htime (len : UInt32) (tail : List UInt8) : (Sample.voteMsg len tail).Timely 512 := by
    change (512 : UInt32) ≤ 512 ∧ 512 ≤ 512 + blockSec ∧ 512 ≤ 512 ∧ 512 < 512 + 2 * blockSec
    decide
  refine ⟨?_, ?_, ?_⟩
  · exact fun h => absurd ((inBounds_parseVote _ _ _ _ (htime 79 [])).mp h).1 (by decide)
  · intro h
    have := ((inBounds_parseVote _ _ _ _ (htime 116 [])).mp h).2
    simp [VoteMsg.ListsReadable, Sample.voteMsg] at this
  · intro h
    have := ((inBounds_parseVote _ _ _ _ (htime 124 _)).mp h).2.resolve_left (by simp)
    rw [VoteMsg.ListsReadable] at this
    revert this
    decide +kernel

end Esc
