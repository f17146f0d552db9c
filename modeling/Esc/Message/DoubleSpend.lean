import Esc.Message.Wire

/-!
# What a double spend proof shows

A proof embeds two messages. It should be accepted only if the accused node signed two
different messages of one type with the same node id and message id. The check
compares the two signatures instead of the signed bytes, and it takes the block time
of the second block header from the first message. Apart from these two points an
accepted proof shows what it should.
-/

namespace Esc

open Lib

/-- The bytes that the signature of a message stands for. -/
def Wire.covered (m : Wire) : List UInt8 :=
  if m.data 0 = msgtypeBlk then (m.data.skip (4 + 64 + 10)).take signedHeader
  else if m.data 0 = msgtypeCnd then (m.data.skip (4 + 64)).take (10 + 32)
  else (m.data.skip (4 + 64)).take (m.len - 4 - 64)

/-- Two different messages of one type, node id and message id, both with a valid
signature under one key. With unforgeable signatures the owner of the key made both. -/
structure DoubleSpend (c : Crypto) (pk msha : Hash) (m1 m2 : Wire) : Prop where
  kind : m1.data 0 = msgtypeMsg ∨ m1.data 0 = msgtypeCnd ∨ m1.data 0 = msgtypeBlk
  type : m1.data 0 = m2.data 0
  svid : m1.readHead.svid = m2.readHead.svid
  msid : m1.readHead.msid = m2.readHead.msid
  valid1 : m1.verify c pk msha = .ok ()
  valid2 : m2.verify c pk msha = .ok ()
  differ : m1.covered ≠ m2.covered

section Verify

variable {c : Crypto} {pk msha : Hash} {m : Wire}

theorem Wire.readHead_eq
    (h : m.data 0 = msgtypeMsg ∨ m.data 0 = msgtypeCnd ∨ m.data 0 = msgtypeBlk ∨
      m.data 0 = msgtypeDbl) :
    m.readHead = m.readIds (4 + 64) := by
  apply if_pos
  rcases h with h | h | h | h <;> simp [h]

theorem checkSignature_cnd (h : m.data 0 = msgtypeCnd) :
    checkSignature c m pk msha = .ok () ↔
      c.signOpen pk ((m.data.skip (4 + 64)).take (10 + 32)) (readSignature (m.data.skip 4)) := by
  simp [checkSignature, h, msgtypeCnd, msgtypeMsg, msgtypeBlk]

theorem checkSignature_blk (h : m.data 0 = msgtypeBlk) :
    checkSignature c m pk msha = .ok () ↔
      (m.data.skip (4 + 64 + 2)).take 4 = (m.data.skip (4 + 64 + 10)).take 4 ∧
      c.signOpen pk ((m.data.skip (4 + 64 + 10)).take signedHeader)
        (readSignature (m.data.skip 4)) := by
  simp [checkSignature, h, msgtypeMsg, msgtypeBlk]

theorem checkSignature_msg (h : m.data 0 = msgtypeMsg) :
    checkSignature c m pk msha = .ok () ↔
      c.signOpen pk (hashBytes msha ++ hashBytes m.sigh) (readSignature (m.data.skip 4)) := by
  simp [checkSignature, h]

theorem checkSignature_dbl (h : m.data 0 = msgtypeDbl) :
    checkSignature c m pk msha = checkDbl c m pk := by
  simp [checkSignature, h, msgtypeDbl, msgtypeCnd, msgtypeMsg, msgtypeBlk, msgtypeIni]

/-- Only transactions need the hash tree; the hash of the other kinds does not matter for
the check. -/
theorem Wire.verify_eq (h : m.data 0 = msgtypeCnd ∨ m.data 0 = msgtypeBlk) :
    m.verify c pk msha = checkSignature c (m.readIds (4 + 64)).hashSignature pk msha := by
  have hmsg : m.data 0 ≠ msgtypeMsg := by rcases h with h | h <;> rw [h] <;> decide
  have hhead : m.readHead = m.readIds (4 + 64) := m.readHead_eq (.inr (by tauto))
  rw [Wire.verify, Wire.receive, if_neg hmsg, hhead]
  rfl

theorem Wire.verify_cnd (h : m.data 0 = msgtypeCnd) :
    m.verify c pk msha = .ok () ↔
      c.signOpen pk ((m.data.skip (4 + 64)).take (10 + 32)) (readSignature (m.data.skip 4)) := by
  rw [Wire.verify_eq (.inl h)]
  exact checkSignature_cnd h

theorem Wire.verify_blk (h : m.data 0 = msgtypeBlk) :
    m.verify c pk msha = .ok () ↔
      (m.data.skip (4 + 64 + 2)).take 4 = (m.data.skip (4 + 64 + 10)).take 4 ∧
      c.signOpen pk ((m.data.skip (4 + 64 + 10)).take signedHeader)
        (readSignature (m.data.skip 4)) := by
  rw [Wire.verify_eq (.inr h)]
  exact checkSignature_blk h

theorem Wire.verify_msg (h : m.data 0 = msgtypeMsg) :
    m.verify c pk msha = .ok () ↔
      ∃ sigh, hashTreeFast c m.data m.len (m.data.skip (4 + 64)).uint16
          (m.data.skip (4 + 64 + 2)).uint32 = .ok sigh ∧
        c.signOpen pk (hashBytes msha ++ hashBytes sigh) (readSignature (m.data.skip 4)) := by
  rw [Wire.verify, Wire.receive, if_pos h, m.readHead_eq (.inl h), Wire.hashTree, bind_eq_ok_iff]
  constructor
  · rintro ⟨m', hm', hcheck⟩
    obtain ⟨sigh, hsigh, heq⟩ := bind_eq_ok_iff.mp hm'
    cases heq
    refine ⟨sigh, hsigh, ?_⟩
    exact (checkSignature_msg (m := { m.readIds (4 + 64) with sigh := sigh }) h).mp hcheck
  · rintro ⟨sigh, hsigh, hopen⟩
    refine ⟨_, bind_eq_ok_iff.mpr ⟨sigh, hsigh, rfl⟩, ?_⟩
    exact (checkSignature_msg (m := { m.readIds (4 + 64) with sigh := sigh }) h).mpr hopen

end Verify

section Check

variable {c : Crypto} {pk dblmsha : Hash} {m m1 m2 : Wire}

theorem checkDbl_iff :
    checkDbl c m pk = .ok () ↔
      4 + 32 + m.first.len + 4 ≤ m.len ∧ 4 + 32 + m.first.len + m.second.len = m.len ∧
      m.first.data 0 = m.second.data 0 ∧
      ((m.first.data.skip (4 + 64)).uint16 = (m.second.data.skip (4 + 64)).uint16 ∧
        (m.first.data.skip (4 + 64 + 2)).uint32 = (m.second.data.skip (4 + 64 + 2)).uint32) ∧
      (m.first.data.skip 4).take 64 ≠ (m.second.data.skip 4).take 64 ∧
      checkDblSignatures c pk m.dblMsha m.first m.second = .ok () := by
  simp only [checkDbl, require_bind_eq_ok]

theorem checkDblSignatures_cnd (h : m1.data 0 = msgtypeCnd) :
    checkDblSignatures c pk dblmsha m1 m2 = .ok () ↔
      m1.len = m2.len ∧ m1.len = 4 + 64 + 10 + 32 ∧
      c.signOpen pk ((m1.data.skip (4 + 64)).take (10 + 32)) (readSignature (m1.data.skip 4)) ∧
      c.signOpen pk ((m2.data.skip (4 + 64)).take (10 + 32)) (readSignature (m2.data.skip 4)) := by
  simp [checkDblSignatures, h]

theorem checkDblSignatures_blk (h : m1.data 0 = msgtypeBlk) :
    checkDblSignatures c pk dblmsha m1 m2 = .ok () ↔
      m1.len = m2.len ∧ m1.len = 4 + 64 + 10 + signedHeader ∧
      (m1.data.skip (4 + 64 + 10)).uint32 = (m1.data.skip (4 + 64 + 2)).uint32 ∧
      c.signOpen pk ((m1.data.skip (4 + 64 + 10)).take signedHeader)
        (readSignature (m1.data.skip 4)) ∧
      c.signOpen pk ((m2.data.skip (4 + 64 + 10)).take signedHeader)
        (readSignature (m2.data.skip 4)) := by
  simp [checkDblSignatures, h, msgtypeBlk, msgtypeCnd]

theorem checkDblSignatures_msg (h : m1.data 0 = msgtypeMsg) :
    checkDblSignatures c pk dblmsha m1 m2 = .ok () ↔
      ((m1.data.skip (4 + 64 + 6)).uint32 ≤ (m2.data.skip (4 + 64 + 6)).uint32 + 3 * blockSec ∧
        (m2.data.skip (4 + 64 + 6)).uint32 ≤ (m1.data.skip (4 + 64 + 6)).uint32 + 3 * blockSec) ∧
      ∃ sigh1, hashTreeFast c m1.data m1.len (m1.data.skip (4 + 64)).uint16
          (m1.data.skip (4 + 64 + 2)).uint32 = .ok sigh1 ∧
      ∃ sigh2, hashTreeFast c m2.data m2.len (m2.data.skip (4 + 64)).uint16
          (m2.data.skip (4 + 64 + 2)).uint32 = .ok sigh2 ∧
      c.signOpen pk (hashBytes dblmsha ++ hashBytes sigh1) (readSignature (m1.data.skip 4)) ∧
      c.signOpen pk (hashBytes dblmsha ++ hashBytes sigh2) (readSignature (m2.data.skip 4)) := by
  have hkind : ¬(m1.data 0 = msgtypeCnd ∨ m1.data 0 = msgtypeBlk) := by
    rw [h]
    decide
  rw [checkDblSignatures, if_neg hkind, if_pos h, require_bind_eq_ok]
  simp only [bind_eq_ok_iff, require_eq_ok]

theorem kind_of_checkDblSignatures (h : checkDblSignatures c pk dblmsha m1 m2 = .ok ()) :
    m1.data 0 = msgtypeMsg ∨ m1.data 0 = msgtypeCnd ∨ m1.data 0 = msgtypeBlk := by
  by_contra hkind
  push Not at hkind
  simp [checkDblSignatures, hkind, throw, throwThe, MonadExceptOf.throw] at h

/-- What an accepted proof shows of the first message, and of the second one if its
header names the block that its message id does. -/
theorem valid_of_checkDblSignatures (h : checkDblSignatures c pk dblmsha m1 m2 = .ok ())
    (htype : m1.data 0 = m2.data 0) :
    m1.verify c pk dblmsha = .ok () ∧
      ((m1.data 0 = msgtypeBlk →
        (m2.data.skip (4 + 64 + 10)).uint32 = (m2.data.skip (4 + 64 + 2)).uint32) →
      m2.verify c pk dblmsha = .ok ()) := by
  rcases kind_of_checkDblSignatures h with hkind | hkind | hkind
  · obtain ⟨-, sigh1, hsigh1, sigh2, hsigh2, hopen1, hopen2⟩ := (checkDblSignatures_msg hkind).mp h
    constructor
    · exact (Wire.verify_msg hkind).mpr ⟨sigh1, hsigh1, hopen1⟩
    · intro _
      exact (Wire.verify_msg (htype ▸ hkind)).mpr ⟨sigh2, hsigh2, hopen2⟩
  · obtain ⟨-, -, hopen1, hopen2⟩ := (checkDblSignatures_cnd hkind).mp h
    constructor
    · exact (Wire.verify_cnd hkind).mpr hopen1
    · intro _
      exact (Wire.verify_cnd (htype ▸ hkind)).mpr hopen2
  · obtain ⟨-, -, hpath, hopen1, hopen2⟩ := (checkDblSignatures_blk hkind).mp h
    constructor
    · exact (Wire.verify_blk hkind).mpr ⟨(Bytes.take_eq_of_uint32_eq hpath).symm, hopen1⟩
    · intro hpath2
      refine (Wire.verify_blk (htype ▸ hkind)).mpr ⟨?_, hopen2⟩
      exact (Bytes.take_eq_of_uint32_eq (hpath2 hkind)).symm

end Check

/-- An accepted double spend proof embeds a double spend of the key's owner exactly if
the signed bytes of its two messages differ and, for block headers, the second header
is of the block that the message id names. -/
theorem checkSignature_dbl_sound {c : Crypto} {m : Wire} {svpk msha : Hash}
    (hdbl : m.data 0 = msgtypeDbl) (haccept : checkSignature c m svpk msha = .ok ()) :
    DoubleSpend c svpk m.dblMsha m.first m.second ↔
      m.first.covered ≠ m.second.covered ∧
      (m.first.data 0 = msgtypeBlk →
        (m.second.data.skip (4 + 64 + 10)).uint32 = (m.second.data.skip (4 + 64 + 2)).uint32) := by
  rw [checkSignature_dbl hdbl, checkDbl_iff] at haccept
  obtain ⟨-, -, htype, ⟨hsvid, hmsid⟩, -, hcheck⟩ := haccept
  have hkind := kind_of_checkDblSignatures hcheck
  have hhead1 : m.first.readHead = m.first.readIds (4 + 64) := Wire.readHead_eq (by tauto)
  have hhead2 : m.second.readHead = m.second.readIds (4 + 64) :=
    Wire.readHead_eq (by rw [← htype]; tauto)
  obtain ⟨hvalid1, hvalid2⟩ := valid_of_checkDblSignatures hcheck htype
  constructor
  · intro h
    refine ⟨h.differ, ?_⟩
    intro hblk
    exact Bytes.uint32_congr ((Wire.verify_blk (htype ▸ hblk)).mp h.valid2).1.symm
  · rintro ⟨hdiffer, hblk⟩
    exact {
      kind := hkind
      type := htype
      svid := by rw [hhead1, hhead2]; exact hsvid
      msid := by rw [hhead1, hhead2]; exact hmsid
      valid1 := hvalid1
      valid2 := hvalid2 hblk
      differ := hdiffer }

namespace Sample

/-- Every signature is valid. -/
def allValid : Crypto where
  sha256 _ := 0
  signOpen _ _ _ := true
  strayLength _ := none

/-- The bytes of a message of node 1. -/
def message (type : UInt8) (sig msid now : Nat) (text : List UInt8) : List UInt8 :=
  [type] ++ bytesLE 3 (4 + 64 + 10 + text.length) ++ bytesLE 64 sig ++ bytesLE 2 1 ++
    bytesLE 4 msid ++ bytesLE 4 now ++ text

/-- A vote for a candidate. -/
def vote (sig hash : Nat) : List UInt8 := message msgtypeCnd sig 512 600 (bytesLE 32 hash)

/-- A double spend proof of two messages. -/
def dblProof (m1 m2 : List UInt8) : Wire where
  data := Bytes.ofList ([msgtypeDbl] ++ bytesLE 3 (4 + 32 + m1.length + m2.length) ++
    List.replicate 32 0 ++ m1 ++ m2) fun _ => 0
  len := 4 + 32 + m1.length + m2.length

/-- The signed part of a block header. -/
def header (now : Nat) : List UInt8 := bytesLE 4 now ++ List.replicate 172 0

/-- Key 0 has signed the headers of two successive blocks and nothing else. -/
def twoBlocks : Crypto where
  sha256 _ := 0
  signOpen _ m sig := (m = header 512 ∧ sig = 1) ∨ (m = header 1024 ∧ sig = 2)
  strayLength _ := none

theorem eq_header_of_signOpen {pk : Hash} {m : List UInt8} {sig : Signature}
    (h : twoBlocks.signOpen pk m sig = true) : m = header 512 ∨ m = header 1024 := by
  have h' : (m = header 512 ∧ sig = 1) ∨ (m = header 1024 ∧ sig = 2) := of_decide_eq_true h
  exact h'.imp And.left And.left

theorem length_of_signOpen {pk : Hash} {m : List UInt8} {sig : Signature}
    (h : twoBlocks.signOpen pk m sig = true) : m.length = signedHeader := by
  rcases eq_header_of_signOpen h with rfl | rfl <;> rfl

/-- The node that signed two successive blocks has not signed twice for one message id. -/
theorem not_doubleSpend_twoBlocks (pk msha : Hash) (m1 m2 : Wire) :
    ¬DoubleSpend twoBlocks pk msha m1 m2 := by
  intro h
  rcases h.kind with hkind | hkind | hkind
  · obtain ⟨sigh, -, hopen⟩ := (Wire.verify_msg hkind).mp h.valid1
    have hlen := length_of_signOpen hopen
    rw [List.length_append, length_hashBytes, length_hashBytes] at hlen
    exact absurd hlen (by decide)
  · have hlen := length_of_signOpen ((Wire.verify_cnd hkind).mp h.valid1)
    rw [Bytes.length_take] at hlen
    exact absurd hlen (by decide)
  · have hkind2 : m2.data 0 = msgtypeBlk := h.type ▸ hkind
    obtain ⟨hnow1, hopen1⟩ := (Wire.verify_blk hkind).mp h.valid1
    obtain ⟨hnow2, hopen2⟩ := (Wire.verify_blk hkind2).mp h.valid2
    have hmsid := h.msid
    rw [Wire.readHead_eq (.inr (.inr (.inl hkind))),
      Wire.readHead_eq (.inr (.inr (.inl hkind2)))] at hmsid
    have hnow : m1.covered.take 4 = m2.covered.take 4 := by
      rw [Wire.covered, Wire.covered, if_pos hkind, if_pos hkind2,
        Bytes.take_take _ (by decide), Bytes.take_take _ (by decide), ← hnow1, ← hnow2]
      exact Bytes.take_eq_of_uint32_eq hmsid
    have hheader1 : m1.covered = header 512 ∨ m1.covered = header 1024 := by
      rw [Wire.covered, if_pos hkind]
      exact eq_header_of_signOpen hopen1
    have hheader2 : m2.covered = header 512 ∨ m2.covered = header 1024 := by
      rw [Wire.covered, if_pos hkind2]
      exact eq_header_of_signOpen hopen2
    have hne : (header 512).take 4 ≠ (header 1024).take 4 := by decide
    apply h.differ
    rcases hheader1 with h1 | h1 <;> rcases hheader2 with h2 | h2 <;> rw [h1, h2] at hnow ⊢
    · exact absurd hnow hne
    · exact absurd hnow.symm hne

end Sample

/-- Two votes of one node for different candidates make a sound proof. -/
theorem checkSignature_dbl_sound_votes :
    DoubleSpend Sample.allValid 0 0 (Sample.dblProof (Sample.vote 1 7) (Sample.vote 2 8)).first
      (Sample.dblProof (Sample.vote 1 7) (Sample.vote 2 8)).second :=
  have haccept : checkSignature Sample.allValid
      (Sample.dblProof (Sample.vote 1 7) (Sample.vote 2 8)) 0 0 = .ok () := by decide +kernel
  (checkSignature_dbl_sound rfl haccept).mpr ⟨by decide +kernel, by decide +kernel⟩

/-- The headers of two successive blocks, the second one sent under the number of the
first, are accepted as a double spend of a node that has signed nothing else. -/
theorem checkSignature_accepts_successive_blocks :
    checkSignature Sample.twoBlocks
      (Sample.dblProof (Sample.message msgtypeBlk 1 512 600 (Sample.header 512))
        (Sample.message msgtypeBlk 2 512 1100 (Sample.header 1024))) 0 0 = .ok () ∧
    ∀ msha m1 m2, ¬DoubleSpend Sample.twoBlocks 0 msha m1 m2 :=
  ⟨by decide +kernel, Sample.not_doubleSpend_twoBlocks 0⟩

end Esc
