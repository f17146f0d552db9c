import Esc.Message.Positions

/-!
# The hash tree stored with a message

`hash_tree` computes the hash of a message as `hash_tree_fast` does, and appends to the
data what is needed to prove later that a transaction is in the message: where each
transaction starts, the leaves, and the joined hashes in the order in which the tree
makes them.

The two functions walk the message with the same sizes, so both are rewritten over the
list of cuts: the start and the size of every transaction.
-/

namespace Esc

open Lib

/-- The start and the size of every transaction from offset `p` on. -/
def txsCuts (c : Crypto) (d : Bytes) (len : Nat) : Nat → Nat → Except Stop (List (Nat × Nat) × Nat)
  | 0, _ => .error .abort
  | fuel + 1, p =>
    if len ≤ p then .ok ([], p)
    else
      match getSize c (d.skip p) with
      | none => .error .fail
      | some l => (txsCuts c d len fuel (p + l)).map fun r => ((p, l) :: r.1, r.2)

/-- The hashes that `hashtree::update` appends to its list. -/
def HashTree.joins (c : Crypto) : HashTree → Hash → List Hash
  | [], _ => []
  | none :: _, _ => []
  | some a :: levels, h => addhash c a h :: HashTree.joins c levels (addhash c a h)

/-- The hashes that `hashtree::finish` appends to its list, with the hash so far. -/
def HashTree.finishJoins (c : Crypto) : HashTree → Option Hash → List Hash
  | [], _ => []
  | level :: levels, none => HashTree.finishJoins c levels level
  | none :: levels, some h => HashTree.finishJoins c levels (some h)
  | some a :: levels, some h =>
    addhash c h a :: HashTree.finishJoins c levels (some (addhash c h a))

/-- The variables of the loop of `hash_tree`; `hashes` is the list of the tree. -/
structure TreeWalk where
  tpos : List Nat := []
  firsthashes : List Hash := []
  tree : HashTree := HashTree.empty
  hashes : List Hash := []

def TreeWalk.add (c : Crypto) (w : TreeWalk) (pos : Nat) (h : Hash) : TreeWalk where
  tpos := w.tpos ++ [pos]
  firsthashes := w.firsthashes ++ [h]
  tree := w.tree.update c h
  hashes := w.hashes ++ w.tree.joins c h

/-- The leaf of `hash_tree`: node id, message id and position are mixed into the first
three 32-bit words. -/
def txsLeafWords (c : Crypto) (txs : List UInt8) (svid : UInt16) (msid : UInt32) (tnum : UInt16) :
    Hash :=
  c.sha256 txs ^^^ BitVec.ofNat 256 svid.toNat ^^^ BitVec.ofNat 256 msid.toNat <<< 32 ^^^
    BitVec.ofNat 256 tnum.toNat <<< 64

/-- The loop of `hash_tree`. -/
def hashTreeTxs (c : Crypto) (d : Bytes) (len : Nat) (svid : UInt16) (msid : UInt32) :
    Nat → Nat → UInt16 → TreeWalk → Except Stop (Nat × UInt16 × TreeWalk)
  | 0, _, _, _ => .error .abort
  | fuel + 1, p, tnum, w =>
    if len ≤ p then .ok (p, tnum, w)
    else
      match getSize c (d.skip p) with
      | none => .error .fail
      | some l =>
        hashTreeTxs c d len svid msid fuel (p + l) (tnum + 1)
          (w.add c p (txsLeafWords c ((d.skip p).take l) svid msid tnum))

/-- Offset and leaf of the head and of each transaction. -/
def TreeWalk.entries (w : TreeWalk) : List (List UInt8) :=
  List.zipWith (fun pos h => bytesLE 4 pos ++ hashBytes h) w.tpos w.firsthashes

/-- What `hash_tree` appends to a message of length `len`. The place of the message in
its block is written later; the last of the hashes is the hash of the message. -/
def TreeWalk.trailer (w : TreeWalk) (len : Nat) (sigh : Hash) (hashes : List Hash) : List UInt8 :=
  let total := len + 32 + 4 + 4 + 4 + (4 + 32) * w.tpos.length + 32 * hashes.dropLast.length
  hashBytes sigh ++ bytesLE 4 0 ++ bytesLE 4 total ++ bytesLE 4 w.tpos.length ++
    w.entries.flatten ++ hashes.dropLast.flatMap hashBytes

/-- The hash of a message and its data after `hash_tree`. -/
structure TreeMessage where
  sigh : Hash
  data : List UInt8

/-- `message::hash_tree`. -/
def hashTree (c : Crypto) (d : Bytes) (len : Nat) (svid : UInt16) (msid : UInt32) :
    Except Stop TreeMessage := do
  require (d 0 = msgtypeMsg ∧ svid ≠ 0 ∧ msid ≠ 0) .abort
  require (4 + 64 + 10 < len) .abort
  let first := TreeWalk.add c {} (4 + 64) (c.sha256 ((d.skip (4 + 64)).take 10))
  let (p, tnum, w) ← hashTreeTxs c d len svid msid (len + 1) (4 + 64 + 10) 1 first
  require (tnum ≠ 0) .fail
  require (p = len) .fail
  let sigh := w.tree.finish c
  return {
    sigh := sigh
    data := d.take len ++ w.trailer len sigh (w.hashes ++ w.tree.finishJoins c none) }

/-- The offsets that are stored behind a message of length `len`. -/
def storedOffsets (d : Bytes) (len : Nat) : List Nat :=
  (List.range (d.skip (len + 32 + 4 + 4)).uint32.toNat).map fun i =>
    (d.skip (len + 32 + 4 + 4 + 4 + (4 + 32) * i)).uint32.toNat

/-- Numbers in different words of a hash do not mix. -/
theorem ofNat_words {a b e : Nat} (ha : a < 2 ^ 32) (hb : b < 2 ^ 32) :
    BitVec.ofNat 256 (a + 2 ^ 32 * b + 2 ^ 64 * e) =
      BitVec.ofNat 256 a ^^^ BitVec.ofNat 256 b <<< 32 ^^^ BitVec.ofNat 256 e <<< 64 := by
  apply BitVec.eq_of_getLsbD_eq
  intro i hi
  have hlow : 2 ^ 32 * b + a < 2 ^ 64 := by omega
  rw [Nat.add_comm a, Nat.add_comm _ (2 ^ 64 * e), BitVec.getLsbD_ofNat,
    Nat.testBit_two_pow_mul_add _ hlow, Nat.testBit_two_pow_mul_add _ ha]
  simp only [BitVec.getLsbD_xor, BitVec.getLsbD_shiftLeft, BitVec.getLsbD_ofNat, hi, decide_true,
    Bool.true_and]
  have hbits {x k : Nat} (hx : x < 2 ^ 32) (hk : 32 ≤ k) : x.testBit k = false :=
    Nat.testBit_lt_two_pow (hx.trans_le (Nat.pow_le_pow_right (by decide) hk))
  by_cases h32 : i < 32
  · simp [h32, show i < 64 by omega]
  · by_cases h64 : i < 64
    · simp [h32, h64, hbits ha (show 32 ≤ i by omega), show i - 32 < 256 by omega]
    · simp [h32, h64, hbits ha (show 32 ≤ i by omega), hbits hb (show 32 ≤ i - 32 by omega),
        show i - 64 < 256 by omega]

theorem txsLeafWords_eq (c : Crypto) (txs : List UInt8) (svid : UInt16) (msid : UInt32)
    (tnum : UInt16) : txsLeafWords c txs svid msid tnum = txsLeaf c txs svid msid tnum := by
  have hsvid : svid.toNat < 2 ^ 32 := svid.toNat_lt.trans (by decide)
  rw [txsLeaf, ofNat_words hsvid msid.toNat_lt, txsLeafWords, BitVec.xor_assoc, BitVec.xor_assoc,
    BitVec.xor_assoc]

/-- The bytes of the transactions. -/
def cutParts (d : Bytes) (cuts : List (Nat × Nat)) : List (List UInt8) :=
  cuts.map fun cut => (d.skip cut.1).take cut.2

theorem txsParts_eq (c : Crypto) (d : Bytes) (len fuel p : Nat) :
    txsParts c d len fuel p =
      (txsCuts c d len fuel p).map fun r => (cutParts d r.1, r.2) := by
  induction fuel generalizing p with
  | zero => rfl
  | succ fuel ih =>
    rw [txsParts, txsCuts]
    split
    · rfl
    · cases getSize c (d.skip p) with
      | none => rfl
      | some l =>
        dsimp only
        rw [ih]
        cases txsCuts c d len fuel (p + l) <;> rfl

/-- The hashes that a row of updates appends. -/
def HashTree.log (c : Crypto) : HashTree → List Hash → List Hash
  | _, [] => []
  | tree, h :: hs => tree.joins c h ++ HashTree.log c (tree.update c h) hs

/-- Add a row of leaves. -/
def TreeWalk.addAll (c : Crypto) (w : TreeWalk) (tpos : List Nat) (leaves : List Hash) :
    TreeWalk where
  tpos := w.tpos ++ tpos
  firsthashes := w.firsthashes ++ leaves
  tree := leaves.foldl (HashTree.update c) w.tree
  hashes := w.hashes ++ w.tree.log c leaves

theorem TreeWalk.addAll_cons (c : Crypto) (w : TreeWalk) (pos : Nat) (tpos : List Nat) (h : Hash)
    (leaves : List Hash) :
    w.addAll c (pos :: tpos) (h :: leaves) = (w.add c pos h).addAll c tpos leaves := by
  simp [addAll, add, HashTree.log]

/-- The loop of `hash_tree`: cut the message, then add every leaf. -/
theorem hashTreeTxs_eq (c : Crypto) (d : Bytes) (len : Nat) (svid : UInt16) (msid : UInt32)
    (fuel p : Nat) (tnum : UInt16) (w : TreeWalk) :
    hashTreeTxs c d len svid msid fuel p tnum w =
      (txsCuts c d len fuel p).map fun r =>
        (r.2, tnum + UInt16.ofNat r.1.length,
          w.addAll c (r.1.map Prod.fst) (txsLeaves c svid msid tnum (cutParts d r.1))) := by
  induction fuel generalizing p tnum w with
  | zero => rfl
  | succ fuel ih =>
    rw [hashTreeTxs, txsCuts]
    split
    · simp [Except.map, txsLeaves, positions, TreeWalk.addAll, HashTree.log, cutParts]
    · cases getSize c (d.skip p) with
      | none => rfl
      | some l =>
        dsimp only
        rw [ih]
        cases txsCuts c d len fuel (p + l) with
        | error e => rfl
        | ok r =>
          simp only [Except.map, txsLeaves, cutParts, List.map_cons, List.length_cons,
            positions_succ, List.zipWith_cons_cons, TreeWalk.addAll_cons, txsLeafWords_eq,
            UInt16.ofNat_add]
          rw [UInt16.add_assoc, UInt16.add_comm 1]
          rfl

/-- The tree of a message that was cut into transactions. -/
def cutWalk (c : Crypto) (d : Bytes) (svid : UInt16) (msid : UInt32) (cuts : List (Nat × Nat)) :
    TreeWalk :=
  (TreeWalk.add c {} (4 + 64) (c.sha256 ((d.skip (4 + 64)).take 10))).addAll c
    (cuts.map Prod.fst) (txsLeaves c svid msid 1 (cutParts d cuts))

/-- The cuts of a message that has a hash tree. -/
def treeCuts (c : Crypto) (d : Bytes) (len : Nat) (svid : UInt16) (msid : UInt32) :
    Except Stop (List (Nat × Nat)) := do
  require (d 0 = msgtypeMsg ∧ svid ≠ 0 ∧ msid ≠ 0) .abort
  require (4 + 64 + 10 < len) .abort
  let r ← txsCuts c d len (len + 1) (4 + 64 + 10)
  require (1 + UInt16.ofNat r.1.length ≠ 0) .fail
  require (r.2 = len) .fail
  return r.1

@[simp] theorem length_cutParts (d : Bytes) (cuts : List (Nat × Nat)) :
    (cutParts d cuts).length = cuts.length := List.length_map _

/-- The same map, as the monad laws know it. -/
theorem map_eq_fmap {α β : Type} (f : α → β) (x : Except Stop α) : x.map f = f <$> x := rfl

theorem hashTreeFast_eq_cuts (c : Crypto) (d : Bytes) (len : Nat) (svid : UInt16) (msid : UInt32) :
    hashTreeFast c d len svid msid =
      (treeCuts c d len svid msid).map fun cuts => (cutWalk c d svid msid cuts).tree.finish c := by
  simp only [hashTreeFast, treeCuts, hashTxs_eq, txsParts_eq, map_eq_fmap, map_bind, bind_map_left,
    map_pure, length_cutParts]
  rfl

theorem hashTree_eq_cuts (c : Crypto) (d : Bytes) (len : Nat) (svid : UInt16) (msid : UInt32) :
    hashTree c d len svid msid =
      (treeCuts c d len svid msid).map fun cuts =>
        let w := cutWalk c d svid msid cuts
        { sigh := w.tree.finish c
          data := d.take len ++ w.trailer len (w.tree.finish c)
            (w.hashes ++ w.tree.finishJoins c none) } := by
  simp only [hashTree, treeCuts, hashTreeTxs_eq, map_eq_fmap, map_bind, bind_map_left, map_pure]
  rfl

theorem uint32_ofList_bytesLE (v : Nat) (l : List UInt8) (rest : Bytes) :
    (Bytes.ofList (bytesLE 4 v ++ l) rest).uint32 = UInt32.ofNat v := by
  rw [Bytes.uint32, Bytes.take_ofList_append (length_bytesLE 4 v), ofLE_bytesLE]
  exact UInt32.toNat_inj.mp (by simp)

section Layout

variable (w : TreeWalk) (d rest : Bytes) (len : Nat) (sigh : Hash) (hashes : List Hash)

theorem TreeWalk.length_of_mem_entries {e : List UInt8} (h : e ∈ w.entries) :
    e.length = 4 + 32 := by
  obtain ⟨i, hi, rfl⟩ := List.mem_iff_getElem.mp h
  simp [TreeWalk.entries]

/-- Behind the message: its hash and the number of entries. -/
theorem TreeWalk.skip_count :
    (Bytes.ofList (d.take len ++ w.trailer len sigh hashes) rest).skip (len + 32 + 4 + 4) =
      Bytes.ofList (bytesLE 4 w.tpos.length ++
        (w.entries.flatten ++ hashes.dropLast.flatMap hashBytes)) rest := by
  simp only [TreeWalk.trailer, List.append_assoc]
  rw [← List.append_assoc, ← List.append_assoc, ← List.append_assoc]
  exact Bytes.skip_ofList_append (by simp) _ _

/-- The entries from number `i` on. -/
theorem TreeWalk.skip_entry {i : Nat} (hi : i ≤ w.entries.length) :
    (Bytes.ofList (d.take len ++ w.trailer len sigh hashes) rest).skip
        (len + 32 + 4 + 4 + 4 + (4 + 32) * i) =
      Bytes.ofList ((w.entries.drop i).flatten ++ hashes.dropLast.flatMap hashBytes) rest := by
  rw [← Bytes.skip_skip, ← Bytes.skip_skip _ _ 4, w.skip_count d rest len sigh hashes,
    Bytes.skip_ofList_append (length_bytesLE _ _),
    Bytes.skip_ofList_flatten (fun e he => w.length_of_mem_entries he) hi]

end Layout

theorem txsCuts_bounds {c : Crypto} {d : Bytes} {len fuel p q : Nat} {cuts : List (Nat × Nat)}
    (h : txsCuts c d len fuel p = .ok (cuts, q)) :
    cuts.length < fuel ∧ ∀ cut ∈ cuts, cut.1 < len := by
  induction fuel generalizing p cuts with
  | zero => cases h
  | succ fuel ih =>
    rw [txsCuts] at h
    split at h
    · cases h
      exact ⟨Nat.succ_pos _, by simp⟩
    · rename_i hlen
      cases hsize : getSize c (d.skip p) with
      | none =>
        rw [hsize] at h
        cases h
      | some l =>
        rw [hsize] at h
        dsimp only at h
        cases hrest : txsCuts c d len fuel (p + l) with
        | error e =>
          rw [hrest] at h
          cases h
        | ok r =>
          rw [hrest] at h
          cases h
          obtain ⟨hlength, hbounds⟩ := ih hrest
          refine ⟨Nat.succ_lt_succ hlength, fun cut hcut => ?_⟩
          rcases List.mem_cons.mp hcut with rfl | hcut
          · exact Nat.lt_of_not_le hlen
          · exact hbounds cut hcut

theorem treeCuts_eq_ok {c : Crypto} {d : Bytes} {len : Nat} {svid : UInt16} {msid : UInt32}
    {cuts : List (Nat × Nat)} :
    treeCuts c d len svid msid = .ok cuts ↔
      (d 0 = msgtypeMsg ∧ svid ≠ 0 ∧ msid ≠ 0) ∧ 4 + 64 + 10 < len ∧
        1 + UInt16.ofNat cuts.length ≠ 0 ∧
        txsCuts c d len (len + 1) (4 + 64 + 10) = .ok (cuts, len) := by
  rw [treeCuts, require_bind_eq_ok, require_bind_eq_ok, bind_eq_ok_iff]
  simp only [require_bind_eq_ok, pure, Except.pure, Except.ok.injEq]
  constructor
  · rintro ⟨hhead, hlen, ⟨cuts', q⟩, hcuts, hcount, hend, rfl⟩
    exact ⟨hhead, hlen, hcount, hcuts.trans (by rw [show q = len from hend])⟩
  · rintro ⟨hhead, hlen, hcount, hcuts⟩
    exact ⟨hhead, hlen, _, hcuts, hcount, rfl, rfl⟩

theorem length_txsLeaves (c : Crypto) (svid : UInt16) (msid : UInt32) (tnum : UInt16)
    (parts : List (List UInt8)) : (txsLeaves c svid msid tnum parts).length = parts.length := by
  simp [txsLeaves, positions]

theorem length_firsthashes_cutWalk (c : Crypto) (d : Bytes) (svid : UInt16) (msid : UInt32)
    (cuts : List (Nat × Nat)) :
    (cutWalk c d svid msid cuts).firsthashes.length = cuts.length + 1 := by
  simp [cutWalk, TreeWalk.addAll, TreeWalk.add, length_txsLeaves]

@[simp] theorem tpos_cutWalk (c : Crypto) (d : Bytes) (svid : UInt16) (msid : UInt32)
    (cuts : List (Nat × Nat)) :
    (cutWalk c d svid msid cuts).tpos = (4 + 64) :: cuts.map Prod.fst := rfl

theorem length_entries_cutWalk (c : Crypto) (d : Bytes) (svid : UInt16) (msid : UInt32)
    (cuts : List (Nat × Nat)) : (cutWalk c d svid msid cuts).entries.length = cuts.length + 1 := by
  simp [TreeWalk.entries, length_firsthashes_cutWalk]

/-- An entry starts with the offset. -/
theorem TreeWalk.uint32_entry (w : TreeWalk) (d rest : Bytes) (len : Nat) (sigh : Hash)
    (hashes : List Hash) {i : Nat} (hpos : i < w.tpos.length) (hi : i < w.entries.length) :
    ((Bytes.ofList (d.take len ++ w.trailer len sigh hashes) rest).skip
      (len + 32 + 4 + 4 + 4 + (4 + 32) * i)).uint32 = UInt32.ofNat w.tpos[i] := by
  rw [w.skip_entry d rest len sigh hashes hi.le, ← List.getElem_cons_drop hi, List.flatten_cons]
  simp only [TreeWalk.entries, List.getElem_zipWith, List.append_assoc]
  rw [uint32_ofList_bytesLE]

/-- The offsets stored by `hash_tree` are those of the head and of the cuts. -/
theorem storedOffsets_trailer {c : Crypto} {d : Bytes} {len : Nat} {svid : UInt16} {msid : UInt32}
    {cuts : List (Nat × Nat)} (hlen : len < 2 ^ 24) (h : treeCuts c d len svid msid = .ok cuts)
    (rest : Bytes) (sigh : Hash) (hashes : List Hash) :
    storedOffsets (Bytes.ofList
        (d.take len ++ (cutWalk c d svid msid cuts).trailer len sigh hashes) rest) len =
      (4 + 64) :: cuts.map Prod.fst := by
  obtain ⟨-, hhead, -, hcuts⟩ := treeCuts_eq_ok.mp h
  obtain ⟨hcount, hstarts⟩ := txsCuts_bounds hcuts
  have hsmall : ∀ pos ∈ (4 + 64) :: cuts.map Prod.fst, pos < 2 ^ 24 := by
    intro pos hpos
    rcases List.mem_cons.mp hpos with rfl | hpos
    · decide
    · obtain ⟨cut, hcut, rfl⟩ := List.mem_map.mp hpos
      exact (hstarts cut hcut).trans hlen
  have hlength : ((4 + 64) :: cuts.map Prod.fst).length = cuts.length + 1 := by simp
  rw [storedOffsets, TreeWalk.skip_count, uint32_ofList_bytesLE, tpos_cutWalk, hlength,
    UInt32.toNat_ofNat_of_lt' (lt_trans (by omega) (show 2 ^ 25 < UInt32.size by decide))]
  apply List.ext_getElem
  · simp
  · intro i hi hi'
    rw [List.getElem_map, List.getElem_range]
    rw [TreeWalk.uint32_entry _ _ _ _ _ _ hi' (by rw [length_entries_cutWalk]; omega)]
    exact UInt32.toNat_ofNat_of_lt' ((hsmall _ (List.getElem_mem hi')).trans (by decide))

/-- `hash_tree` and `hash_tree_fast` accept the same messages with the same hash, and stop
in the same way on all others. The offsets that `hash_tree` stores are those of the head
and of the transactions that the walk of `hash_tree_fast` cuts. -/
theorem hashTree_agrees (c : Crypto) (d rest : Bytes) (len : Nat) (svid : UInt16) (msid : UInt32)
    (hlen : len < 2 ^ 24) :
    (hashTree c d len svid msid).map TreeMessage.sigh = hashTreeFast c d len svid msid ∧
      ∀ m, hashTree c d len svid msid = .ok m →
        ∃ cuts, txsCuts c d len (len + 1) (4 + 64 + 10) = .ok (cuts, len) ∧
          storedOffsets (Bytes.ofList m.data rest) len = (4 + 64) :: cuts.map Prod.fst := by
  rw [hashTree_eq_cuts, hashTreeFast_eq_cuts]
  cases hcuts : treeCuts c d len svid msid with
  | error e => exact ⟨rfl, fun m hm => by cases hm⟩
  | ok cuts =>
    refine ⟨rfl, fun m hm => ⟨cuts, (treeCuts_eq_ok.mp hcuts).2.2.2, ?_⟩⟩
    cases hm
    exact storedOffsets_trailer hlen hcuts rest _ _

/-- Three placeholders: the offsets are those of the head and of the three. -/
theorem hashTree_agrees_three :
    ∃ m, hashTree Sample.plainCrypto Sample.placeholders 90 1 1 = .ok m ∧
      hashTreeFast Sample.plainCrypto Sample.placeholders 90 1 1 = .ok m.sigh ∧
      storedOffsets (Bytes.ofList m.data Sample.placeholders) 90 = [68, 78, 82, 86] := by
  obtain ⟨hsigh, hoffsets⟩ := hashTree_agrees Sample.plainCrypto Sample.placeholders
    Sample.placeholders 90 1 1 (by decide)
  obtain ⟨m, hm, -⟩ := exists_of_succeeds
    (x := hashTree Sample.plainCrypto Sample.placeholders 90 1 1) (p := fun _ => true)
    (by decide +kernel)
  obtain ⟨cuts, hcuts, hstored⟩ := hoffsets m hm
  refine ⟨m, hm, by rw [← hsigh, hm]; rfl, hstored.trans ?_⟩
  have heval : txsCuts Sample.plainCrypto Sample.placeholders 90 91 78 =
      .ok ([(78, 4), (82, 4), (86, 4)], 90) := by rfl
  cases hcuts.symm.trans heval
  rfl

end Esc
