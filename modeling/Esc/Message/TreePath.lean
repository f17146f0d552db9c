import Esc.Message.TreeFile

/-!
# The path of a transaction in a message

`hash_tree_get` is right on the file of a message with an odd number of entries, and with an even
number while all places of the path are less than 1024. From 1024 on it reads the hash one place
too low, and then refuses its own path.
-/

namespace Esc

open Lib Merkle

variable {i len mark n p q : Nat} {cuts : List (Nat × Nat)} {m : TreeMessage}

/-! ## The transactions of a message -/

/-- Cuts that follow each other from one offset to another. -/
def Chained : Nat → List (Nat × Nat) → Nat → Prop
  | p, [], q => p = q
  | p, cut :: cuts, q => cut.1 = p ∧ 4 ≤ cut.2 ∧ Chained (p + cut.2) cuts q

theorem four_le_getSize {c : Crypto} {txs : Bytes} {l : Nat} (h : getSize c txs = some l) :
    4 ≤ l := by
  rw [getSize, txsSize] at h
  split at h
  · obtain ⟨k, -, rfl⟩ := Option.map_eq_some_iff.mp h
    omega
  · split at h
    · cases h
    · dsimp only at h
      split at h
      case h_2 htype | h_3 htype =>
        cases h
        rw [htype]
        decide
      all_goals
        cases h
        omega

theorem chained_of_txsCuts {c : Crypto} {d : Bytes} {fuel : Nat}
    (h : txsCuts c d len fuel p = .ok (cuts, q)) : Chained p cuts q := by
  induction fuel generalizing p cuts with
  | zero => cases h
  | succ fuel ih =>
    rw [txsCuts] at h
    split at h
    · cases h
      rfl
    · cases hsize : getSize c (d.skip p) with
      | none =>
        rw [hsize] at h
        cases h
      | some l =>
        rw [hsize] at h
        dsimp only at h
        cases hrest : txsCuts c d len fuel (p + l) with
        | error e =>
          rw [hrest] at h
          cases h
        | ok r =>
          rw [hrest] at h
          cases h
          exact ⟨rfl, four_le_getSize hsize, ih hrest⟩

theorem Chained.length_le (h : Chained p cuts q) : p + 4 * cuts.length ≤ q := by
  induction cuts generalizing p with
  | nil => exact h.le
  | cons cut cuts ih =>
    obtain ⟨-, hsize, hrest⟩ := h
    have hle := ih hrest
    rw [List.length_cons]
    omega

/-- A cut starts inside and ends where the next one starts. -/
theorem Chained.bounds (h : Chained p cuts q) (hi : i < cuts.length) :
    p ≤ cuts[i].1 ∧ 4 ≤ cuts[i].2 ∧ cuts[i].1 + cuts[i].2 ≤ q ∧
      (cuts.map Prod.fst).getD (i + 1) q = cuts[i].1 + cuts[i].2 := by
  induction cuts generalizing p i with
  | nil => exact absurd hi (Nat.not_lt_zero i)
  | cons cut cuts ih =>
    obtain ⟨hstart, hsize, hrest⟩ := h
    have hle := hrest.length_le
    cases i with
    | zero =>
      refine ⟨hstart.ge, hsize, ?_, ?_⟩
      · show cut.1 + cut.2 ≤ q
        omega
      · show (cuts.map Prod.fst).getD 0 q = cut.1 + cut.2
        rw [hstart]
        cases cuts with
        | nil => exact hrest.symm
        | cons next cuts => exact hrest.1
    | succ i =>
      obtain ⟨hp, hrest⟩ := ih hrest (Nat.lt_of_succ_lt_succ hi)
      exact ⟨(Nat.le_add_right p cut.2).trans hp, hrest⟩

/-- The head of a message and its transactions. -/
def messageCuts (cuts : List (Nat × Nat)) : List (Nat × Nat) := (4 + 64, 10) :: cuts

/-- The leaves of the tree of a message. -/
def treeLeaves (c : Crypto) (d : Bytes) (svid : UInt16) (msid : UInt32) (cuts : List (Nat × Nat)) :
    List Hash :=
  c.sha256 ((d.skip (4 + 64)).take 10) :: txsLeaves c svid msid 1 (cutParts d cuts)

section Saved

variable {c : Crypto} {d : Bytes} {svid : UInt16} {msid : UInt32}

theorem length_treeLeaves (c : Crypto) (d : Bytes) (svid : UInt16) (msid : UInt32)
    (cuts : List (Nat × Nat)) :
    (treeLeaves c d svid msid cuts).length = ((messageCuts cuts).map Prod.fst).length := by
  rw [treeLeaves, List.length_cons, length_txsLeaves, length_cutParts, List.length_map, messageCuts,
    List.length_cons]

theorem saveMnum_append {a h z : List UInt8} (ha : a.length = len) (hh : h.length = 32)
    (hz : z.length = 4) (t : List UInt8) (mnum : UInt32) :
    saveMnum (a ++ (h ++ (z ++ t))) len mnum = a ++ (h ++ (bytesLE 4 mnum.toNat ++ t)) := by
  have htake : (a ++ (h ++ (z ++ t))).take (len + 32) = a ++ h := by
    rw [← List.append_assoc]
    exact List.take_left' (by rw [List.length_append, ha, hh])
  have hdrop : (a ++ (h ++ (z ++ t))).drop (len + 32 + 4) = t := by
    rw [← List.append_assoc, ← List.append_assoc]
    exact List.drop_left' (by rw [List.length_append, List.length_append, ha, hh, hz])
  rw [saveMnum, htake, hdrop, List.append_assoc, List.append_assoc]

/-- The file of a message, with the number of the message in its block. -/
theorem saveMnum_eq (hm : hashTree c d len svid msid = .ok m)
    (hcuts : txsCuts c d len (len + 1) (4 + 64 + 10) = .ok (cuts, len)) (mnum : UInt32) :
    m.sigh = treeRoot c (treeLeaves c d svid msid cuts) ∧
      saveMnum m.data len mnum = treeFileBytes (d.take len) m.sigh mnum
        ((messageCuts cuts).map Prod.fst) (treeLeaves c d svid msid cuts)
        (treeHashes c (treeLeaves c d svid msid cuts)).dropLast := by
  rw [hashTree_eq_cuts] at hm
  cases hok : treeCuts c d len svid msid with
  | error e =>
    rw [hok] at hm
    cases hm
  | ok cuts' =>
    obtain ⟨-, -, -, hcuts'⟩ := treeCuts_eq_ok.mp hok
    cases hcuts.symm.trans hcuts'
    rw [hok] at hm
    cases hm
    refine ⟨rfl, ?_⟩
    have htotal : (d.take len).length + 44 + 36 * ((messageCuts cuts).map Prod.fst).length =
        len + 32 + 4 + 4 + 4 + (4 + 32) * ((messageCuts cuts).map Prod.fst).length := by
      rw [Bytes.length_take]
    simp only [TreeWalk.trailer, List.append_assoc]
    rw [saveMnum_append (Bytes.length_take d len) (length_hashBytes _) (length_bytesLE 4 0),
      treeFileBytes, htotal]
    rfl

theorem chained_messageCuts (hcuts : txsCuts c d len (len + 1) (4 + 64 + 10) = .ok (cuts, len)) :
    Chained (4 + 64) (messageCuts cuts) len :=
  ⟨rfl, by decide, chained_of_txsCuts hcuts⟩

theorem uint32_shiftRight (d : Bytes) : d.uint32 >>> 8 = .ofNat (d.skip 1).uint24 := by
  have htake : d.take 4 = d 0 :: (d.skip 1).take 3 := by
    rw [show 4 = 1 + 3 from rfl, Bytes.take_add]
    rfl
  have hlt := (d.skip 1).uint24_lt
  have hzero := (d 0).toNat_lt
  have hvalue : ofLE (d.take 4) = (d 0).toNat + 256 * (d.skip 1).uint24 := by
    rw [htake]
    rfl
  rw [← UInt32.toNat_inj, UInt32.toNat_shiftRight, Bytes.uint32, hvalue, UInt32.toNat_ofNat',
    UInt32.toNat_ofNat']
  show (_ % 2 ^ 32) >>> 8 = _
  rw [Nat.shiftRight_eq_div_pow]
  omega

theorem slice_append_take (h : p + n ≤ len) (l : List UInt8) :
    slice (d.take len ++ l) p n = (d.skip p).take n := by
  apply List.ext_getElem
  · rw [BlockFileReader.length_slice, Bytes.length_take]
    rw [List.length_append, Bytes.length_take]
    omega
  · intro k hk hk'
    rw [Bytes.length_take] at hk'
    simp only [slice, List.getElem_take, List.getElem_drop]
    rw [List.getElem_append_left (by rw [Bytes.length_take]; omega)]
    simp [Bytes.take]

/-- What `hash_tree_get` does on the file of a message. -/
theorem hashTreeGet_saved (hm : hashTree c d len svid msid = .ok m) (hlen : (d.skip 1).uint24 = len)
    (hcuts : txsCuts c d len (len + 1) (4 + 64 + 10) = .ok (cuts, len))
    (hi : i < (messageCuts cuts).length) (memory : Bytes) (mnum : UInt32) :
    hashTreeGet c memory msgtypeMsg (.atPos (saveMnum m.data len mnum) 0) (.ofNat i) =
      ((leafPath (messageCuts cuts).length i).mapM (storedAt (messageCuts cuts).length
        (treeHashes c (treeLeaves c d svid msid cuts)).dropLast
        ((treeLeaves c d svid msid cuts).getD ((messageCuts cuts).length - 1) 0))).elim
        (.error .abort) fun hs => do
          require (m.sigh = hs.foldl (addhash c)
            (pathStart c (treeLeaves c d svid msid cuts) i)) .fail
          return {
            data := (cutParts d (messageCuts cuts)).getD i []
            hashes := leafHashes (treeLeaves c d svid msid cuts) i ++ hs
            mnum } := by
  have hsmall := (d.skip 1).uint24_lt
  rw [hlen] at hsmall
  have hchain := chained_messageCuts hcuts
  have hcount := hchain.length_le
  obtain ⟨hstart, hsize, hend, hnext⟩ := hchain.bounds hi
  have hpos : ((messageCuts cuts).map Prod.fst).getD i 0 = (messageCuts cuts)[i].1 := by
    rw [List.getD_eq_getElem?_getD, List.getElem?_map, List.getElem?_eq_getElem hi]
    rfl
  have hpart : (cutParts d (messageCuts cuts)).getD i [] =
      (d.skip (messageCuts cuts)[i].1).take (messageCuts cuts)[i].2 := by
    rw [cutParts, List.getD_eq_getElem?_getD, List.getElem?_map, List.getElem?_eq_getElem hi]
    rfl
  have hleaves := length_treeLeaves c d svid msid cuts
  have hlength : ((messageCuts cuts).map Prod.fst).length = (messageCuts cuts).length :=
    List.length_map _
  have hhashes := length_treeHashes c (show 0 < (treeLeaves c d svid msid cuts).length by omega)
    (by omega)
  have htake := Bytes.length_take d len
  obtain ⟨hsigh, hsave⟩ := saveMnum_eq hm hcuts mnum
  have hfile := treeFile_treeFileBytes htake m.sigh mnum hleaves
    (treeHashes c (treeLeaves c d svid msid cuts)).dropLast memory
  have htotal := hfile.size
  rw [List.length_dropLast] at htotal
  rw [hsave]
  have hbytes : (Bytes.ofList (treeFileBytes (d.take len) m.sigh mnum
      ((messageCuts cuts).map Prod.fst) (treeLeaves c d svid msid cuts)
      (treeHashes c (treeLeaves c d svid msid cuts)).dropLast) memory).uint32 >>> 8 =
      .ofNat len := by
    refine Eq.trans ?_ ((uint32_shiftRight d).trans (congrArg UInt32.ofNat hlen))
    rw [Bytes.uint32_congr]
    apply Bytes.take_congr
    intro k hk
    rw [treeFileBytes, Bytes.ofList_append_left _ _ _ (by rw [htake]; omega)]
    simp [Bytes.take, show k < len by omega]
  rw [hashTreeGet_eq c hfile hbytes (by omega) (by omega) (by omega) (by omega)
    (by rw [hpos]; omega) (by rw [hpos, hnext]; omega) (by rw [hnext]; omega) memory, hpos, hnext,
    hlength, Nat.add_sub_cancel_left, treeFileBytes, slice_append_take hend, hpart]

/-- No path is found of a message whose hash has a mark that nothing on the path has. -/
theorem hashTreeGet_of_lost {P : Hash → Prop} (hP : KeepsMark c P)
    (hm : hashTree c d len svid msid = .ok m) (hlen : (d.skip 1).uint24 = len)
    (hcuts : txsCuts c d len (len + 1) (4 + 64 + 10) = .ok (cuts, len))
    (hi : i < (messageCuts cuts).length) (memory : Bytes) (mnum : UInt32)
    (hroot : P (treeRoot c (treeLeaves c d svid msid cuts)))
    (hstart : ¬ P (pathStart c (treeLeaves c d svid msid cuts) i))
    (hread : ∀ n ∈ leafPath (messageCuts cuts).length i, ∀ h,
      storedAt (messageCuts cuts).length (treeHashes c (treeLeaves c d svid msid cuts)).dropLast
        ((treeLeaves c d svid msid cuts).getD ((messageCuts cuts).length - 1) 0) n = some h → ¬ P h)
    (path : TreePath) :
    hashTreeGet c memory msgtypeMsg (.atPos (saveMnum m.data len mnum) 0) (.ofNat i) ≠
      .ok path := by
  intro hget
  rw [hashTreeGet_saved hm hlen hcuts hi] at hget
  cases hmapM : (leafPath (messageCuts cuts).length i).mapM (storedAt (messageCuts cuts).length
      (treeHashes c (treeLeaves c d svid msid cuts)).dropLast
      ((treeLeaves c d svid msid cuts).getD ((messageCuts cuts).length - 1) 0)) with
  | none =>
    rw [hmapM] at hget
    cases hget
  | some hs =>
    rw [hmapM] at hget
    obtain ⟨hsigh, -⟩ := require_bind_eq_ok.mp hget
    have hunmarked : ∀ a ∈ hs, ¬ P a := by
      intro a ha
      obtain ⟨n, hn, hat⟩ := exists_of_mapM_eq_some hmapM ha
      exact hread n hn a hat
    apply foldl_addhash_unmarked _ hP hstart hunmarked
    rw [← hsigh, (saveMnum_eq hm hcuts mnum).1]
    exact hroot

end Saved

/-! ## When a path is found -/

/-- A path of a transaction: its bytes, and hashes that start with its leaf and join to the hash
of the message. -/
structure PathOf (c : Crypto) (d : Bytes) (svid : UInt16) (msid : UInt32)
    (cuts : List (Nat × Nat)) (sigh : Hash) (mnum : UInt32) (tnum : Nat) (path : TreePath) :
    Prop where
  data : path.data = (cutParts d (messageCuts cuts)).getD tnum []
  leaf : path.hashes.head? = (treeLeaves c d svid msid cuts)[tnum]?
  root : HashTree.hashpathrun c 0 path.hashes = sigh
  mnum : path.mnum = mnum

/-- `hash_tree_get` finds the path of a transaction in every file of a message of `tmax`
entries. -/
def FindsPath (tmax tnum : Nat) : Prop :=
  ∀ (c : Crypto) (memory d : Bytes) (len : Nat) (svid : UInt16) (msid : UInt32)
    (m : TreeMessage) (cuts : List (Nat × Nat)) (mnum : UInt32),
    hashTree c d len svid msid = .ok m → (d.skip 1).uint24 = len →
    txsCuts c d len (len + 1) (4 + 64 + 10) = .ok (cuts, len) →
    (messageCuts cuts).length = tmax →
    ∃ path, hashTreeGet c memory msgtypeMsg (.atPos (saveMnum m.data len mnum) 0) (.ofNat tnum) =
        .ok path ∧
      PathOf c d svid msid cuts m.sigh mnum tnum path

theorem findsPath_of_pathStored {tmax tnum : Nat} (htnum : tnum < tmax)
    (h : PathStored tmax tnum) : FindsPath tmax tnum := by
  intro c memory d len svid msid m cuts mnum hm hlen hcuts hcount
  subst hcount
  have hsmall := (d.skip 1).uint24_lt
  rw [hlen] at hsmall
  have hbound := (chained_messageCuts hcuts).length_le
  have hleaves : (treeLeaves c d svid msid cuts).length = (messageCuts cuts).length :=
    (length_treeLeaves c d svid msid cuts).trans (List.length_map _)
  obtain ⟨hsigh, -⟩ := saveMnum_eq hm hcuts mnum
  rw [← hleaves] at h htnum
  obtain ⟨hs, hmapM, hfold⟩ := exists_path c htnum (by omega) h
  rw [hleaves] at htnum hmapM
  have hget := hashTreeGet_saved hm hlen hcuts htnum memory mnum
  simp only [hmapM, Option.elim, require, hsigh, hfold, if_true] at hget
  refine ⟨_, hget, rfl, ?_, ?_, rfl⟩
  · show some _ = _
    rw [List.getElem?_eq_getElem (by omega), getElem_eq_getD]
  · rw [hashpathrun_leafHashes, hfold, hsigh]

namespace Sample

/-- A message of placeholders with its length; one byte is set. -/
def markedMessage (len mark : Nat) : Bytes := fun i =>
  if i = 0 then msgtypeMsg
  else if i < 4 then UInt8.ofNat (len / 256 ^ (i - 1))
  else if i = mark then 1 else 0

/-- The cuts of `n` placeholders. -/
def placeholderCuts (p n : Nat) : List (Nat × Nat) := (List.range n).map fun k => (p + 4 * k, 4)

/-- The ids of a transaction do not reach the top bit of its leaf. -/
theorem msb_txsLeaf_eq (c : Crypto) (txs : List UInt8) (svid : UInt16) (msid : UInt32)
    (tnum : UInt16) : (txsLeaf c txs svid msid tnum).msb = (c.sha256 txs).msb := by
  have hsmall : svid.toNat + 2 ^ 32 * msid.toNat + 2 ^ 64 * tnum.toNat < 2 ^ 255 := by
    have hsvid := svid.toNat_lt
    have hmsid := msid.toNat_lt
    have htnum := tnum.toNat_lt
    omega
  have hmsb : (BitVec.ofNat 256
      (svid.toNat + 2 ^ 32 * msid.toNat + 2 ^ 64 * tnum.toNat)).msb = false := by
    rw [BitVec.msb_eq_false_iff_two_mul_lt, BitVec.toNat_ofNat]
    omega
  rw [txsLeaf, BitVec.msb_xor, hmsb, Bool.xor_false]

theorem uint24_markedMessage (hlen : len < 2 ^ 24) (mark : Nat) :
    ((markedMessage len mark).skip 1).uint24 = len := by
  have htake : ((markedMessage len mark).skip 1).take 3 = bytesLE 3 len := by
    simp [Bytes.take, bytesLE, markedMessage, List.range_succ]
  rw [Bytes.uint24, htake, ofLE_bytesLE]
  omega

theorem markedMessage_apply (hi : 4 ≤ i) :
    markedMessage len mark i = if i = mark then 1 else 0 := by
  rw [markedMessage, if_neg (by omega), if_neg (by omega)]

theorem getSize_markedMessage (c : Crypto) (hp : 4 ≤ p) (hpart : p % 4 = 2) (hmark : mark % 4 = 3) :
    getSize c ((markedMessage len mark).skip p) = some 4 := by
  have hzero : (markedMessage len mark).skip p 0 = 0 := by
    rw [Bytes.skip_apply, markedMessage_apply (by omega), if_neg (by omega)]
  have hlen : (((markedMessage len mark).skip p).skip 1).uint24 ≤ 4 := by
    have htake : (((markedMessage len mark).skip p).skip 1).take 3 =
        [if p + 1 = mark then 1 else 0, 0, 0] := by
      simp only [Bytes.take, Bytes.skip_skip, Bytes.skip_apply, List.range_succ, List.range_zero,
        List.nil_append, List.map_cons, List.map_nil, List.cons_append]
      rw [markedMessage_apply (by omega), markedMessage_apply (by omega),
        markedMessage_apply (by omega), if_neg (show p + 1 + 1 ≠ mark by omega),
        if_neg (show p + 1 + 2 ≠ mark by omega)]
    rw [Bytes.uint24, htake]
    split <;> decide
  rw [getSize, hzero]
  show some (max 4 _) = some 4
  rw [Nat.max_eq_left hlen]

theorem txsCuts_markedMessage (c : Crypto) {fuel : Nat} (hp : 4 ≤ p) (hpart : p % 4 = 2)
    (hmark : mark % 4 = 3) (hfuel : n < fuel) (hlen : p + 4 * n = len) :
    txsCuts c (markedMessage len mark) len fuel p = .ok (placeholderCuts p n, len) := by
  induction n generalizing p fuel with
  | zero =>
    obtain ⟨fuel, rfl⟩ : ∃ k, fuel = k + 1 := ⟨fuel - 1, by omega⟩
    rw [txsCuts, if_pos (by omega), show p = len by omega]
    rfl
  | succ n ih =>
    obtain ⟨fuel, rfl⟩ : ∃ k, fuel = k + 1 := ⟨fuel - 1, by omega⟩
    rw [txsCuts, if_neg (by omega), getSize_markedMessage c hp hpart hmark]
    dsimp only
    rw [ih (by omega) (by omega) (by omega) (by omega), placeholderCuts, placeholderCuts,
      List.range_succ_eq_map, List.map_cons, List.map_map]
    simp [Except.map, Function.comp_def, Nat.mul_add, Nat.add_assoc, Nat.add_comm 4]

/-- The byte that is set marks one leaf. -/
theorem msb_treeLeaves {j : Nat} (hj : j < n + 1) :
    ((treeLeaves markCrypto (markedMessage len (75 + 8 * p)) 1 1
      (placeholderCuts (4 + 64 + 10) n)).getD j 0).msb = true ↔ j = 2 * p := by
  have hany {off k : Nat} (hoff : 4 ≤ off) :
      (∃ b ∈ ((markedMessage len (75 + 8 * p)).skip off).take k, b ≠ 0) ↔
        off ≤ 75 + 8 * p ∧ 75 + 8 * p < off + k := by
    constructor
    · rintro ⟨b, hb, hne⟩
      obtain ⟨i, hi, rfl⟩ := List.mem_map.mp hb
      rw [List.mem_range] at hi
      rw [Bytes.skip_apply, markedMessage_apply (by omega)] at hne
      have heq : off + i = 75 + 8 * p := by
        by_contra hne'
        exact hne (if_neg hne')
      omega
    · rintro ⟨hle, hlt⟩
      refine ⟨_, List.mem_map.mpr ⟨75 + 8 * p - off, List.mem_range.mpr (by omega), rfl⟩, ?_⟩
      rw [Bytes.skip_apply, markedMessage_apply (by omega), if_pos (by omega)]
      decide
  cases j with
  | zero =>
    show (markCrypto.sha256 _).msb = true ↔ _
    rw [msb_sha256 (by rw [Bytes.length_take]; decide), hany (by decide)]
    omega
  | succ j =>
    have hlt : j < (txsLeaves markCrypto 1 1 1 (cutParts (markedMessage len (75 + 8 * p))
        (placeholderCuts (4 + 64 + 10) n))).length := by
      rw [length_txsLeaves, length_cutParts, placeholderCuts, List.length_map, List.length_range]
      omega
    rw [treeLeaves, List.getD_cons_succ, ← getElem_eq_getD j hlt]
    simp only [txsLeaves, List.getElem_zipWith, cutParts, placeholderCuts, List.getElem_map,
      List.getElem_range]
    rw [msb_txsLeaf_eq, msb_sha256 (by rw [Bytes.length_take]; decide), hany (by omega)]
    omega

end Sample

/-- How many entries a message can have. The shortest transaction takes four bytes, the length of
a message is a number of 24 bits, and a counter of 16 bits must not be zero at the end. -/
def EntryCount (tmax : Nat) : Prop :=
  2 ≤ tmax ∧ 4 + 64 + 10 + 4 * (tmax - 1) < 2 ^ 24 ∧ tmax % 2 ^ 16 ≠ 0

/-- Where a place of the path is not stored, there is a message whose path is not found. -/
theorem pathStored_of_findsPath {tmax tnum : Nat} (htnum : tnum < tmax)
    (hcount : EntryCount tmax) (h : FindsPath tmax tnum) : PathStored tmax tnum := by
  obtain ⟨htwo, hlen, hcounter⟩ := hcount
  by_contra hpath
  have heven : tmax % 2 = 0 := by
    by_contra hodd
    exact hpath (.inl (by omega))
  obtain ⟨p, hp, -, hlost⟩ := exists_lost_leaf Sample.markCrypto Sample.keepsMark_msb heven htnum
    (by omega) hpath
  generalize hlength : 4 + 64 + 10 + 4 * (tmax - 1) = len at hlen
  generalize hd : Sample.markedMessage len (75 + 8 * p) = d
  generalize hparts : Sample.placeholderCuts (4 + 64 + 10) (tmax - 1) = cuts
  have hcuts : txsCuts Sample.markCrypto d len (len + 1) (4 + 64 + 10) = .ok (cuts, len) := by
    rw [← hd, ← hparts]
    exact Sample.txsCuts_markedMessage _ (by decide) (by decide) (by omega) (by omega) hlength
  have hlengthCuts : cuts.length = tmax - 1 := by
    rw [← hparts, Sample.placeholderCuts, List.length_map, List.length_range]
  have htree : treeCuts Sample.markCrypto d len 1 1 = .ok cuts := by
    refine treeCuts_eq_ok.mpr ⟨⟨by rw [← hd]; rfl, by decide, by decide⟩, by omega, ?_, hcuts⟩
    rw [hlengthCuts, ← UInt16.toNat_inj.ne, UInt16.toNat_add, UInt16.toNat_ofNat']
    show (1 + (tmax - 1) % 2 ^ 16) % 2 ^ 16 ≠ 0
    omega
  have hhash := hashTree_eq_cuts Sample.markCrypto d len 1 1
  rw [htree] at hhash
  have huint : (d.skip 1).uint24 = len := by
    rw [← hd]
    exact Sample.uint24_markedMessage hlen _
  have hmax : (messageCuts cuts).length = tmax := by
    rw [messageCuts, List.length_cons]
    omega
  obtain ⟨path, hget, -⟩ := h Sample.markCrypto (fun _ => 0) d len 1 1 _ cuts 0 hhash huint hcuts
    hmax
  obtain ⟨hroot, hstart, hread⟩ := hlost (treeLeaves Sample.markCrypto d 1 1 cuts)
    (by rw [length_treeLeaves, List.length_map, hmax])
    (fun j hj => by rw [← hd, ← hparts]; exact Sample.msb_treeLeaves (by omega))
  rw [← hmax] at hread
  exact hashTreeGet_of_lost Sample.keepsMark_msb hhash huint hcuts (by omega) _ _ hroot hstart hread
    path hget

/-- `hash_tree_get` finds the path of a transaction in every stored message of a number of
entries if and only if the number is odd or no place of the path is 1024 or more. -/
theorem hashTreeGet_iff {tmax tnum : Nat} (htnum : tnum < tmax) (hcount : EntryCount tmax) :
    FindsPath tmax tnum ↔ PathStored tmax tnum :=
  ⟨pathStored_of_findsPath htnum hcount, findsPath_of_pathStored htnum⟩

/-- The first transaction of 1025. -/
theorem hashTreeGet_1026 : EntryCount 1026 ∧ FindsPath 1026 1 :=
  ⟨⟨by decide, by decide, by decide⟩,
    (hashTreeGet_iff (by decide) ⟨by decide, by decide, by decide⟩).mpr (by decide +kernel)⟩

/-- The first transaction of 1027: the last place of its path is 1025, and the hash at the
place 1024 is read for it. -/
theorem hashTreeGet_1028 : EntryCount 1028 ∧ leafPath 1028 1 =
    [1, 5, 13, 29, 61, 125, 253, 509, 1021, 1025] ∧ ¬ FindsPath 1028 1 := by
  have hcount : EntryCount 1028 := ⟨by decide, by decide, by decide⟩
  refine ⟨hcount, by decide +kernel, fun h => ?_⟩
  exact absurd (pathStored_of_findsPath (by decide) hcount h) (by decide +kernel)

end Esc
