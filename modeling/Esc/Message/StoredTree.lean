import Esc.Helper.BlockFileReader
import Esc.Message.HashPath

/-!
# Reading a path of hashes from a file

A message file and a list of messages store the hashes of a tree in the same way: the joined
hashes without the last one, which is the root. With an odd number of leaves the last leaf
takes part in the tree as a pair of its own that is not stored, so that the place of this pair
is left out when a path is read.

With an even number of leaves no place is left out, but the readers leave out the place 1024.
-/

namespace Esc

open Lib Merkle

variable {n p q tmax : Nat} {b : Bytes}

/-! ## Reading at a position -/

namespace BlockFileReader

/-- Fill a buffer. A short read leaves the end of the buffer as it was. -/
def fill (memory : Bytes) (r : BlockFileReader) (size : UInt32) :
    Except Stop (Bytes × BlockFileReader) :=
  match r.read size with
  | none => .error .abort
  | some (bytes, r) => .ok (Bytes.ofList bytes memory, r)

/-- Move to a position and fill a buffer. -/
def fetch (memory : Bytes) (r : BlockFileReader) (position size : UInt32) :
    Except Stop (Bytes × BlockFileReader) :=
  fill memory (r.lseek position.toInt32 .set).2 size

variable {file : List UInt8} {size : Nat}

theorem toInt_toInt32_ofNat (hp : p < 2 ^ 31) : (UInt32.ofNat p).toInt32.toInt = p := by
  show (BitVec.ofNat 32 p).toInt = p
  rw [BitVec.toInt_eq_toNat_bmod, BitVec.toNat_ofNat, Nat.mod_eq_of_lt (by omega)]
  apply Int.bmod_eq_of_le <;> omega

theorem fill_atPos (memory : Bytes) (hfile : file.length < 2 ^ 31) (hp : p ≤ file.length)
    (hsize : size < 2 ^ 31) :
    fill memory (atPos file p) (.ofNat size) =
      .ok (Bytes.ofList (slice file p (min size (file.length - p))) memory,
        atPos file (p + (slice file p (min size (file.length - p))).length)) := by
  have hnat : (UInt32.ofNat size).toNat = size := by
    rw [UInt32.toNat_ofNat']
    omega
  have hread := read_eq (r := atPos file p) rfl hfile hp
    (show (UInt32.ofNat size).toNat < 2 ^ 31 by omega)
  dsimp only at hread
  rw [hnat] at hread
  rw [fill, hread]
  rfl

theorem lseek_atPos (q : Nat) (hfile : file.length < 2 ^ 31) (hp : p ≤ file.length) :
    ((atPos file q).lseek (UInt32.ofNat p).toInt32 .set).2 = atPos file p := by
  have hpos := toInt_toInt32_ofNat (p := p) (by omega)
  rw [lseek_set (r := atPos file q) rfl hfile (by rw [hpos]; omega), hpos, Int.toNat_natCast]
  show { atPos file q with position := 0 + min p file.length } = atPos file p
  rw [Nat.min_eq_left hp, Nat.zero_add]
  rfl

theorem length_slice (h : p + n ≤ file.length) : (slice file p n).length = n := by
  rw [slice, List.length_take, List.length_drop]
  omega

/-- A buffer holds what the file has at the position. -/
theorem ofList_slice_apply (memory rest : Bytes) {k : Nat} (hk : k < n)
    (hfile : p + k < file.length) :
    Bytes.ofList (slice file p n) memory k = Bytes.ofList file rest (p + k) := by
  have hslice : (slice file p n)[k]? = file[p + k]? := by
    rw [slice, List.getElem?_take_of_lt hk, List.getElem?_drop]
  rw [Bytes.ofList, Bytes.ofList, List.getD_eq_getElem?_getD, List.getD_eq_getElem?_getD, hslice,
    List.getElem?_eq_getElem hfile]
  rfl

/-- A read inside a file. -/
theorem exists_fill (memory rest : Bytes) (hfile : file.length < 2 ^ 31)
    (hp : p + size ≤ file.length) :
    ∃ b, fill memory (atPos file p) (.ofNat size) = .ok (b, atPos file (p + size)) ∧
      ∀ k < size, b k = Bytes.ofList file rest (p + k) := by
  have hmin : min size (file.length - p) = size := by omega
  refine ⟨Bytes.ofList (slice file p size) memory, ?_, fun k hk => ?_⟩
  · rw [fill_atPos memory hfile (by omega) (by omega), hmin, length_slice hp]
  · exact ofList_slice_apply memory rest hk (by omega)

/-- A read at a position of a file. -/
theorem exists_fetch (memory rest : Bytes) (q : Nat) (hfile : file.length < 2 ^ 31)
    (hp : p ≤ file.length) (hsize : size < 2 ^ 31) :
    ∃ b q', fetch memory (atPos file q) (.ofNat p) (.ofNat size) = .ok (b, atPos file q') ∧
      ∀ k < size, p + k < file.length → b k = Bytes.ofList file rest (p + k) := by
  have hfetch := fill_atPos memory hfile hp hsize
  rw [← lseek_atPos q hfile hp] at hfetch
  exact ⟨_, _, hfetch, fun _ _ _ => ofList_slice_apply memory rest (by omega) (by omega)⟩

end BlockFileReader

/-! ## The tree of a row of leaves -/

section Tree

variable (c : Crypto)

theorem addhash_comm (a b : Hash) : addhash c a b = addhash c b a := by
  unfold addhash
  by_cases hlt : hashBytes a < hashBytes b
  · rw [if_neg (List.lt_asymm hlt), if_pos hlt]
  · by_cases hgt : hashBytes b < hashBytes a
    · rw [if_pos hgt, if_neg hlt]
    · rw [List.le_antisymm (List.not_lt.mp hgt) (List.not_lt.mp hlt)]

theorem update_eq_insert (tree : HashTree) (h : Hash) :
    tree.update c h = insert (addhash c) tree h := by
  induction tree generalizing h with
  | nil => rfl
  | cons level levels ih =>
    cases level with
    | none => rfl
    | some a => exact congrArg (none :: ·) (ih _)

theorem joins_eq_carries (tree : HashTree) (h : Hash) :
    tree.joins c h = carries (addhash c) tree h := by
  induction tree generalizing h with
  | nil => rfl
  | cons level levels ih =>
    cases level with
    | none => rfl
    | some a => exact congrArg (_ :: ·) (ih _)

theorem finishJoins_eq_finishLog (tree : HashTree) (h : Option Hash) :
    tree.finishJoins c h = finishLog (addhash c) tree h := by
  induction tree generalizing h with
  | nil => rfl
  | cons level levels ih =>
    cases h with
    | none => exact ih level
    | some h =>
      cases level with
      | none => exact ih (some h)
      | some a => exact congrArg (_ :: ·) (ih _)

theorem log_eq_joinLog (tree : HashTree) (leaves : List Hash) :
    tree.log c leaves = joinLog (addhash c) tree leaves := by
  induction leaves generalizing tree with
  | nil => rfl
  | cons h leaves ih => rw [HashTree.log, joinLog, joins_eq_carries, ih, update_eq_insert]

theorem finish_eq (tree : HashTree) : tree.finish c = (finish (addhash c) tree none).getD 0 := by
  unfold HashTree.finish finish
  dsimp only
  congr 2
  funext h level
  cases h with
  | none => rfl
  | some h => cases level <;> rfl

/-- The hashes that a tree makes of a row of leaves. -/
def treeHashes (leaves : List Hash) : List Hash :=
  HashTree.empty.log c leaves ++
    (leaves.foldl (HashTree.update c) HashTree.empty).finishJoins c none

/-- The hash of a tree. -/
def treeRoot (leaves : List Hash) : Hash :=
  (leaves.foldl (HashTree.update c) HashTree.empty).finish c

/-- The pairs of a row of leaves, with a last leaf that has no partner. -/
def leafPairs (leaves : List Hash) : Nat → Hash :=
  halve (addhash c) (fun j => leaves.getD j 0) (leaves.length - 1)

theorem foldl_update (leaves : List Hash) (tree : HashTree) :
    leaves.foldl (HashTree.update c) tree = leaves.foldl (insert (addhash c)) tree := by
  congr 1
  funext tree h
  exact update_eq_insert c tree h

theorem getElem_eq_getD {leaves : List Hash} (j : Nat) (hj : j < leaves.length) :
    leaves[j] = leaves.getD j 0 := by
  rw [List.getD_eq_getElem?_getD, List.getElem?_eq_getElem hj, Option.getD_some]

variable {leaves : List Hash}

theorem treeRoot_eq (hpos : 0 < leaves.length) (hlt : leaves.length < 2 ^ 31) :
    treeRoot c leaves =
      node (addhash c) (leafPairs c leaves) ((leaves.length - 1) / 2) 31 0 := by
  have hlevels := (log_joinLog (addhash c) (fun j => leaves.getD j 0) 31 (n := 0)
    fun j (hj : j < leaves.length) => by rw [Nat.zero_add]; exact getElem_eq_getD j hj).2
  rw [levels_zero, Nat.zero_add] at hlevels
  obtain ⟨n, hn⟩ : ∃ n, leaves.length = n + 1 := ⟨leaves.length - 1, by omega⟩
  have hroot :=
    finish_levels (addhash_comm c) (fun j => leaves.getD j 0) (m := n) (d := 32) (by omega)
  rw [treeRoot, finish_eq, foldl_update]
  show (finish _ (leaves.foldl (insert (addhash c)) (List.replicate 32 none)) none).getD 0 = _
  rw [hlevels, hn, hroot, Option.getD_some, leafPairs, hn]
  rfl

theorem treeHashes_even (hlength : leaves.length = 2 * q + 2) :
    treeHashes c leaves = fullLog (addhash c) (leafPairs c leaves) 31 q := by
  have hlog := joinLog_even (addhash_comm c) (fun j => leaves.getD j 0) 31 getElem_eq_getD hlength
  rw [treeHashes, log_eq_joinLog, finishJoins_eq_finishLog, foldl_update, leafPairs, hlength]
  exact hlog

theorem treeHashes_odd (hlength : leaves.length = 2 * q + 1) (hq : q ≤ 2 ^ 31) :
    treeHashes c leaves =
      (fullLog (addhash c) (leafPairs c leaves) 31 q).eraseIdx (logSize q) := by
  have hlog := joinLog_odd (addhash c) (fun j => leaves.getD j 0) 31 getElem_eq_getD hlength hq
  rw [treeHashes, log_eq_joinLog, finishJoins_eq_finishLog, foldl_update, leafPairs, hlength]
  exact hlog

end Tree

/-! ## Reading a path -/

/-- The place that a reader of a tree leaves out. -/
def missingPlace (tmax : Nat) : Nat := if tmax % 2 = 1 then logSize (tmax / 2) else 32 * 32

/-- The hash that a reader takes for a place. -/
def storedAt (tmax : Nat) (stored : List Hash) (last : Hash) (n : Nat) : Option Hash :=
  if n < missingPlace tmax then stored[n]?
  else if n = missingPlace tmax then some last
  else stored[n - 1]?

/-- The places of a path from one of the leaves. -/
def leafPath (tmax tnum : Nat) : List Nat := pathFrom ((tmax - 1) / 2) (tnum / 2) 0 32

/-- No place of the path is left out without need. -/
def PathStored (tmax tnum : Nat) : Prop :=
  tmax % 2 = 1 ∨ ∀ n ∈ leafPath tmax tnum, n < 32 * 32

instance (tmax tnum : Nat) : Decidable (PathStored tmax tnum) := by
  unfold PathStored
  infer_instance

theorem leafPath_lt {tnum : Nat} (htnum : tnum < tmax) (hn : n ∈ leafPath tmax tnum) :
    n < logSize ((tmax - 1) / 2) + ones ((tmax - 1) / 2) := by
  obtain ⟨l, hl, rfl⟩ := mem_pathFrom hn
  exact place_sibling_lt (Nat.div_le_div_right (by omega)) hl

/-- The readers ask for the places of the path. -/
theorem hashpath_leafPath {tnum : Nat} (htnum : tnum < tmax) (hlt : tmax < 2 ^ 31) :
    HashTree.hashpath (.ofNat tnum / 2) ((.ofNat tmax + 1) / 2) =
      (leafPath tmax tnum).map UInt32.ofNat := by
  have hdiv {n : Nat} (hn : n < 2 ^ 32) : UInt32.ofNat n / 2 = .ofNat (n / 2) := by
    rw [← UInt32.toNat_inj, UInt32.toNat_div, UInt32.toNat_ofNat', UInt32.toNat_ofNat',
      Nat.mod_eq_of_lt hn, Nat.mod_eq_of_lt (by omega)]
    rfl
  have hmax : (UInt32.ofNat tmax + 1) / 2 = .ofNat ((tmax - 1) / 2 + 1) := by
    rw [show UInt32.ofNat tmax + 1 = .ofNat (tmax + 1) by rw [UInt32.ofNat_add]; rfl,
      hdiv (by omega)]
    congr 1
    omega
  rw [hmax, hdiv (by omega), hashpath_eq (by omega) (by omega)]
  rfl

section Path

variable (c : Crypto) {leaves : List Hash} {tnum : Nat}

theorem storedAt_even (hlength : leaves.length = 2 * q + 2) (hq : q < 2 ^ 31)
    (hn : n < logSize q + ones q) (last : Hash) :
    storedAt leaves.length (treeHashes c leaves).dropLast last n =
      if n = 32 * 32 then some last
      else (fullLog (addhash c) (leafPairs c leaves) 31 q)[if n < 32 * 32 then n else n - 1]? := by
  have hmissing : missingPlace leaves.length = 32 * 32 := if_neg (by omega)
  have hsize := length_fullLog (addhash c) (leafPairs c leaves) hq
  rw [storedAt, hmissing, treeHashes_even c hlength]
  by_cases hlt : n < 32 * 32
  · rw [if_pos hlt, if_neg (by omega), if_pos hlt, List.getElem?_dropLast, if_pos (by omega)]
  · by_cases heq : n = 32 * 32
    · rw [if_neg hlt, if_pos heq, if_pos heq]
    · rw [if_neg hlt, if_neg heq, if_neg heq, if_neg hlt, List.getElem?_dropLast,
        if_pos (by omega)]

theorem storedAt_odd (hlength : leaves.length = 2 * q + 1) (hq : q < 2 ^ 31)
    (hn : n < logSize q + ones q) :
    storedAt leaves.length (treeHashes c leaves).dropLast (leaves.getD (2 * q) 0) n =
      (fullLog (addhash c) (leafPairs c leaves) 31 q)[n]? := by
  have hmissing : missingPlace leaves.length = logSize q := by
    rw [missingPlace, if_pos (by omega), show leaves.length / 2 = q by omega]
  have hsize := length_fullLog (addhash c) (leafPairs c leaves) hq
  have hlog : (log (addhash c) (leafPairs c leaves) 31 q).length = logSize q := length_log _ hq.le
  have herase : ((fullLog (addhash c) (leafPairs c leaves) 31 q).eraseIdx (logSize q)).length =
      logSize q + ones q := by
    rw [List.length_eraseIdx, if_pos (by omega), hsize]
    rfl
  have hlast : leafPairs c leaves q = leaves.getD (2 * q) 0 := by
    rw [leafPairs, hlength]
    exact if_neg (by omega)
  rw [storedAt, hmissing, treeHashes_odd c hlength hq.le]
  rcases lt_trichotomy n (logSize q) with hlt | rfl | hgt
  · have hpos : ones q ≠ 0 := fun hzero => by
      rw [ones_eq_zero hzero] at hlt
      simp [logSize] at hlt
    rw [if_pos hlt, List.getElem?_dropLast, if_pos (by omega), List.getElem?_eraseIdx, if_pos hlt]
  · rw [if_neg (lt_irrefl _), if_pos rfl, fullLog, List.getElem?_append_right hlog.le, hlog,
      Nat.sub_self, ← hlast]
    rfl
  · rw [if_neg hgt.asymm, if_neg hgt.ne', List.getElem?_dropLast, if_pos (by omega),
      List.getElem?_eraseIdx, if_neg (by omega), Nat.sub_add_cancel (by omega)]

/-- Where the path is stored, the readers find the entries of the log. -/
theorem storedAt_of_pathStored (htnum : tnum < leaves.length) (hlt : leaves.length < 2 ^ 29)
    (hpath : PathStored leaves.length tnum) (hn : n ∈ leafPath leaves.length tnum) :
    storedAt leaves.length (treeHashes c leaves).dropLast (leaves.getD (leaves.length - 1) 0) n =
      (fullLog (addhash c) (leafPairs c leaves) 31 ((leaves.length - 1) / 2))[n]? := by
  have hbound := leafPath_lt htnum hn
  rcases Nat.even_or_odd' (leaves.length - 1) with ⟨q, hq | hq⟩
  · rw [hq, Nat.mul_div_cancel_left q (by decide)] at hbound ⊢
    exact storedAt_odd c (by omega) (by omega) hbound
  · rw [hq, show (2 * q + 1) / 2 = q by omega] at hbound ⊢
    have hsmall : n < 32 * 32 := by
      rcases hpath with hodd | hsmall
      · omega
      · exact hsmall n hn
    rw [storedAt_even c (by omega) (by omega) hbound, if_neg (by omega), if_pos hsmall]

/-- A leaf with its neighbour, from where a path goes on. -/
def pathStart (leaves : List Hash) (tnum : Nat) : Hash :=
  if sibling tnum < leaves.length then
    addhash c (leaves.getD tnum 0) (leaves.getD (sibling tnum) 0)
  else leaves.getD tnum 0

theorem pathStart_eq (htnum : tnum < leaves.length) :
    pathStart c leaves tnum = leafPairs c leaves (tnum / 2) := by
  have hle : tnum ≤ (leaves.length - 1) / 2 ^ 0 := by
    rw [pow_zero, Nat.div_one]
    omega
  have hstep := node_succ (addhash_comm c) (fun j => leaves.getD j 0) hle
  rw [pow_zero, Nat.div_one] at hstep
  refine Eq.trans ?_ hstep.symm
  exact if_congr (by omega) rfl rfl

theorem mapM_eq_some {α β : Type} {f : α → Option β} {g : α → β} {as : List α}
    (h : ∀ a ∈ as, f a = some (g a)) : as.mapM f = some (as.map g) := by
  induction as with
  | nil => rfl
  | cons a as ih =>
    rw [List.mapM_cons, h a List.mem_cons_self, ih fun b hb => h b (List.mem_cons_of_mem _ hb)]
    rfl

/-- The entries of the log on the path of a leaf join it to the root. -/
theorem foldl_leafPath (htnum : tnum < leaves.length) (hlt : leaves.length < 2 ^ 31)
    (read : Nat → Hash) (hread : ∀ n ∈ leafPath leaves.length tnum,
      (fullLog (addhash c) (leafPairs c leaves) 31 ((leaves.length - 1) / 2))[n]? =
        some (read n)) :
    ((leafPath leaves.length tnum).map read).foldl (addhash c) (pathStart c leaves tnum) =
      treeRoot c leaves := by
  have hm : (leaves.length - 1) / 2 < 2 ^ 31 := by omega
  have hi : tnum / 2 ≤ (leaves.length - 1) / 2 := Nat.div_le_div_right (by omega)
  have hfold := foldl_pathFrom (addhash_comm c) (leafPairs c leaves) hm hi read 0 32 hread
  rw [Nat.zero_add, Nat.div_eq_of_lt (show tnum / 2 < 2 ^ 32 by omega), pow_zero,
    Nat.div_one] at hfold
  rw [pathStart_eq c htnum, treeRoot_eq c (by omega) hlt, ← node_of_lt (addhash_comm c) _ hm]
  exact hfold

/-- The hashes of a stored path join a leaf to the root. -/
theorem exists_path (htnum : tnum < leaves.length) (hlt : leaves.length < 2 ^ 29)
    (hpath : PathStored leaves.length tnum) :
    ∃ hs, (leafPath leaves.length tnum).mapM (storedAt leaves.length
        (treeHashes c leaves).dropLast (leaves.getD (leaves.length - 1) 0)) = some hs ∧
      hs.foldl (addhash c) (pathStart c leaves tnum) = treeRoot c leaves := by
  have hm : (leaves.length - 1) / 2 < 2 ^ 31 := by omega
  have hsize := length_fullLog (addhash c) (leafPairs c leaves) hm
  generalize hread : (fun n : Nat =>
    ((fullLog (addhash c) (leafPairs c leaves) 31 ((leaves.length - 1) / 2))[n]?).getD 0) = read
  have hlog {n : Nat} (hn : n ∈ leafPath leaves.length tnum) :
      (fullLog (addhash c) (leafPairs c leaves) 31 ((leaves.length - 1) / 2))[n]? =
        some (read n) := by
    have hbound := leafPath_lt htnum hn
    rw [← hread]
    simp only [List.getElem?_eq_getElem (show n < _ by rw [hsize]; omega), Option.getD_some]
  refine ⟨(leafPath leaves.length tnum).map read, ?_, ?_⟩
  · apply mapM_eq_some
    intro n hn
    rw [storedAt_of_pathStored c htnum hlt hpath hn, hlog hn]
  · exact foldl_leafPath c htnum (by omega) read fun n hn => hlog hn

/-- A mark of hashes that a join keeps. -/
def KeepsMark (P : Hash → Prop) : Prop := ∀ a b, P (addhash c a b) ↔ P a ∨ P b

/-- Where the path is not stored, there is a leaf that the path of another leaf loses. It is
the first leaf of a pair. -/
theorem exists_lost_leaf {P : Hash → Prop} (hP : KeepsMark c P) (heven : tmax % 2 = 0)
    (htnum : tnum < tmax) (hlt : tmax < 2 ^ 29) (hpath : ¬ PathStored tmax tnum) :
    ∃ p, 2 * p + 1 < tmax ∧ tnum ≠ 2 * p ∧ ∀ leaves : List Hash, leaves.length = tmax →
      (∀ j < tmax, P (leaves.getD j 0) ↔ j = 2 * p) →
      P (treeRoot c leaves) ∧ ¬ P (pathStart c leaves tnum) ∧
        ∀ n ∈ leafPath tmax tnum, ∀ h,
          storedAt tmax (treeHashes c leaves).dropLast (leaves.getD (tmax - 1) 0) n = some h →
            ¬ P h := by
  obtain ⟨q, rfl⟩ : ∃ q, tmax = 2 * q + 2 := ⟨tmax / 2 - 1, by omega⟩
  have hq : (2 * q + 2 - 1) / 2 = q := by omega
  have hbig : ∃ n ∈ pathFrom q (tnum / 2) 0 32, 32 * 32 ≤ n := by
    by_contra hsmall
    refine hpath (.inr fun n hn => ?_)
    rw [leafPath, hq] at hn
    by_contra hge
    exact hsmall ⟨n, hn, not_lt.mp hge⟩
  obtain ⟨p, hpq, hne, hlost⟩ := exists_lost_mark (d := 31) (addhash_comm c) hP (by omega)
    (by decide) hbig
  refine ⟨p, by omega, by omega, fun leaves hlength hmark => ?_⟩
  have hpairs : ∀ r ≤ q, P (leafPairs c leaves r) ↔ r = p := by
    intro r hr
    rw [leafPairs, hlength, halve_of_le _ (by omega), pairs, hP, hmark _ (by omega),
      hmark _ (by omega)]
    omega
  have hm : (leaves.length - 1) / 2 = q := by omega
  refine ⟨?_, ?_, fun n hn h hh => ?_⟩
  · rw [treeRoot_eq c (by omega) (by omega), hm, node_mark hP _ (Nat.zero_le _)]
    exact ⟨p, hpq, Nat.div_eq_of_lt (by omega), (hpairs p hpq).mpr rfl⟩
  · rw [pathStart_eq c (by omega), hpairs _ (by omega)]
    exact hne.symm
  · have hbound := leafPath_lt htnum hn
    rw [hq] at hbound
    rw [← hlength, storedAt_even c hlength (by omega) hbound] at hh
    split at hh
    · rw [← Option.some.inj hh, hmark _ (by omega)]
      omega
    · rw [leafPath, hq] at hn
      exact hlost (leafPairs c leaves) hpairs n hn h hh

theorem length_treeHashes (hpos : 0 < leaves.length)
    (hlt : leaves.length < 2 ^ 31) : (treeHashes c leaves).length + 1 = leaves.length := by
  have hq : (leaves.length - 1) / 2 < 2 ^ 31 := by omega
  have hsize := length_fullLog (addhash c) (leafPairs c leaves) hq
  have hones := logSize_add_ones ((leaves.length - 1) / 2)
  rcases Nat.even_or_odd' (leaves.length - 1) with ⟨q, heq | heq⟩
  · have hhalf : (leaves.length - 1) / 2 = q := by omega
    rw [hhalf] at hsize hones
    rw [treeHashes_odd c (q := q) (by omega) (by omega), List.length_eraseIdx, hsize]
    split <;> omega
  · have hhalf : (leaves.length - 1) / 2 = q := by omega
    rw [hhalf] at hsize hones
    rw [treeHashes_even c (q := q) (by omega), hsize]
    omega

/-- A leaf and its neighbour. -/
def leafHashes (leaves : List Hash) (i : Nat) : List Hash :=
  leaves.getD i 0 ::
    if sibling i < leaves.length then [leaves.getD (sibling i) 0] else []

theorem hashpathrun_leafHashes (leaves hs : List Hash) (i : Nat) :
    HashTree.hashpathrun c 0 (leafHashes leaves i ++ hs) =
      hs.foldl (addhash c) (pathStart c leaves i) := by
  rw [leafHashes, pathStart]
  split <;> rfl

theorem foldl_addhash_unmarked {P : Hash → Prop} (hP : KeepsMark c P) {h : Hash}
    (hh : ¬ P h) {hs : List Hash} (hhs : ∀ a ∈ hs, ¬ P a) : ¬ P (hs.foldl (addhash c) h) := by
  induction hs generalizing h with
  | nil => exact hh
  | cons a hs ih =>
    apply ih
    · rw [hP]
      exact not_or.mpr ⟨hh, hhs a List.mem_cons_self⟩
    · intro b hb
      exact hhs b (List.mem_cons_of_mem _ hb)

theorem exists_of_mapM_eq_some {α β : Type} {f : α → Option β} {as : List α} {bs : List β}
    (h : as.mapM f = some bs) {b : β} (hb : b ∈ bs) : ∃ a ∈ as, f a = some b := by
  induction as generalizing bs with
  | nil =>
    cases h
    cases hb
  | cons a as ih =>
    rw [List.mapM_cons] at h
    cases hfa : f a with
    | none =>
      rw [hfa] at h
      cases h
    | some b' =>
      cases hrest : as.mapM f with
      | none =>
        rw [hfa, hrest] at h
        cases h
      | some bs' =>
        rw [hfa, hrest] at h
        cases h
        rcases List.mem_cons.mp hb with rfl | hb
        · exact ⟨a, List.mem_cons_self, hfa⟩
        · obtain ⟨a', ha', hfa'⟩ := ih hrest hb
          exact ⟨a', List.mem_cons_of_mem _ ha', hfa'⟩

end Path

/-! ## Reading the hashes of a path -/

/-- Where a reader looks for a hash of the path. -/
def placePosition (start leaf m : UInt32) (inside : UInt32 → Bool) (n : UInt32) :
    Except Stop UInt32 :=
  if n < m then do
    require (inside n) .abort
    return start + 32 * n
  else if n = m then return leaf
  else do
    require (inside (n - 1)) .abort
    return start + 32 * (n - 1)

/-- The loop over the places of a path. The hashes are stored from `start` on and the last leaf
at `leaf`, and an assertion looks whether a hash is inside the file. -/
def readStored (memory : Bytes) (start leaf m : UInt32) (inside : UInt32 → Bool) :
    List UInt32 → BlockFileReader → Except Stop (List Hash)
  | [], _ => .ok []
  | n :: ns, r => do
    let position ← placePosition start leaf m inside n
    let (b, r) ← r.fetch memory position 32
    let hashes ← readStored memory start leaf m inside ns r
    return readHash b :: hashes

theorem readHash_congr {d e : Bytes} (h : ∀ k < 32, d k = e k) : readHash d = readHash e := by
  rw [readHash, readHash, Bytes.take_congr h]

/-- The place that is missing in the list of the hashes. -/
def missingHash (tmax : UInt32) : UInt32 :=
  if tmax % 2 ≠ 0 then ((tmax >>> 1) <<< 1) - HashTree.bits (tmax >>> 1) else 32 * 32

theorem ofNat_eq_pred {i : Nat} (hi : i < n) (hn : n < 2 ^ 32) :
    UInt32.ofNat i = .ofNat n - 1 ↔ i + 1 = n := by
  have hpred : UInt32.ofNat n - 1 = .ofNat (n - 1) := by
    rw [UInt32.ofNat_sub (by omega)]
    rfl
  rw [hpred, ← UInt32.toNat_inj, UInt32.toNat_ofNat', UInt32.toNat_ofNat',
    Nat.mod_eq_of_lt (by omega), Nat.mod_eq_of_lt (by omega)]
  omega

theorem ofNat_mod_two_ne {i : Nat} (hi : i < 2 ^ 32) : UInt32.ofNat i % 2 ≠ 0 ↔ i % 2 = 1 := by
  rw [← UInt32.toNat_inj.ne, UInt32.toNat_mod, UInt32.toNat_ofNat', Nat.mod_eq_of_lt hi]
  show i % 2 ≠ 0 ↔ i % 2 = 1
  omega

theorem toNat_missingHash (hn : n < 2 ^ 32) : (missingHash (.ofNat n)).toNat = missingPlace n := by
  have hnat : (UInt32.ofNat n).toNat = n := UInt32.toNat_ofNat_of_lt' hn
  have hhalf : (UInt32.ofNat n >>> 1).toNat = n / 2 := by
    rw [UInt32.toNat_shiftRight, hnat]
    exact Nat.shiftRight_eq_div_pow n 1
  have hdouble : (UInt32.ofNat n >>> 1 <<< 1).toNat = 2 * (n / 2) := by
    rw [UInt32.toNat_shiftLeft, hhalf]
    show (n / 2) <<< 1 % 2 ^ 32 = _
    rw [Nat.shiftLeft_eq]
    omega
  by_cases hodd : n % 2 = 1
  · have hones := ones_le (n / 2)
    rw [missingHash, if_pos ((ofNat_mod_two_ne hn).mpr hodd), missingPlace, if_pos hodd,
      UInt32.toNat_sub_of_le, hdouble, HashTree.toNat_bits, hhalf]
    · rfl
    · rw [UInt32.le_iff_toNat_le, hdouble, HashTree.toNat_bits, hhalf]
      omega
  · rw [missingHash, if_neg (mt (ofNat_mod_two_ne hn).mp hodd), missingPlace, if_neg hodd]
    rfl

/-- A file that stores hashes from `start` on, and a leaf. -/
structure StoresTree (file : List UInt8) (rest : Bytes) (stored : List Hash) (last : Hash)
    (start leaf : Nat) : Prop where
  small : file.length < 2 ^ 31
  hashes : ∀ n h, stored[n]? = some h →
    start + 32 * n + 32 ≤ file.length ∧
      readHash ((Bytes.ofList file rest).skip (start + 32 * n)) = h
  leaf : leaf + 32 ≤ file.length ∧ readHash ((Bytes.ofList file rest).skip leaf) = last

section Filled

variable {file : List UInt8} {rest : Bytes}

/-- A buffer that was filled at a position of the file. -/
def FilledAt (file : List UInt8) (rest : Bytes) (p size : Nat) (b : Bytes) : Prop :=
  ∀ k < size, p + k < file.length → b k = Bytes.ofList file rest (p + k)

theorem FilledAt.uint32 {size off : Nat} (h : FilledAt file rest p size b) (hoff : off + 4 ≤ size)
    (hfile : p + off + 4 ≤ file.length) :
    (b.skip off).uint32 = ((Bytes.ofList file rest).skip (p + off)).uint32 := by
  apply Bytes.uint32_congr
  apply Bytes.take_congr
  intro k hk
  rw [Bytes.skip_apply, Bytes.skip_apply, Nat.add_assoc]
  exact h _ (by omega) (by omega)

theorem FilledAt.readHash {size off : Nat} (h : FilledAt file rest p size b)
    (hoff : off + 32 ≤ size) (hfile : p + off + 32 ≤ file.length) :
    readHash (b.skip off) = Esc.readHash ((Bytes.ofList file rest).skip (p + off)) := by
  apply readHash_congr
  intro k hk
  rw [Bytes.skip_apply, Bytes.skip_apply, Nat.add_assoc]
  exact h _ (by omega) (by omega)

theorem FilledAt.take (h : FilledAt file rest p n b) (hfile : p + n ≤ file.length) :
    b.take n = slice file p n := by
  apply List.ext_getElem
  · rw [Bytes.length_take, BlockFileReader.length_slice hfile]
  · intro k hk hk'
    rw [Bytes.length_take] at hk
    simp only [Bytes.take, List.getElem_map, List.getElem_range, slice, List.getElem_take,
      List.getElem_drop]
    rw [h k hk (by omega), Bytes.ofList, List.getD_eq_getElem?_getD,
      List.getElem?_eq_getElem (by omega), Option.getD_some]

theorem length_flatten_of_forall {parts : List (List UInt8)} (h : ∀ e ∈ parts, e.length = n) :
    parts.flatten.length = n * parts.length := by
  rw [List.length_flatten, List.map_congr_left h, List.map_const', List.sum_replicate,
    smul_eq_mul, Nat.mul_comm]

end Filled

section ReadStored

variable {file : List UInt8} {rest : Bytes} {stored : List Hash} {last : Hash} {start leaf : Nat}
  {m : UInt32} {inside : UInt32 → Bool}

theorem exists_fetch_hash (memory rest : Bytes) (q : Nat) (hfile : file.length < 2 ^ 31)
    (hp : p + 32 ≤ file.length) :
    ∃ b q', (BlockFileReader.atPos file q).fetch memory (.ofNat p) 32 =
        .ok (b, .atPos file q') ∧
      readHash b = readHash ((Bytes.ofList file rest).skip p) := by
  obtain ⟨b, q', hfetch, hbytes⟩ :=
    BlockFileReader.exists_fetch memory rest q hfile (by omega : p ≤ file.length)
      (by decide : 32 < 2 ^ 31)
  exact ⟨b, q', hfetch, readHash_congr fun k hk => hbytes k hk (by omega)⟩

theorem ofNat_add_mul (start n : Nat) :
    UInt32.ofNat start + 32 * UInt32.ofNat n = .ofNat (start + 32 * n) := by
  rw [UInt32.ofNat_add, UInt32.ofNat_mul]
  rfl

/-- A checked place of the stored hashes. -/
theorem requirePlace_eq (h : StoresTree file rest stored last start leaf) (n : Nat)
    {inside : Bool} (hinside : inside = decide (n < stored.length)) :
    (∃ hash p, stored[n]? = some hash ∧ p + 32 ≤ file.length ∧
      readHash ((Bytes.ofList file rest).skip p) = hash ∧
      (do require inside .abort
          return UInt32.ofNat start + 32 * UInt32.ofNat n : Except Stop UInt32) =
        .ok (.ofNat p)) ∨
    stored[n]? = none ∧
      (do require inside .abort
          return UInt32.ofNat start + 32 * UInt32.ofNat n : Except Stop UInt32) =
        .error .abort := by
  by_cases hn : n < stored.length
  · obtain ⟨hfits, hhash⟩ := h.hashes n _ (List.getElem?_eq_getElem hn)
    refine .inl ⟨_, _, List.getElem?_eq_getElem hn, hfits, hhash, ?_⟩
    rw [hinside, decide_eq_true hn, ofNat_add_mul]
    rfl
  · refine .inr ⟨List.getElem?_eq_none (by omega), ?_⟩
    rw [hinside, decide_eq_false hn]
    rfl

theorem placePosition_eq (h : StoresTree file rest stored last start leaf)
    (hm : m.toNat = missingPlace tmax) {bound : Nat} (hbound : bound < 2 ^ 27)
    (hinside : ∀ n < bound, inside (.ofNat n) = decide (n < stored.length)) (hn : n < bound) :
    (∃ hash p, storedAt tmax stored last n = some hash ∧ p + 32 ≤ file.length ∧
      readHash ((Bytes.ofList file rest).skip p) = hash ∧
      placePosition (.ofNat start) (.ofNat leaf) m inside (.ofNat n) = .ok (.ofNat p)) ∨
    storedAt tmax stored last n = none ∧
      placePosition (.ofNat start) (.ofNat leaf) m inside (.ofNat n) = .error .abort := by
  have hnat : (UInt32.ofNat n).toNat = n := by
    rw [UInt32.toNat_ofNat']
    omega
  have hltm : UInt32.ofNat n < m ↔ n < missingPlace tmax := by
    rw [UInt32.lt_iff_toNat_lt, hnat, hm]
  have heqm : UInt32.ofNat n = m ↔ n = missingPlace tmax := by
    rw [← UInt32.toNat_inj, hnat, hm]
  rw [placePosition, storedAt]
  obtain hlt | heq | hgt := lt_trichotomy n (missingPlace tmax)
  · rw [if_pos hlt, if_pos (hltm.mpr hlt)]
    exact requirePlace_eq h n (hinside n hn)
  · rw [if_neg (by omega), if_pos heq, if_neg (by rw [hltm]; omega), if_pos (heqm.mpr heq)]
    exact .inl ⟨last, leaf, rfl, h.leaf.1, h.leaf.2, rfl⟩
  · rw [if_neg (by omega), if_neg (by omega), if_neg (by rw [hltm]; omega),
      if_neg (by rw [heqm]; omega)]
    have hpred : UInt32.ofNat n - 1 = .ofNat (n - 1) := by
      rw [UInt32.ofNat_sub (by omega)]
      rfl
    rw [hpred]
    exact requirePlace_eq h (n - 1) (hinside (n - 1) (by omega))

/-- The loop reads the hash of every place, if each is stored. -/
theorem readStored_eq (h : StoresTree file rest stored last start leaf)
    (hm : m.toNat = missingPlace tmax) {bound : Nat} (hbound : bound < 2 ^ 27)
    (hinside : ∀ n < bound, inside (.ofNat n) = decide (n < stored.length)) (memory : Bytes)
    {ns : List Nat} (hns : ∀ n ∈ ns, n < bound) (q : Nat) :
    readStored memory (.ofNat start) (.ofNat leaf) m inside (ns.map UInt32.ofNat)
        (.atPos file q) =
      (ns.mapM (storedAt tmax stored last)).elim (.error .abort) .ok := by
  induction ns generalizing q with
  | nil => rfl
  | cons n ns ih =>
    have hn := hns n List.mem_cons_self
    have ih := ih (fun n hn => hns n (List.mem_cons_of_mem _ hn))
    rw [List.map_cons, readStored, List.mapM_cons]
    obtain ⟨hash, p, hat, hfits, hhash, hpos⟩ | ⟨hat, hpos⟩ :=
      placePosition_eq h hm hbound hinside hn
    · obtain ⟨b, q', hfetch, hb⟩ := exists_fetch_hash memory rest q h.small hfits
      simp only [hat, hpos, hfetch, bind, Except.bind, ih q', hb, hhash]
      cases ns.mapM (storedAt tmax stored last) <;> rfl
    · rw [hat, hpos]
      rfl

end ReadStored

namespace Sample

/-- A hash function that keeps a mark: the top bit of a hash tells of a byte other than zero. -/
def markCrypto : Crypto where
  sha256 bytes :=
    if bytes.length = 64 then
      if (BitVec.ofNat 256 (ofLE (bytes.take 32))).msb ∨
          (BitVec.ofNat 256 (ofLE (bytes.drop 32))).msb then BitVec.intMin 256 else 0
    else if ∃ b ∈ bytes, b ≠ 0 then BitVec.intMin 256 else 0
  signOpen _ _ _ := true
  strayLength _ := none

theorem msb_ite (q : Prop) [Decidable q] :
    (if q then BitVec.intMin 256 else (0 : Hash)).msb = true ↔ q := by
  by_cases h : q
  · rw [if_pos h]
    exact iff_of_true (by decide) h
  · rw [if_neg h]
    exact iff_of_false (by decide) h

theorem msb_sha256 {bytes : List UInt8} (h : bytes.length ≠ 64) :
    (markCrypto.sha256 bytes).msb = true ↔ ∃ b ∈ bytes, b ≠ 0 := by
  simp only [markCrypto, if_neg h]
  exact msb_ite _

theorem msb_sha256_join (a b : Hash) :
    (markCrypto.sha256 (hashBytes a ++ hashBytes b)).msb = true ↔
      a.msb = true ∨ b.msb = true := by
  have hlength : (hashBytes a ++ hashBytes b).length = 64 := by simp
  have hvalue (h : Hash) : BitVec.ofNat 256 (ofLE (hashBytes h)) = h := by
    rw [hashBytes, ofLE_bytesLE, ofNat_toNat_mod256]
  simp only [markCrypto, if_pos hlength, List.take_left' (length_hashBytes a),
    List.drop_left' (length_hashBytes a), hvalue]
  exact msb_ite _

theorem keepsMark_msb : KeepsMark markCrypto fun h => h.msb = true := by
  intro a b
  rw [addhash]
  split
  · exact (msb_sha256_join b a).trans or_comm
  · exact msb_sha256_join a b

end Sample

end Esc
