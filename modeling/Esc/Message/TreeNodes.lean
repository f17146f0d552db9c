import Esc.Message.StoredTree

/-!
# Paths in a hash tree

The hashes that `update` and `finish` make of a row of leaves are stored in the order in which they
are made. A last leaf without a partner takes the place that its pair would have. In the list that
this gives, `hashpath` finds the nodes beside the way from a leaf to the root.
-/

namespace Esc

open Lib Merkle

/-- The number of ones among the first bits of a number. -/
theorem ones_eq_countP {k n : Nat} (h : n < 2 ^ k) : ones n = (List.range k).countP n.testBit := by
  induction k generalizing n with
  | zero =>
    obtain rfl : n = 0 := by omega
    simp
  | succ k ih =>
    rw [ones_eq, ih (by omega), List.range_succ_eq_map, List.countP_cons, List.countP_map,
      Nat.add_comm]
    congr 1
    · apply List.countP_congr
      intro i _
      rw [Function.comp_apply, Nat.testBit_succ]
    · rw [Nat.testBit_zero]
      rcases Nat.mod_two_eq_zero_or_one n with hn | hn <;> simp [hn]

section Nodes

variable (c : Crypto) {leaves : List Hash}

/-- The hashes of a tree, with the last leaf if it has no partner. -/
def treeNodes (leaves : List Hash) : List Hash :=
  let t := leaves.length / 2
  if leaves.length % 2 = 1 then
    (treeHashes c leaves).insertIdx (2 * t - (HashTree.bits (.ofNat t)).toNat)
      (leaves.getD (leaves.length - 1) 0)
  else treeHashes c leaves

theorem treeNodes_eq (hpos : 0 < leaves.length) (hlt : leaves.length < 2 ^ 31) :
    treeNodes c leaves =
      fullLog (addhash c) (leafPairs c leaves) 31 ((leaves.length - 1) / 2) := by
  rw [treeNodes]
  rcases Nat.even_or_odd' (leaves.length - 1) with ⟨q, hq | hq⟩
  · have hlength : leaves.length = 2 * q + 1 := by omega
    have hbits : (HashTree.bits (.ofNat q)).toNat = ones q := by
      rw [HashTree.toNat_bits, UInt32.toNat_ofNat_of_lt']
      show q < 2 ^ 32
      omega
    have hlog : (log (addhash c) (leafPairs c leaves) 31 q).length = logSize q :=
      length_log _ (by omega)
    have hlast : leafPairs c leaves q = leaves.getD (2 * q) 0 := by
      rw [leafPairs, hlength]
      exact if_neg (by omega)
    have hsize := length_fullLog (addhash c) (leafPairs c leaves) (show q < 2 ^ 31 by omega)
    have hplace : logSize q < (fullLog (addhash c) (leafPairs c leaves) 31 q).length := by
      omega
    have hentry : (fullLog (addhash c) (leafPairs c leaves) 31 q)[logSize q] =
        leaves.getD (leaves.length - 1) 0 := by
      apply Option.some.inj
      rw [← List.getElem?_eq_getElem hplace, fullLog, List.getElem?_append_right hlog.le, hlog,
        Nat.sub_self, lastChain, List.getElem?_cons_zero, hlast, hq]
    rw [if_pos (by omega), hlength, show (2 * q + 1) / 2 = q by omega, hbits,
      treeHashes_odd c hlength (by omega), show (2 * q + 1 - 1) / 2 = q by omega]
    rw [hlength] at hentry
    rw [← hentry]
    exact List.insertIdx_eraseIdx_getElem hplace
  · have hlength : leaves.length = 2 * q + 2 := by omega
    rw [if_neg (by omega), treeHashes_even c hlength, hq, show (2 * q + 1) / 2 = q by omega]

/-- The path of a leaf stays in the list, and the nodes that it names join the leaf and its partner
to the root. The places come from a count of bits, which is right for every number. -/
theorem hashpath_treeNodes (leaves : List Hash) (k : Nat) (v : UInt32) (hk : k < leaves.length)
    (htwo : 2 ≤ leaves.length) (hlt : leaves.length < 2 ^ 31) :
    (∀ p ∈ HashTree.hashpath (.ofNat k / 2) ((.ofNat leaves.length + 1) / 2),
        p.toNat < (treeNodes c leaves).length) ∧
      HashTree.hashpathrun c 0 (leafHashes leaves k ++
          (HashTree.hashpath (.ofNat k / 2) ((.ofNat leaves.length + 1) / 2)).map fun p =>
            (treeNodes c leaves).getD p.toNat 0) = treeRoot c leaves ∧
      (HashTree.bits v).toNat = (List.range 32).countP v.toNat.testBit := by
  have hm : (leaves.length - 1) / 2 < 2 ^ 31 := by omega
  have hsize := length_fullLog (addhash c) (leafPairs c leaves) hm
  have hones := logSize_add_ones ((leaves.length - 1) / 2)
  have hword {n : Nat} (hn : n ∈ leafPath leaves.length k) : (UInt32.ofNat n).toNat = n := by
    have hbound := leafPath_lt hk hn
    apply UInt32.toNat_ofNat_of_lt'
    show n < 2 ^ 32
    omega
  rw [hashpath_leafPath hk hlt, treeNodes_eq c (by omega) hlt, hashpathrun_leafHashes]
  refine ⟨?_, ?_, ?_⟩
  · intro p hp
    obtain ⟨n, hn, rfl⟩ := List.mem_map.mp hp
    have hbound := leafPath_lt hk hn
    rw [hword hn, hsize]
    omega
  · rw [List.map_map]
    apply foldl_leafPath c hk hlt
    intro n hn
    have hbound := leafPath_lt hk hn
    rw [Function.comp_apply, hword hn, List.getD_eq_getElem?_getD, List.getElem?_eq_getElem
      (show n < _ by rw [hsize]; omega), Option.getD_some]
  · rw [HashTree.toNat_bits, ones_eq_countP v.toNat_lt]

end Nodes

/-- The last of three leaves has no partner, and its path is the pair of the others. -/
theorem hashpath_treeNodes_three :
    HashTree.hashpathrun Sample.markCrypto 0 (leafHashes [1, 2, 3] 2 ++
        (HashTree.hashpath (.ofNat 2 / 2) ((.ofNat 3 + 1) / 2)).map fun p =>
          (treeNodes Sample.markCrypto [1, 2, 3]).getD p.toNat 0) =
      treeRoot Sample.markCrypto [1, 2, 3] ∧
      (HashTree.bits 7).toNat = (List.range 32).countP (7 : UInt32).toNat.testBit :=
  (hashpath_treeNodes Sample.markCrypto [1, 2, 3] 2 7 (by decide) (by decide) (by decide)).2

end Esc
