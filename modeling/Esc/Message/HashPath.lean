import Esc.Lib.Merkle
import Esc.Message.HashTree

/-!
# Paths in a stored hash tree

`hashpath` computes which of the stored hashes lead from a pair of leaves to the root. It
counts bits to find the place of the pair, steps from a node to its parent by the size of a
full node, and follows the partial nodes at the end of the row by a second number.

The places are those of the siblings in the log of the tree.
-/

namespace Esc

open Lib Merkle

/-- `hashtree::bits` on a 64-bit machine. -/
def HashTree.bits (v : UInt32) : UInt32 :=
  if v < 0x4000 then
    ((v.toUInt64 * 0x200040008001 &&& 0x111111111111111) % 0xf).toUInt32
  else
    let low := (((v &&& 0xfff).toUInt64 * 0x1001001001001 &&& 0x84210842108421) % 0x1f).toUInt32
    let middle :=
      ((((v &&& 0xfff000) >>> 12).toUInt64 * 0x1001001001001 &&& 0x84210842108421) % 0x1f).toUInt32
    if v < 0x1000000 then low + middle
    else
      low + middle + (((v >>> 24).toUInt64 * 0x1001001001001 &&& 0x84210842108421) % 0x1f).toUInt32

/-- The loop of `hashtree::hashpath`. The size of a full node doubles, so that the loop ends
within 32 steps. -/
def HashTree.hashpathLoop (posend : UInt32) :
    Nat → UInt32 → UInt32 → UInt32 → UInt32 → UInt32 → List UInt32
  | 0, _, _, _, _, _ => []
  | fuel + 1, hashnum, hashmax, posnum, posfin, diff =>
    if diff < posend then
      let posadd := if hashnum &&& 1 ≠ 0 then posnum - diff else posnum + diff
      let posnum := if hashnum &&& 1 ≠ 0 then posnum + 1 else posadd + 1
      let add := if posadd < posend then [posadd] else if 0 < posfin then [posfin] else []
      let posfin := if posadd < posend then posfin else 0
      let hashmax := if posadd < posend then hashmax else 0
      let posfin :=
        if hashmax &&& 1 ≠ 0 then if posfin = 0 then posend - 1 else posfin + 1 else posfin
      add ++ HashTree.hashpathLoop posend fuel (hashnum >>> 1) (hashmax >>> 1) posnum posfin
        ((diff <<< 1) + 1)
    else []

/-- `hashtree::hashpath`. -/
def HashTree.hashpath (hashnum hashmax : UInt32) : List UInt32 :=
  HashTree.hashpathLoop ((hashmax <<< 1) - HashTree.bits hashmax) 32 hashnum hashmax
    ((hashnum <<< 1) - HashTree.bits hashnum) 0 1

/-- `hashtree::hashpathrun`; an empty list leaves the hash as it was. -/
def HashTree.hashpathrun (c : Crypto) (hash : Hash) : List Hash → Hash
  | [] => hash
  | h :: hashes => hashes.foldl (addhash c) h

/-! ## Counting bits -/

/-- The ones of a number of `k` bits, one bit after the other. -/
def countOnes : Nat → Nat → Nat
  | 0, _ => 0
  | k + 1, n => n % 2 + countOnes k (n / 2)

theorem countOnes_eq {k n : Nat} (h : n < 2 ^ k) : countOnes k n = ones n := by
  induction k generalizing n with
  | zero =>
    obtain rfl : n = 0 := by omega
    simp [countOnes]
  | succ k ih => rw [countOnes, ih (by omega), ← ones_eq]

/-- Copies of a number of 14 bits, of which every fourth bit is added up. -/
def sum14 (n : Nat) : Nat := (n * 0x200040008001 % 2 ^ 64 &&& 0x111111111111111) % 0xf

/-- The same for 12 bits, of which every fifth is added up. -/
def sum12 (n : Nat) : Nat := (n * 0x1001001001001 % 2 ^ 64 &&& 0x84210842108421) % 0x1f

theorem sum14_join : ∀ b a : Fin (2 ^ 7),
    sum14 (b.val * 2 ^ 7 + a.val) = sum14 b.val + sum14 a.val := by
  decide +kernel

theorem sum14_small : ∀ a : Fin (2 ^ 7), sum14 a.val = countOnes 7 a.val := by
  decide +kernel

theorem sum12_join : ∀ b a : Fin (2 ^ 6),
    sum12 (b.val * 2 ^ 6 + a.val) = sum12 b.val + sum12 a.val := by
  decide +kernel

theorem sum12_small : ∀ a : Fin (2 ^ 6), sum12 a.val = countOnes 6 a.val := by
  decide +kernel

/-- A sum that counts the ones of numbers of `k` bits counts those of `2 * k` bits if it adds
up over the halves. -/
theorem sum_eq_ones {f : Nat → Nat} {k : Nat}
    (hjoin : ∀ b a : Fin (2 ^ k), f (b.val * 2 ^ k + a.val) = f b.val + f a.val)
    (hsmall : ∀ a : Fin (2 ^ k), f a.val = countOnes k a.val) {n : Nat} (hn : n < 2 ^ (k + k)) :
    f n = ones n := by
  have hpos : 0 < 2 ^ k := Nat.two_pow_pos k
  have hhigh : n / 2 ^ k < 2 ^ k := Nat.div_lt_of_lt_mul (by rwa [← pow_add])
  have hlow : n % 2 ^ k < 2 ^ k := Nat.mod_lt n hpos
  have hn := hjoin ⟨n / 2 ^ k, hhigh⟩ ⟨n % 2 ^ k, hlow⟩
  have hb := hsmall ⟨n / 2 ^ k, hhigh⟩
  have ha := hsmall ⟨n % 2 ^ k, hlow⟩
  simp only [Nat.div_add_mod'] at hn
  rw [hn, hb, ha, countOnes_eq hhigh, countOnes_eq hlow, ← ones_split]

theorem toNat_sum14 (v : UInt32) :
    ((v.toUInt64 * 0x200040008001 &&& 0x111111111111111) % 0xf).toUInt32.toNat =
      sum14 v.toNat := by
  have hlt : sum14 v.toNat < 2 ^ 32 := (Nat.mod_lt _ (by decide)).trans (by decide)
  simp only [UInt64.toNat_toUInt32, UInt64.toNat_mod, UInt64.toNat_and, UInt64.toNat_mul,
    UInt32.toNat_toUInt64]
  exact Nat.mod_eq_of_lt hlt

theorem toNat_sum12 (v : UInt32) :
    ((v.toUInt64 * 0x1001001001001 &&& 0x84210842108421) % 0x1f).toUInt32.toNat =
      sum12 v.toNat := by
  have hlt : sum12 v.toNat < 2 ^ 32 := (Nat.mod_lt _ (by decide)).trans (by decide)
  simp only [UInt64.toNat_toUInt32, UInt64.toNat_mod, UInt64.toNat_and, UInt64.toNat_mul,
    UInt32.toNat_toUInt64]
  exact Nat.mod_eq_of_lt hlt

/-- `bits` counts the ones. -/
theorem HashTree.toNat_bits (v : UInt32) : (HashTree.bits v).toNat = ones v.toNat := by
  have hlow : (v &&& 0xfff).toNat = v.toNat % 2 ^ 12 := by
    rw [UInt32.toNat_and]
    exact Nat.and_two_pow_sub_one_eq_mod _ 12
  have hmiddle : ((v &&& 0xfff000) >>> 12).toNat = v.toNat / 2 ^ 12 % 2 ^ 12 := by
    rw [UInt32.toNat_shiftRight, UInt32.toNat_and]
    show (v.toNat &&& 0xfff000) >>> 12 = _
    rw [Nat.shiftRight_and_distrib, Nat.shiftRight_eq_div_pow]
    exact Nat.and_two_pow_sub_one_eq_mod _ 12
  have hhigh : (v >>> 24).toNat = v.toNat / 2 ^ 24 := by
    rw [UInt32.toNat_shiftRight]
    exact Nat.shiftRight_eq_div_pow _ _
  have hv := v.toNat_lt
  have hsplit := ones_split v.toNat 12
  have hsplit' := ones_split (v.toNat / 2 ^ 12) 12
  have hdiv : v.toNat / 2 ^ 12 / 2 ^ 12 = v.toNat / 2 ^ 24 := Nat.div_div_eq_div_mul _ _ _
  rw [hdiv] at hsplit'
  have h12 {n : Nat} (hn : n < 2 ^ 12) : sum12 n = ones n := sum_eq_ones sum12_join sum12_small hn
  have hle {n : Nat} (hn : n < 2 ^ 12) : ones n ≤ 12 := by
    rw [← Nat.mod_eq_of_lt hn]
    exact ones_mod_le n 12
  unfold HashTree.bits
  split
  · rename_i hsmall
    rw [toNat_sum14]
    exact sum_eq_ones sum14_join sum14_small (UInt32.lt_iff_toNat_lt.mp hsmall)
  · dsimp only
    split
    · rename_i hmid
      have hmid : v.toNat < 2 ^ 24 := UInt32.lt_iff_toNat_lt.mp hmid
      rw [UInt32.toNat_add, toNat_sum12, toNat_sum12, hlow, hmiddle, h12 (Nat.mod_lt _ (by decide)),
        h12 (Nat.mod_lt _ (by decide))]
      have := hle (n := v.toNat % 2 ^ 12) (Nat.mod_lt _ (by decide))
      have := hle (n := v.toNat / 2 ^ 12 % 2 ^ 12) (Nat.mod_lt _ (by decide))
      rw [Nat.div_eq_of_lt hmid, ones_zero] at hsplit'
      omega
    · have hlt : v.toNat / 2 ^ 24 < 2 ^ 12 := by omega
      rw [UInt32.toNat_add, UInt32.toNat_add, toNat_sum12, toNat_sum12, toNat_sum12, hlow, hmiddle,
        hhigh, h12 (Nat.mod_lt _ (by decide)), h12 (Nat.mod_lt _ (by decide)), h12 hlt]
      have := hle (n := v.toNat % 2 ^ 12) (Nat.mod_lt _ (by decide))
      have := hle (n := v.toNat / 2 ^ 12 % 2 ^ 12) (Nat.mod_lt _ (by decide))
      have := hle hlt
      omega

/-! ## Places -/

/-- The place of a node if it is full. -/
def fullPlace (k j : Nat) : Nat := 2 * ((j + 1) * 2 ^ k) - 2 - ones j

theorem fullPlace_spec (k j : Nat) : fullPlace k j + ones j + 2 = 2 * ((j + 1) * 2 ^ k) := by
  have hones := ones_le j
  have hmul : (j + 1) * 1 ≤ (j + 1) * 2 ^ k := Nat.mul_le_mul_left _ (Nat.two_pow_pos k)
  unfold fullPlace
  omega

theorem logSize_add_ones (n : Nat) : logSize n + ones n = 2 * n := by
  have := ones_le n
  unfold logSize
  omega

/-- The last item of a full node. -/
theorem fullItem_eq (k j : Nat) : (j + 1) * 2 ^ k - 1 = j * 2 ^ k + (2 ^ k - 1) := by
  have hpos : 0 < 2 ^ k := Nat.two_pow_pos k
  have hmul : (j + 1) * 2 ^ k = j * 2 ^ k + 2 ^ k := Nat.succ_mul j _
  omega

theorem logSize_fullItem (k j : Nat) : logSize ((j + 1) * 2 ^ k - 1) + k = fullPlace k j := by
  have hpos : 0 < 2 ^ k := Nat.two_pow_pos k
  have hspec := fullPlace_spec k j
  have hsize := logSize_add_ones ((j + 1) * 2 ^ k - 1)
  have hones : ones ((j + 1) * 2 ^ k - 1) = ones j + k := by
    rw [fullItem_eq, ones_mul_two_pow_add _ (by omega), ones_two_pow_sub_one]
  have hmul : 0 < (j + 1) * 2 ^ k := Nat.mul_pos j.succ_pos hpos
  omega

theorem place_eq_fullPlace {m k j : Nat} (h : (j + 1) * 2 ^ k ≤ m + 1) :
    place m k j = fullPlace k j := by
  have hpos : 0 < 2 ^ k := Nat.two_pow_pos k
  have hlast : lastItem m k j = (j + 1) * 2 ^ k - 1 := Nat.min_eq_left (by omega)
  have hmod : ((j + 1) * 2 ^ k - 1) % 2 ^ k = 2 ^ k - 1 := by
    rw [fullItem_eq, Nat.mul_comm, Nat.mul_add_mod, Nat.mod_eq_of_lt (by omega)]
  rw [place, hlast, hmod, ones_two_pow_sub_one, logSize_fullItem]

/-- The place of the last node of a level, if it is not full. -/
theorem place_last {m k : Nat} (h : (m + 1) % 2 ^ k ≠ 0) :
    place m k (m / 2 ^ k) + 2 = logSize (m + 1) + ones ((m + 1) % 2 ^ k) := by
  have hpos : 0 < 2 ^ k := Nat.two_pow_pos k
  have hdiv : (m + 1) / 2 ^ k = m / 2 ^ k :=
    Nat.succ_div_of_not_dvd (Nat.dvd_iff_mod_eq_zero.not.mpr h)
  have hlast : lastItem m k (m / 2 ^ k) = m := by
    have := Nat.lt_mul_div_succ m hpos
    rw [Nat.mul_comm] at this
    unfold lastItem
    omega
  have hsplit := ones_split m k
  have hsplit' := ones_split (m + 1) k
  have hsize := logSize_succ m
  rw [hdiv] at hsplit'
  rw [place, hlast]
  omega

/-- The log ends between the full nodes and the others. -/
theorem fullPlace_lt_iff {m k j : Nat} :
    fullPlace k j < logSize (m + 1) ↔ (j + 1) * 2 ^ k ≤ m + 1 := by
  have hspec := fullPlace_spec k j
  have hnext := ones_succ_le j
  have hsize : logSize ((j + 1) * 2 ^ k) + ones (j + 1) = 2 * ((j + 1) * 2 ^ k) := by
    rw [← logSize_add_ones]
    simpa using (ones_mul_two_pow_add (j + 1) (k := k) (r := 0) (Nat.two_pow_pos k)).symm
  constructor
  · intro hlt
    by_contra hgt
    have hmono : logSize (m + 1) ≤ logSize ((j + 1) * 2 ^ k - 1) :=
      logSize_strictMono.monotone (by omega)
    have hfull := logSize_fullItem k j
    omega
  · intro hle
    have hmono : logSize ((j + 1) * 2 ^ k) ≤ logSize (m + 1) := logSize_strictMono.monotone hle
    omega

/-! ## The loop -/

theorem and_one_ne_zero_iff (v : UInt32) : v &&& 1 ≠ 0 ↔ v.toNat % 2 = 1 := by
  have hand : (v &&& 1).toNat = v.toNat % 2 := by
    rw [UInt32.toNat_and]
    exact Nat.and_one_is_mod _
  rw [ne_eq, ← UInt32.toNat_inj, hand]
  show ¬ v.toNat % 2 = 0 ↔ _
  omega

theorem toNat_shiftRight_one (v : UInt32) : (v >>> 1).toNat = v.toNat / 2 := by
  rw [UInt32.toNat_shiftRight]
  exact Nat.shiftRight_eq_div_pow _ 1

theorem toNat_shiftLeft_one {v : UInt32} (h : v.toNat < 2 ^ 31) :
    (v <<< 1).toNat = 2 * v.toNat := by
  rw [UInt32.toNat_shiftLeft]
  show v.toNat <<< 1 % 2 ^ 32 = _
  rw [Nat.shiftLeft_eq]
  omega

/-- The number that is stepped for the partial nodes at the end of the row. -/
def finPlace (m k : Nat) : Nat :=
  if (m + 1) % 2 ^ k = 0 then 0 else logSize (m + 1) + ones ((m + 1) % 2 ^ k) - 2

/-- The variables of the loop on level `k`, for the item `i` of a row that ends with `m`. The
last two are dropped when the node above the item is not full. -/
structure PathState (m i k : Nat) (hashnum hashmax posnum posfin diff : UInt32) : Prop where
  hashnum : hashnum.toNat = i / 2 ^ k
  posnum : posnum.toNat = fullPlace k (i / 2 ^ k)
  diff : diff.toNat + 1 = 2 * 2 ^ k
  full : (i / 2 ^ k + 1) * 2 ^ k ≤ m + 1 →
    hashmax.toNat = (m + 1) / 2 ^ k ∧ posfin.toNat = finPlace m k
  cut : m + 1 < (i / 2 ^ k + 1) * 2 ^ k → hashmax = 0 ∧ posfin = 0

theorem two_lt_logSize {m : Nat} (hm : 0 < m) : 2 < logSize (m + 1) := by
  have hmono : logSize 2 ≤ logSize (m + 1) := logSize_strictMono.monotone (by omega)
  have htwo : logSize 2 = 3 := rfl
  omega

theorem finPlace_eq_zero {m : Nat} (hm : 0 < m) (k : Nat) :
    finPlace m k = 0 ↔ (m + 1) % 2 ^ k = 0 := by
  have := two_lt_logSize hm
  unfold finPlace
  split
  · rename_i hmod
    exact iff_of_true rfl hmod
  · rename_i hmod
    exact iff_of_false (by omega) hmod

theorem finPlace_le (m k : Nat) : finPlace m k ≤ 3 * (m + 1) := by
  have hle : logSize (m + 1) ≤ 2 * (m + 1) := Nat.sub_le _ _
  have hones := ones_le ((m + 1) % 2 ^ k)
  have hmod := Nat.mod_le (m + 1) (2 ^ k)
  unfold finPlace
  split <;> omega

theorem finPlace_succ {m : Nat} (hm : 0 < m) (k : Nat) :
    finPlace m (k + 1) =
      if (m + 1) / 2 ^ k % 2 = 1 then
        if finPlace m k = 0 then logSize (m + 1) - 1 else finPlace m k + 1
      else finPlace m k := by
  have hpos : 0 < 2 ^ k := Nat.two_pow_pos k
  have hlarge := two_lt_logSize hm
  have hmod : (m + 1) % 2 ^ (k + 1) = (m + 1) % 2 ^ k + 2 ^ k * ((m + 1) / 2 ^ k % 2) :=
    Nat.mod_pow_succ
  have hones := ones_mod_succ_high (m + 1) k
  rcases Nat.mod_two_eq_zero_or_one ((m + 1) / 2 ^ k) with hbit | hbit
  · rw [hbit, Nat.mul_zero, Nat.add_zero] at hmod
    rw [if_neg (by omega), finPlace, hmod]
    rfl
  · have hne : (m + 1) % 2 ^ (k + 1) ≠ 0 := by
      rw [hmod, hbit]
      omega
    rw [if_pos hbit, finPlace, if_neg hne, hones, hbit]
    simp only [finPlace_eq_zero hm]
    split
    · rename_i hzero
      rw [hzero, ones_zero]
      omega
    · rename_i hzero
      rw [finPlace, if_neg hzero]
      omega

section Step

variable {m i k : Nat} {hashnum hashmax posnum posfin diff posend : UInt32}

/-- The sibling of a node that is not the last of its level, or comes before it. -/
theorem siblingPlace_of_full (h : (sibling (i / 2 ^ k) + 1) * 2 ^ k ≤ m + 1) :
    siblingPlace m i k = some (fullPlace k (sibling (i / 2 ^ k))) := by
  have hpos : 0 < 2 ^ k := Nat.two_pow_pos k
  have hle : sibling (i / 2 ^ k) ≤ m / 2 ^ k := by
    rw [Nat.le_div_iff_mul_le hpos]
    rw [Nat.succ_mul] at h
    omega
  rw [siblingPlace, if_pos hle, place_eq_fullPlace h]

/-- A full node at the end of its row goes up alone, or with a partial node. -/
theorem siblingPlace_of_last {r : Nat} (hr : i / 2 ^ k = 2 * r) (hm : 0 < m)
    (hfull : (2 * r + 1) * 2 ^ k ≤ m + 1) (hlast : m + 1 < (2 * r + 1 + 1) * 2 ^ k) :
    siblingPlace m i k = if 0 < finPlace m k then some (finPlace m k) else none := by
  have hpos : 0 < 2 ^ k := Nat.two_pow_pos k
  have hmul : (2 * r + 1 + 1) * 2 ^ k = (2 * r + 1) * 2 ^ k + 2 ^ k := Nat.succ_mul _ _
  have hzero := finPlace_eq_zero hm k
  have hdiv : (m + 1) / 2 ^ k = 2 * r + 1 := Nat.div_eq_of_lt_le hfull hlast
  have hsplit := Nat.div_add_mod (m + 1) (2 ^ k)
  rw [hdiv, Nat.mul_comm] at hsplit
  rw [siblingPlace, hr, sibling_even]
  by_cases hmod : (m + 1) % 2 ^ k = 0
  · rw [if_neg, if_neg (by omega)]
    rw [Nat.le_div_iff_mul_le hpos]
    omega
  · have hplace := place_last hmod
    have hthis : m / 2 ^ k = 2 * r + 1 := by
      apply Nat.div_eq_of_lt_le
      · omega
      · omega
    rw [if_pos hthis.ge, if_pos (by omega), ← hthis, finPlace, if_neg hmod]
    congr 1
    omega

theorem logSize_two_pow (k : Nat) : logSize (2 ^ k) + 1 = 2 * 2 ^ k := by
  have hsize := logSize_add_ones (2 ^ k)
  have hone : ones (2 ^ k) = 1 := by
    simpa using ones_mul_two_pow_add 1 (k := k) (r := 0) (Nat.two_pow_pos k)
  omega

/-- From a node to its sibling and to its parent. -/
theorem fullPlace_sibling (k q : Nat) :
    (if q % 2 = 1 then fullPlace k (sibling q) + 2 * 2 ^ k = fullPlace k q + 1
      else fullPlace k (sibling q) + 1 = fullPlace k q + 2 * 2 ^ k) ∧
    fullPlace (k + 1) (q / 2) =
      (if q % 2 = 1 then fullPlace k q else fullPlace k (sibling q)) + 1 := by
  have hspec := fullPlace_spec k q
  have hspec' := fullPlace_spec k (sibling q)
  have hparent := fullPlace_spec (k + 1) (q / 2)
  rcases Nat.even_or_odd' q with ⟨r, rfl | rfl⟩
  · have hmul : (2 * r + 1 + 1) * 2 ^ k = (2 * r + 1) * 2 ^ k + 2 ^ k := Nat.succ_mul _ _
    have hmul' : (r + 1) * 2 ^ (k + 1) = (2 * r + 1 + 1) * 2 ^ k := by ring
    rw [sibling_even, ones_two_mul_add_one] at hspec'
    rw [ones_two_mul] at hspec
    rw [Nat.mul_div_cancel_left r (by decide), hmul'] at hparent
    rw [Nat.mul_div_cancel_left r (by decide), sibling_even, if_neg (by omega), if_neg (by omega)]
    omega
  · have hmul : (2 * r + 1 + 1) * 2 ^ k = (2 * r + 1) * 2 ^ k + 2 ^ k := Nat.succ_mul _ _
    have hmul' : (r + 1) * 2 ^ (k + 1) = (2 * r + 1 + 1) * 2 ^ k := by ring
    rw [sibling_odd, ones_two_mul] at hspec'
    rw [ones_two_mul_add_one] at hspec
    rw [show (2 * r + 1) / 2 = r by omega, hmul'] at hparent
    rw [show (2 * r + 1) / 2 = r by omega, sibling_odd, if_pos (by omega), if_pos (by omega)]
    omega

/-- The node above an item of a short row does not end behind the longest row. -/
theorem succ_div_mul_le {i d n : Nat} (h : i < n) (hd : d ∣ n) : (i / d + 1) * d ≤ n := by
  obtain ⟨e, rfl⟩ := hd
  rw [Nat.mul_comm d e]
  exact Nat.mul_le_mul_right d (Nat.div_lt_of_lt_mul h)

/-- The places that the loop computes on one level. -/
theorem posadd_spec (hm : m < 2 ^ 30) (hi : i ≤ m) (hk : 2 ^ k ≤ m)
    (h : PathState m i k hashnum hashmax posnum posfin diff) :
    let posadd := if hashnum &&& 1 ≠ 0 then posnum - diff else posnum + diff
    posadd.toNat = fullPlace k (sibling (i / 2 ^ k)) ∧
      (if hashnum &&& 1 ≠ 0 then posnum + 1 else posadd + 1).toNat =
        fullPlace (k + 1) (i / 2 ^ (k + 1)) := by
  have hpos : 0 < 2 ^ k := Nat.two_pow_pos k
  have hq : i / 2 ^ k * 2 ^ k ≤ i := Nat.div_mul_le_self _ _
  have hmul : (i / 2 ^ k + 1) * 2 ^ k = i / 2 ^ k * 2 ^ k + 2 ^ k := Nat.succ_mul _ _
  have hspec := fullPlace_spec k (i / 2 ^ k)
  have hnum := h.posnum
  have hdiff := h.diff
  -- The node above is the largest one that the loop comes to.
  have hlevel : k + 1 ≤ 30 := (Nat.pow_lt_pow_iff_right (by decide)).mp (hk.trans_lt hm)
  have htop := succ_div_mul_le (hi.trans_lt hm) (Nat.pow_dvd_pow 2 hlevel)
  have htopSpec := fullPlace_spec (k + 1) (i / 2 ^ (k + 1))
  obtain ⟨hsibling, hparent⟩ := fullPlace_sibling k (i / 2 ^ k)
  rw [pow_succ, ← Nat.div_div_eq_div_mul] at htop htopSpec ⊢
  dsimp only
  by_cases hodd : hashnum &&& 1 ≠ 0
  · have hodd' : i / 2 ^ k % 2 = 1 := by rwa [and_one_ne_zero_iff, h.hashnum] at hodd
    rw [if_pos hodd'] at hsibling hparent
    have hle : diff ≤ posnum := UInt32.le_iff_toNat_le.mpr (by omega)
    rw [if_pos hodd, if_pos hodd, UInt32.toNat_sub_of_le _ _ hle, UInt32.toNat_add]
    simp only [UInt32.reduceToNat]
    omega
  · have hodd' : ¬ i / 2 ^ k % 2 = 1 := by rwa [and_one_ne_zero_iff, h.hashnum] at hodd
    rw [if_neg hodd'] at hsibling hparent
    rw [if_neg hodd, if_neg hodd, UInt32.toNat_add, UInt32.toNat_add, UInt32.toNat_add]
    simp only [UInt32.reduceToNat]
    omega

/-- The second number on the next level, while the node above the item is full. -/
theorem posfin_next (hm : 0 < m) (hsmall : m < 2 ^ 30) (hend : posend.toNat = logSize (m + 1))
    (hmax : hashmax.toNat = (m + 1) / 2 ^ k) (hfin : posfin.toNat = finPlace m k) :
    (if hashmax &&& 1 ≠ 0 then if posfin = 0 then posend - 1 else posfin + 1
      else posfin).toNat = finPlace m (k + 1) := by
  have hlarge := two_lt_logSize hm
  have hle := finPlace_le m k
  have hzero : posfin = 0 ↔ finPlace m k = 0 := by
    rw [← UInt32.toNat_inj, hfin]
    rfl
  rw [finPlace_succ hm, ← hmax]
  by_cases hbit : hashmax &&& 1 ≠ 0
  · rw [if_pos hbit, if_pos ((and_one_ne_zero_iff _).mp hbit)]
    by_cases hfirst : posfin = 0
    · rw [if_pos hfirst, if_pos (hzero.mp hfirst),
        UInt32.toNat_sub_of_le _ _ (UInt32.le_iff_toNat_le.mpr (by rw [hend]; simp; omega)), hend]
      rfl
    · rw [if_neg hfirst, if_neg (hzero.not.mp hfirst), UInt32.toNat_add, hfin]
      simp only [UInt32.reduceToNat]
      omega
  · rw [if_neg hbit, if_neg ((and_one_ne_zero_iff _).not.mp hbit), hfin]

/-- The next node is full with both nodes below it. -/
theorem full_succ_iff (k i n : Nat) :
    (i / 2 ^ (k + 1) + 1) * 2 ^ (k + 1) ≤ n ↔
      (i / 2 ^ k + 1) * 2 ^ k ≤ n ∧ (sibling (i / 2 ^ k) + 1) * 2 ^ k ≤ n := by
  rw [pow_succ, ← Nat.div_div_eq_div_mul, ← Nat.mul_assoc]
  generalize i / 2 ^ k = q
  have hpos : 0 < 2 ^ k := Nat.two_pow_pos k
  have hmul : (2 * (q / 2) + 1 + 1) * 2 ^ k = (2 * (q / 2) + 1) * 2 ^ k + 2 ^ k := Nat.succ_mul _ _
  have hnext : (q / 2 + 1) * 2 ^ k * 2 = (2 * (q / 2) + 1 + 1) * 2 ^ k := by ring
  rw [hnext]
  rcases Nat.even_or_odd' q with ⟨r, rfl | rfl⟩
  · rw [Nat.mul_div_cancel_left r (by decide)] at hmul ⊢
    rw [sibling_even]
    omega
  · rw [show (2 * r + 1) / 2 = r by omega] at hmul ⊢
    rw [sibling_odd]
    omega

/-- At the end of the row the second number is the place of the sibling. -/
theorem siblingPlace_of_not_full (hm : 0 < m) (hi : i ≤ m)
    (hsibling : m + 1 < (sibling (i / 2 ^ k) + 1) * 2 ^ k)
    (h : PathState m i k hashnum hashmax posnum posfin diff) :
    (if 0 < posfin then [posfin] else []) = (siblingPlace m i k).toList.map UInt32.ofNat := by
  have hpos : 0 < 2 ^ k := Nat.two_pow_pos k
  have hq : i / 2 ^ k * 2 ^ k ≤ i := Nat.div_mul_le_self _ _
  obtain ⟨r, hr⟩ : ∃ r, i / 2 ^ k = 2 * r := by
    rcases Nat.even_or_odd' (i / 2 ^ k) with ⟨r, hr | hr⟩
    · exact ⟨r, hr⟩
    · rw [hr] at hq
      rw [hr, sibling_odd] at hsibling
      omega
  rw [hr, sibling_even] at hsibling
  rcases le_or_gt ((i / 2 ^ k + 1) * 2 ^ k) (m + 1) with hfull | hcut
  · obtain ⟨-, hfin⟩ := h.full hfull
    rw [hr] at hfull
    rw [siblingPlace_of_last hr hm hfull hsibling, ← hfin]
    have hlt : 0 < posfin ↔ 0 < posfin.toNat := UInt32.lt_iff_toNat_lt
    by_cases hzero : 0 < posfin
    · rw [if_pos hzero, if_pos (hlt.mp hzero)]
      simp
    · rw [if_neg hzero, if_neg (hlt.not.mp hzero)]
      rfl
  · obtain ⟨-, rfl⟩ := h.cut hcut
    rw [if_neg (by decide), siblingPlace, if_neg]
    · rfl
    · rw [Nat.le_div_iff_mul_le hpos, hr, sibling_even]
      rw [hr] at hcut
      omega

theorem hashpathLoop_step (hm : m < 2 ^ 30) (hi : i ≤ m) (hk : 2 ^ k ≤ m)
    (hend : posend.toNat = logSize (m + 1))
    (h : PathState m i k hashnum hashmax posnum posfin diff) (fuel : Nat) :
    ∃ hashmax' posnum' posfin',
      HashTree.hashpathLoop posend (fuel + 1) hashnum hashmax posnum posfin diff =
        (siblingPlace m i k).toList.map UInt32.ofNat ++
          HashTree.hashpathLoop posend fuel (hashnum >>> 1) hashmax' posnum' posfin'
            ((diff <<< 1) + 1) ∧
      PathState m i (k + 1) (hashnum >>> 1) hashmax' posnum' posfin' ((diff <<< 1) + 1) := by
  have hpos : 0 < 2 ^ k := Nat.two_pow_pos k
  have hdiff := h.diff
  have hnextDiff : ((diff <<< 1) + 1).toNat + 1 = 2 * 2 ^ (k + 1) := by
    rw [UInt32.toNat_add, toNat_shiftLeft_one (by omega)]
    simp only [UInt32.reduceToNat]
    omega
  have hnextNum : (hashnum >>> 1).toNat = i / 2 ^ (k + 1) := by
    rw [toNat_shiftRight_one, h.hashnum, pow_succ, Nat.div_div_eq_div_mul]
  have hloop : diff < posend := UInt32.lt_iff_toNat_lt.mpr (by
    have hlt : logSize (2 ^ k) < logSize (m + 1) := logSize_strictMono (by omega)
    have hsize := logSize_two_pow k
    omega)
  obtain ⟨hadd, hnum⟩ := posadd_spec hm hi hk h
  rw [HashTree.hashpathLoop, if_pos hloop]
  dsimp only at hadd hnum ⊢
  generalize (if hashnum &&& 1 ≠ 0 then posnum - diff else posnum + diff) = posadd at hadd hnum ⊢
  have hlt : posadd < posend ↔ (sibling (i / 2 ^ k) + 1) * 2 ^ k ≤ m + 1 := by
    rw [UInt32.lt_iff_toNat_lt, hadd, hend, fullPlace_lt_iff]
  by_cases hfound : posadd < posend
  · have hsibling := hlt.mp hfound
    have hplace : [posadd] = (siblingPlace m i k).toList.map UInt32.ofNat := by
      rw [siblingPlace_of_full hsibling, ← hadd]
      simp
    simp only [if_pos hfound]
    refine ⟨_, _, _, congrArg (· ++ _) hplace, hnextNum, hnum, hnextDiff, fun hfull => ?_,
      fun hcut => ?_⟩
    · obtain ⟨hmax, hfin⟩ := h.full ((full_succ_iff k i (m + 1)).mp hfull).1
      refine ⟨?_, posfin_next (by omega) hm hend hmax hfin⟩
      rw [toNat_shiftRight_one, hmax, pow_succ, Nat.div_div_eq_div_mul]
    · have hcut : m + 1 < (i / 2 ^ k + 1) * 2 ^ k := by
        by_contra hfull
        exact hcut.not_ge ((full_succ_iff k i (m + 1)).mpr ⟨not_lt.mp hfull, hsibling⟩)
      obtain ⟨rfl, rfl⟩ := h.cut hcut
      exact ⟨by decide, if_neg (by decide)⟩
  · have hsibling : m + 1 < (sibling (i / 2 ^ k) + 1) * 2 ^ k := not_le.mp (hlt.not.mp hfound)
    have hplace := siblingPlace_of_not_full (by omega) hi hsibling h
    simp only [if_neg hfound]
    refine ⟨_, _, _, congrArg (· ++ _) hplace, hnextNum, hnum, hnextDiff, fun hfull => ?_,
      fun _ => ⟨by decide, if_neg (by decide)⟩⟩
    exact absurd ((full_succ_iff k i (m + 1)).mp hfull).2 hsibling.not_ge

end Step

/-- The loop from a level on. -/
theorem hashpathLoop_eq {m i : Nat} (hm : m < 2 ^ 30) (hi : i ≤ m) {posend : UInt32}
    (hend : posend.toNat = logSize (m + 1)) (fuel : Nat) {k : Nat}
    {hashnum hashmax posnum posfin diff : UInt32}
    (h : PathState m i k hashnum hashmax posnum posfin diff) :
    HashTree.hashpathLoop posend fuel hashnum hashmax posnum posfin diff =
      (pathFrom m i k fuel).map UInt32.ofNat := by
  induction fuel generalizing k hashnum hashmax posnum posfin diff with
  | zero => rfl
  | succ fuel ih =>
    rcases le_or_gt (2 ^ k) m with hk | hk
    · obtain ⟨hashmax', posnum', posfin', hstep, hnext⟩ := hashpathLoop_step hm hi hk hend h fuel
      rw [hstep, ih hnext, pathFrom_succ, List.map_append]
    · have hle : ¬ diff < posend := by
        have hmono : logSize (m + 1) ≤ logSize (2 ^ k) := logSize_strictMono.monotone hk
        have hsize := logSize_two_pow k
        have hdiff := h.diff
        rw [UInt32.lt_iff_toNat_lt, hend]
        omega
      rw [HashTree.hashpathLoop, if_neg hle, pathFrom_of_lt hi hk]
      rfl

/-- `hashpath` finds the siblings above an item of a row. -/
theorem hashpath_eq {m i : Nat} (hm : m < 2 ^ 30) (hi : i ≤ m) :
    HashTree.hashpath (.ofNat i) (.ofNat (m + 1)) = (pathFrom m i 0 32).map UInt32.ofNat := by
  have hnum : (UInt32.ofNat i).toNat = i := UInt32.toNat_ofNat_of_lt' (by
    show i < 2 ^ 32
    omega)
  have hmax : (UInt32.ofNat (m + 1)).toNat = m + 1 := UInt32.toNat_ofNat_of_lt' (by
    show m + 1 < 2 ^ 32
    omega)
  have hplace {v : UInt32} (hv : v.toNat < 2 ^ 31) :
      ((v <<< 1) - HashTree.bits v).toNat = logSize v.toNat := by
    have hle := ones_le v.toNat
    have hshift := toNat_shiftLeft_one (v := v) (by omega)
    rw [UInt32.toNat_sub_of_le, hshift, HashTree.toNat_bits, logSize]
    rw [UInt32.le_iff_toNat_le, hshift, HashTree.toNat_bits]
    omega
  refine hashpathLoop_eq hm hi ?_ 32 ⟨?_, ?_, rfl, fun _ => ⟨?_, ?_⟩, fun hcut => ?_⟩
  · rw [hplace (by omega), hmax]
  · rw [hnum, pow_zero, Nat.div_one]
  · rw [hplace (by omega), hnum, pow_zero, Nat.div_one, ← logSize_fullItem]
    simp
  · rw [hmax, pow_zero, Nat.div_one]
  · simp [finPlace, Nat.mod_one]
  · simp at hcut
    omega

end Esc
