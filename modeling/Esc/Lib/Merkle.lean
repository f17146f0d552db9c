import Esc.Lib.Ones
import Mathlib.Order.Monotone.Basic
import Mathlib.Data.Finset.Max

/-!
# Hash trees built by a binary counter

A row of items is joined in pairs, the pairs again, and so on; an item without a partner goes
up as it is. The builder sees one item after the other and keeps one joined value for every
bit of their number, and it logs every item and every value that it makes.

Every node of the tree is found in the log at a place that is computed from the number of its
last item. The neighbours of the nodes above an item, read from there, lead from the item to
the root.
-/

namespace Lib

universe u

namespace Merkle

variable {α : Type u} (op : α → α → α)

/-! ## The builder -/

/-- The values that are made when an item is added to the counter. -/
def carries : List (Option α) → α → List α
  | [], _ => []
  | none :: _, _ => []
  | some a :: levels, h => op a h :: carries levels (op a h)

/-- The counter after one more item. -/
def insert : List (Option α) → α → List (Option α)
  | [], _ => []
  | none :: levels, h => some h :: levels
  | some a :: levels, h => none :: insert levels (op a h)

/-- The values that are made when the counter is closed, with the value so far. -/
def finishLog : List (Option α) → Option α → List α
  | [], _ => []
  | level :: levels, none => finishLog levels level
  | none :: levels, some h => finishLog levels (some h)
  | some a :: levels, some h => op h a :: finishLog levels (some (op h a))

def join : Option α → Option α → Option α
  | none, level => level
  | some h, none => some h
  | some h, some a => some (op h a)

/-- The value of the closed counter. -/
def finish (levels : List (Option α)) (h : Option α) : Option α := levels.foldl (join op) h

/-- The items of the next level. -/
def pairs (x : Nat → α) (j : Nat) : α := op (x (2 * j)) (x (2 * j + 1))

/-- The counter of `d` levels after `n` items. -/
def levels (x : Nat → α) (n : Nat) : Nat → List (Option α)
  | 0 => []
  | d + 1 => (if n % 2 = 1 then some (x (n - 1)) else none) :: levels (pairs op x) (n / 2) d

/-- What the builder logs for one item. -/
def chain (x : Nat → α) (d n : Nat) : List α := x n :: carries op (levels op x n d) (x n)

/-- The log after `n` items. -/
def log (x : Nat → α) (d : Nat) : Nat → List α
  | 0 => []
  | n + 1 => log x d n ++ chain op x d n

/-- What the builder logs for the last item. -/
def lastChain (x : Nat → α) (d m : Nat) : List α :=
  x m :: finishLog op (levels op x m d) (some (x m))

/-- The log of a row of items that ends with the item `m`. -/
def fullLog (x : Nat → α) (d m : Nat) : List α := log op x d m ++ lastChain op x d m

variable {op}

theorem levels_even (x : Nat → α) (q d : Nat) :
    levels op x (2 * q) (d + 1) = none :: levels op (pairs op x) q d := by
  rw [levels, if_neg (by omega), Nat.mul_div_cancel_left q (by decide)]

theorem levels_odd (x : Nat → α) (q d : Nat) :
    levels op x (2 * q + 1) (d + 1) = some (x (2 * q)) :: levels op (pairs op x) q d := by
  rw [levels, if_pos (by omega), Nat.add_sub_cancel, show (2 * q + 1) / 2 = q by omega]

theorem levels_zero (x : Nat → α) (d : Nat) : levels op x 0 d = List.replicate d none := by
  induction d generalizing x with
  | zero => rfl
  | succ d ih => rw [levels, ih, if_neg (by decide), List.replicate_succ]

/-- The counter depends on the items that it counted. -/
theorem levels_congr {x y : Nat → α} {n : Nat} (d : Nat) (h : ∀ j < n, x j = y j) :
    levels op x n d = levels op y n d := by
  induction d generalizing x y n with
  | zero => rfl
  | succ d ih =>
    have hrest : levels op (pairs op x) (n / 2) d = levels op (pairs op y) (n / 2) d := by
      apply ih
      intro j hj
      rw [pairs, pairs, h _ (by omega), h _ (by omega)]
    rw [levels, levels, hrest]
    by_cases hodd : n % 2 = 1
    · rw [if_pos hodd, if_pos hodd, h _ (by omega)]
    · rw [if_neg hodd, if_neg hodd]

/-- Adding the next item counts on. -/
theorem insert_levels (x : Nat → α) (n d : Nat) :
    insert op (levels op x n d) (x n) = levels op x (n + 1) d := by
  induction d generalizing x n with
  | zero => rfl
  | succ d ih =>
    rcases Nat.even_or_odd' n with ⟨q, rfl | rfl⟩
    · rw [levels_even, levels_odd]
      rfl
    · rw [levels_odd, show 2 * q + 1 + 1 = 2 * (q + 1) by omega, levels_even]
      exact congrArg (none :: ·) (ih (pairs op x) q)

/-! ## Sizes -/

/-- The number of entries that `n` items leave in the log. -/
def logSize (n : Nat) : Nat := 2 * n - ones n

theorem logSize_succ (n : Nat) : logSize (n + 1) + ones (n + 1) = logSize n + ones n + 2 := by
  have := ones_le n
  have := ones_le (n + 1)
  unfold logSize
  omega

theorem logSize_strictMono : StrictMono logSize := by
  apply strictMono_nat_of_lt_succ
  intro n
  have := logSize_succ n
  have := ones_succ_le n
  omega

theorem length_chain (op : α → α → α) (x : Nat → α) {n d : Nat} (h : n < 2 ^ d) :
    (chain op x d n).length + ones (n + 1) = ones n + 2 := by
  induction d generalizing x n with
  | zero =>
    obtain rfl : n = 0 := by omega
    simp [chain, levels, carries, ones]
  | succ d ih =>
    rcases Nat.even_or_odd' n with ⟨q, rfl | rfl⟩
    · rw [chain, levels_even, ones_two_mul_add_one, ones_two_mul]
      simp only [carries, List.length_singleton]
      omega
    · have hrest := ih (pairs op x) (n := q) (by omega)
      rw [chain, List.length_cons] at hrest
      rw [chain, levels_odd, show 2 * q + 1 + 1 = 2 * (q + 1) by omega, ones_two_mul,
        ones_two_mul_add_one, carries, List.length_cons, List.length_cons]
      have hpair : op (x (2 * q)) (x (2 * q + 1)) = pairs op x q := rfl
      rw [hpair]
      omega

theorem length_log (x : Nat → α) {n d : Nat} (h : n ≤ 2 ^ d) :
    (log op x d n).length = logSize n := by
  induction n with
  | zero => simp [log, logSize]
  | succ n ih =>
    have hchain := length_chain op x (n := n) h
    have hsucc := logSize_succ n
    rw [log, List.length_append, ih (by omega)]
    omega

/-- The entries of an item stay where they were logged. -/
theorem log_getElem? (x : Nat → α) {d i n r : Nat} (hi : i < n) (hn : n ≤ 2 ^ d)
    (hr : r < (chain op x d i).length) :
    (log op x d n)[logSize i + r]? = (chain op x d i)[r]? := by
  induction n with
  | zero => omega
  | succ n ih =>
    rw [log]
    rcases Nat.lt_succ_iff_lt_or_eq.mp hi with hlt | rfl
    · have hchain := length_chain op x (n := i) (d := d) (by omega)
      have hsucc := logSize_succ i
      have hmono : logSize (i + 1) ≤ logSize n := logSize_strictMono.monotone hlt
      rw [List.getElem?_append_left (by rw [length_log x (by omega)]; omega)]
      exact ih hlt (by omega)
    · have hlength : (log op x d i).length = logSize i := length_log x (by omega)
      rw [List.getElem?_append_right (by omega), hlength, Nat.add_sub_cancel_left]

/-! ## The tree -/

variable (op)

/-- The items of the next level, when the last of the present ones is `m`. -/
def halve (x : Nat → α) (m j : Nat) : α := if 2 * j + 1 ≤ m then pairs op x j else x (2 * j)

/-- The node `j` of level `k`; the last one is `m / 2 ^ k`. -/
def node (x : Nat → α) (m : Nat) : Nat → Nat → α
  | 0, j => x j
  | k + 1, j => node (halve op x m) (m / 2) k j

variable {op}

/-- The other node under the same parent. -/
def sibling (j : Nat) : Nat := if j % 2 = 0 then j + 1 else j - 1

theorem sibling_even (q : Nat) : sibling (2 * q) = 2 * q + 1 := if_pos (Nat.mul_mod_right 2 q)

theorem sibling_odd (q : Nat) : sibling (2 * q + 1) = 2 * q := if_neg (by omega)

/-- A node has a parent with its sibling, or goes up alone. -/
theorem node_succ (hop : ∀ a b, op a b = op b a) (x : Nat → α) {m k j : Nat} (hj : j ≤ m / 2 ^ k) :
    node op x m (k + 1) (j / 2) =
      if sibling j ≤ m / 2 ^ k then op (node op x m k j) (node op x m k (sibling j))
      else node op x m k j := by
  induction k generalizing x m with
  | zero =>
    simp only [pow_zero, Nat.div_one] at hj ⊢
    show halve op x m (j / 2) = if sibling j ≤ m then op (x j) (x (sibling j)) else x j
    rcases Nat.even_or_odd' j with ⟨q, rfl | rfl⟩
    · rw [Nat.mul_div_cancel_left q (by decide), sibling_even]
      rfl
    · rw [sibling_odd, show (2 * q + 1) / 2 = q by omega, if_pos (by omega), halve, if_pos hj,
        pairs, hop]
  | succ k ih =>
    rw [div_two_pow_succ] at hj ⊢
    exact ih (halve op x m) hj

/-- The root goes up alone. -/
theorem node_of_lt (hop : ∀ a b, op a b = op b a) (x : Nat → α) {m k : Nat} (hk : m < 2 ^ k) :
    node op x m (k + 1) 0 = node op x m k 0 := by
  have hstep := node_succ hop x (m := m) (k := k) (j := 0) (Nat.zero_le _)
  rw [Nat.div_eq_of_lt hk] at hstep
  exact hstep.trans (if_neg (by decide))

theorem halve_of_le (x : Nat → α) {m j : Nat} (h : 2 * j + 1 ≤ m) : halve op x m j = pairs op x j :=
  if_pos h

/-- The counter under the next level of the tree. -/
theorem levels_halve (x : Nat → α) {m q : Nat} (d : Nat) (h : 2 * q ≤ m) :
    levels op (pairs op x) q d = levels op (halve op x m) q d :=
  levels_congr d fun _ _ => (halve_of_le x (by omega)).symm

/-- The values that the last item of a full node makes. -/
theorem chain_getElem? (op : α → α → α) (x : Nat → α) {m d k i : Nat} (him : i ≤ m)
    (hi : i < 2 ^ d) (hfull : ones (i % 2 ^ k) = k) :
    (chain op x d i)[k]? = some (node op x m k (i / 2 ^ k)) := by
  induction k generalizing x m d i with
  | zero => simp [chain, node]
  | succ k ih =>
    have hle := ones_mod_le (i / 2) k
    rw [ones_mod_succ] at hfull
    obtain ⟨q, rfl⟩ : ∃ q, i = 2 * q + 1 := ⟨i / 2, by omega⟩
    rw [show (2 * q + 1) / 2 = q by omega] at hle hfull
    have hq : ones (q % 2 ^ k) = k := by omega
    cases d with
    | zero => omega
    | succ d =>
      have hqm : q ≤ m / 2 := by omega
      have hqd : q < 2 ^ d := by omega
      have hrest := ih (halve op x m) hqm hqd hq
      rw [chain, levels_odd, carries, List.getElem?_cons_succ, levels_halve (m := m) x d (by omega),
        div_two_pow_succ, show (2 * q + 1) / 2 = q by omega, node, ← hrest, chain,
        halve_of_le x him]
      rfl

/-- The values that the last item makes when the counter is closed. -/
theorem lastChain_getElem? (hop : ∀ a b, op a b = op b a) (x : Nat → α) {m d : Nat}
    (hm : m < 2 ^ d) (k : Nat) :
    (lastChain op x d m)[ones (m % 2 ^ k)]? = some (node op x m k (m / 2 ^ k)) := by
  induction k generalizing x m d with
  | zero => simp [lastChain, node, Nat.mod_one]
  | succ k ih =>
    rw [ones_mod_succ, div_two_pow_succ, node]
    cases d with
    | zero =>
      obtain rfl : m = 0 := by omega
      have hlast : halve op x 0 0 = x 0 := if_neg (by omega)
      have hrest := ih (halve op x 0) (m := 0) (d := 0) hm
      simpa [lastChain, levels, finishLog, hlast] using hrest
    | succ d =>
      have hrest := ih (halve op x m) (m := m / 2) (d := d) (by omega)
      rw [← hrest]
      rcases Nat.even_or_odd' m with ⟨q, rfl | rfl⟩
      · have hlast : halve op x (2 * q) q = x (2 * q) := if_neg (by omega)
        rw [lastChain, levels_even, levels_halve x d le_rfl, Nat.mul_mod_right,
          Nat.mul_div_cancel_left q (by decide), lastChain, hlast]
        rfl
      · have hlast : halve op x (2 * q + 1) q = op (x (2 * q + 1)) (x (2 * q)) := by
          rw [halve_of_le x le_rfl, pairs, hop]
        rw [lastChain, levels_odd, levels_halve x d (Nat.le_succ _),
          show (2 * q + 1) / 2 = q by omega, show (2 * q + 1) % 2 = 1 by omega,
          List.getElem?_cons_succ, lastChain, hlast]
        rfl

/-- The last item under the node `j` of level `k`. -/
def lastItem (m k j : Nat) : Nat := min ((j + 1) * 2 ^ k - 1) m

/-- The place of a node in the log. -/
def place (m k j : Nat) : Nat := logSize (lastItem m k j) + ones (lastItem m k j % 2 ^ k)

theorem lastItem_div {m k j : Nat} (hj : j ≤ m / 2 ^ k) : lastItem m k j / 2 ^ k = j := by
  have hpos : 0 < 2 ^ k := Nat.two_pow_pos k
  have hmul : (j + 1) * 2 ^ k = j * 2 ^ k + 2 ^ k := Nat.succ_mul j (2 ^ k)
  have hle : j * 2 ^ k ≤ m := (Nat.le_div_iff_mul_le hpos).mp hj
  rw [lastItem]
  apply Nat.div_eq_of_lt_le
  · omega
  · rw [hmul]
    omega

/-- A node before the last one is full. -/
theorem lastItem_of_lt {m k j : Nat} (h : lastItem m k j < m) :
    lastItem m k j + 1 = (j + 1) * 2 ^ k := by
  have hpos : 0 < (j + 1) * 2 ^ k := Nat.mul_pos j.succ_pos (Nat.two_pow_pos k)
  unfold lastItem at h ⊢
  omega

theorem ones_lastItem {m k j : Nat} (h : lastItem m k j < m) :
    ones (lastItem m k j % 2 ^ k) = k := by
  have hpos : 0 < 2 ^ k := Nat.two_pow_pos k
  have hlast := lastItem_of_lt h
  rw [Nat.succ_mul, Nat.mul_comm] at hlast
  rw [show lastItem m k j = 2 ^ k * j + (2 ^ k - 1) by omega, Nat.mul_add_mod,
    Nat.mod_eq_of_lt (by omega), ones_two_pow_sub_one]

/-- The nodes below that end with the same item. -/
theorem lastItem_lastItem {m k j l : Nat} (hl : l ≤ k) :
    lastItem m l (lastItem m k j / 2 ^ l) = lastItem m k j := by
  have hpos : 0 < 2 ^ l := Nat.two_pow_pos l
  have hle : lastItem m k j ≤ m := Nat.min_le_right _ _
  have hlt := Nat.lt_mul_div_succ (lastItem m k j) hpos
  rw [Nat.mul_comm] at hlt
  rw [lastItem]
  rcases hle.lt_or_eq with hbefore | heq
  · have hnext := lastItem_of_lt hbefore
    have hpow : (j + 1) * 2 ^ k = (j + 1) * 2 ^ (k - l) * 2 ^ l := by
      rw [Nat.mul_assoc, ← pow_add, Nat.sub_add_cancel hl]
    rw [hpow] at hnext
    generalize (j + 1) * 2 ^ (k - l) = c at hnext
    generalize lastItem m k j = i at *
    have hupper : i / 2 ^ l < c := Nat.div_lt_of_lt_mul (by rw [Nat.mul_comm]; omega)
    have hmul : (i / 2 ^ l + 1) * 2 ^ l ≤ c * 2 ^ l := Nat.mul_le_mul_right _ hupper
    omega
  · rw [heq] at hlt ⊢
    omega

/-- Every node of the tree is in the log. -/
theorem fullLog_place (hop : ∀ a b, op a b = op b a) (x : Nat → α) {m d k j : Nat}
    (hm : m < 2 ^ d) (hj : j ≤ m / 2 ^ k) :
    (fullLog op x d m)[place m k j]? = some (node op x m k j) := by
  have hdiv := lastItem_div hj
  have hle : lastItem m k j ≤ m := Nat.min_le_right _ _
  have hlength : (log op x d m).length = logSize m := length_log x hm.le
  rw [fullLog, place]
  rcases hle.lt_or_eq with hlt | heq
  · have hfull := ones_lastItem hlt
    have hchain := chain_getElem? op x hle (hlt.trans hm) hfull
    have hr : k < (chain op x d (lastItem m k j)).length := (List.getElem?_eq_some_iff.mp hchain).1
    have hentry := log_getElem? x hlt hm.le hr
    rw [hchain, hdiv] at hentry
    rw [hfull, List.getElem?_append_left (List.getElem?_eq_some_iff.mp hentry).1, hentry]
  · rw [heq] at hdiv ⊢
    rw [List.getElem?_append_right (by omega), hlength, Nat.add_sub_cancel_left,
      lastChain_getElem? hop x hm, hdiv]

/-! ## Paths -/

/-- The place of the sibling on level `l` above the item `i`, if there is one. -/
def siblingPlace (m i l : Nat) : Option Nat :=
  if sibling (i / 2 ^ l) ≤ m / 2 ^ l then some (place m l (sibling (i / 2 ^ l))) else none

/-- The places of the siblings on `n` levels from `k` on. -/
def pathFrom (m i k n : Nat) : List Nat := (List.range' k n).filterMap (siblingPlace m i)

theorem pathFrom_succ (m i k n : Nat) :
    pathFrom m i k (n + 1) = (siblingPlace m i k).toList ++ pathFrom m i (k + 1) n := by
  rw [pathFrom, List.range'_succ, List.filterMap_cons]
  cases siblingPlace m i k with
  | none => rfl
  | some p => rfl

/-- The values at the places of a path join an item to a node above it. -/
theorem foldl_pathFrom (hop : ∀ a b, op a b = op b a) (x : Nat → α) {m d i : Nat} (hm : m < 2 ^ d)
    (hi : i ≤ m) (read : Nat → α) (k n : Nat)
    (hread : ∀ p ∈ pathFrom m i k n, (fullLog op x d m)[p]? = some (read p)) :
    ((pathFrom m i k n).map read).foldl op (node op x m k (i / 2 ^ k)) =
      node op x m (k + n) (i / 2 ^ (k + n)) := by
  induction n generalizing k with
  | zero => rfl
  | succ n ih =>
    have hj : i / 2 ^ k ≤ m / 2 ^ k := Nat.div_le_div_right hi
    have hstep := node_succ hop x hj
    rw [Nat.div_div_eq_div_mul, ← pow_succ] at hstep
    rw [pathFrom_succ] at hread ⊢
    have hrest := ih (k + 1) fun p hp => hread p (List.mem_append_right _ hp)
    rw [List.map_append, List.foldl_append, show k + (n + 1) = k + 1 + n by omega, ← hrest]
    congr 1
    rw [hstep]
    unfold siblingPlace at hread ⊢
    by_cases hsibling : sibling (i / 2 ^ k) ≤ m / 2 ^ k
    · rw [if_pos hsibling] at hread ⊢
      have hvalue := hread _ (List.mem_append_left _ (Option.mem_toList.mpr rfl))
      rw [fullLog_place hop x hm hsibling] at hvalue
      rw [if_pos hsibling, Option.some.inj hvalue]
      rfl
    · rw [if_neg hsibling, if_neg hsibling]
      rfl

/-- There are no siblings above the root. -/
theorem siblingPlace_of_lt {m i k : Nat} (hi : i ≤ m) (hk : m < 2 ^ k) :
    siblingPlace m i k = none := by
  rw [siblingPlace, Nat.div_eq_of_lt hk, Nat.div_eq_of_lt (hi.trans_lt hk)]
  rfl

theorem pathFrom_of_lt {m i k : Nat} (hi : i ≤ m) (hk : m < 2 ^ k) (n : Nat) :
    pathFrom m i k n = [] := by
  induction n generalizing k with
  | zero => rfl
  | succ n ih =>
    rw [pathFrom_succ, siblingPlace_of_lt hi hk, ih (hk.trans (Nat.pow_lt_pow_succ (by decide)))]
    rfl

theorem length_finishLog (x : Nat → α) {m d : Nat} (hm : m < 2 ^ d) (h : α) :
    (finishLog op (levels op x m d) (some h)).length = ones m := by
  induction d generalizing x m h with
  | zero =>
    obtain rfl : m = 0 := by omega
    simp [levels, finishLog]
  | succ d ih =>
    rcases Nat.even_or_odd' m with ⟨q, rfl | rfl⟩
    · rw [levels_even, finishLog, ones_two_mul, ih _ (by omega)]
    · rw [levels_odd, finishLog, ones_two_mul_add_one, List.length_cons, ih _ (by omega)]

theorem length_fullLog (op : α → α → α) (x : Nat → α) {m d : Nat} (hm : m < 2 ^ d) :
    (fullLog op x d m).length = logSize m + ones m + 1 := by
  rw [fullLog, List.length_append, length_log x hm.le, lastChain, List.length_cons,
    length_finishLog x hm, Nat.add_assoc]

/-- The entries of an item end before those of the next one. -/
theorem place_lt_logSize {m k j : Nat} (hj : j ≤ m / 2 ^ k) (h : lastItem m k j < m) :
    place m k j < logSize (lastItem m k j + 1) := by
  have hsucc := logSize_succ (lastItem m k j)
  have hsplit := ones_split (lastItem m k j) k
  have hnext : ones (lastItem m k j + 1) = ones (j + 1) := by
    rw [lastItem_of_lt h]
    simpa using ones_mul_two_pow_add (j + 1) (k := k) (r := 0) (Nat.two_pow_pos k)
  have hle := ones_succ_le j
  rw [lastItem_div hj] at hsplit
  rw [place]
  omega

theorem sibling_ne (j : Nat) : sibling j ≠ j := by
  unfold sibling
  split <;> omega

theorem sibling_div_two (j : Nat) : sibling j / 2 = j / 2 := by
  unfold sibling
  split <;> omega

theorem div_two_pow_of_le {p i k l : Nat} (h : p / 2 ^ k = i / 2 ^ k) (hle : k ≤ l) :
    p / 2 ^ l = i / 2 ^ l := by
  rw [← Nat.add_sub_cancel' hle, pow_add, ← Nat.div_div_eq_div_mul, h, Nat.div_div_eq_div_mul]

/-- An item is below the sibling of another one on one level only. -/
theorem sibling_level_unique {i p k l : Nat} (hk : p / 2 ^ k = sibling (i / 2 ^ k))
    (hl : p / 2 ^ l = sibling (i / 2 ^ l)) : k = l := by
  have hone {k l : Nat} (hk : p / 2 ^ k = sibling (i / 2 ^ k))
      (hl : p / 2 ^ l = sibling (i / 2 ^ l)) : l ≤ k := by
    by_contra hlt
    have hnext : p / 2 ^ (k + 1) = i / 2 ^ (k + 1) := by
      rw [pow_succ, ← Nat.div_div_eq_div_mul, ← Nat.div_div_eq_div_mul, hk, sibling_div_two]
    have hsame := div_two_pow_of_le hnext (by omega : k + 1 ≤ l)
    exact sibling_ne _ (hl.symm.trans hsame)
  exact le_antisymm (hone hl hk) (hone hk hl)

theorem mem_pathFrom {m i k n q : Nat} (h : q ∈ pathFrom m i k n) :
    ∃ l, sibling (i / 2 ^ l) ≤ m / 2 ^ l ∧ q = place m l (sibling (i / 2 ^ l)) := by
  obtain ⟨l, -, hl⟩ := List.mem_filterMap.mp h
  unfold siblingPlace at hl
  split at hl
  · rename_i hle
    exact ⟨l, hle, (Option.some.inj hl).symm⟩
  · cases hl

theorem sibling_ne_zero_of_le {j m : Nat} (hj : j ≤ m) (h : sibling j = m) : m ≠ 0 := by
  rintro rfl
  obtain rfl : j = 0 := by omega
  cases h

/-- A sibling comes before the root, which ends the log. -/
theorem place_sibling_lt {m i k : Nat} (hi : i ≤ m) (h : sibling (i / 2 ^ k) ≤ m / 2 ^ k) :
    place m k (sibling (i / 2 ^ k)) < logSize m + ones m := by
  have hle : lastItem m k (sibling (i / 2 ^ k)) ≤ m := Nat.min_le_right _ _
  rcases hle.lt_or_eq with hlt | heq
  · have hplace := place_lt_logSize h hlt
    have hmono : logSize (lastItem m k (sibling (i / 2 ^ k)) + 1) ≤ logSize m :=
      logSize_strictMono.monotone hlt
    omega
  · have hdiv := lastItem_div h
    rw [heq] at hdiv
    have hpos : ones (m / 2 ^ k) ≠ 0 := fun hzero =>
      sibling_ne_zero_of_le (Nat.div_le_div_right hi) hdiv.symm (ones_eq_zero hzero)
    have hsplit := ones_split m k
    rw [place, heq]
    omega

/-! ## The root -/

theorem finish_some (hop : ∀ a b, op a b = op b a) (x : Nat → α) {m d : Nat} (hm : m < 2 ^ d) :
    finish op (levels op x m d) (some (x m)) = some (node op x m d 0) := by
  induction d generalizing x m with
  | zero =>
    obtain rfl : m = 0 := by omega
    rfl
  | succ d ih =>
    have hrest := ih (halve op x m) (m := m / 2) (by omega)
    rw [node, ← hrest]
    rcases Nat.even_or_odd' m with ⟨q, rfl | rfl⟩
    · have hlast : halve op x (2 * q) q = x (2 * q) := if_neg (by omega)
      rw [levels_even, levels_halve x d le_rfl, Nat.mul_div_cancel_left q (by decide), hlast]
      rfl
    · have hlast : halve op x (2 * q + 1) q = op (x (2 * q + 1)) (x (2 * q)) := by
        rw [halve_of_le x le_rfl, pairs, hop]
      rw [levels_odd, levels_halve x d (Nat.le_succ _), show (2 * q + 1) / 2 = q by omega, hlast]
      rfl

/-- The closed counter holds the root. -/
theorem finish_levels (hop : ∀ a b, op a b = op b a) (x : Nat → α) {m d : Nat}
    (hm : m + 1 < 2 ^ d) : finish op (levels op x (m + 1) d) none = some (node op x m d 0) := by
  induction d generalizing x m with
  | zero => omega
  | succ d ih =>
    rcases Nat.even_or_odd' m with ⟨q, rfl | rfl⟩
    · have hrest := finish_some hop (halve op x (2 * q)) (m := q) (d := d) (by omega)
      have hlast : halve op x (2 * q) q = x (2 * q) := if_neg (by omega)
      rw [levels_odd, levels_halve x d le_rfl, node, Nat.mul_div_cancel_left q (by decide), ← hrest,
        hlast]
      rfl
    · have hrest := ih (halve op x (2 * q + 1)) (m := q) (by omega)
      rw [show 2 * q + 1 + 1 = 2 * (q + 1) by omega, levels_even, node,
        show (2 * q + 1) / 2 = q by omega, ← hrest,
        levels_congr d fun j hj => (halve_of_le (m := 2 * q + 1) x (by omega)).symm]
      rfl

/-- Closing the counter after an item, or with the item at hand. -/
theorem carries_finishLog (hop : ∀ a b, op a b = op b a) (levels : List (Option α)) (h : α) :
    carries op levels h ++ finishLog op (insert op levels h) none =
      finishLog op levels (some h) := by
  induction levels generalizing h with
  | nil => rfl
  | cons level levels ih =>
    cases level with
    | none => rfl
    | some a =>
      rw [carries, insert, finishLog, List.cons_append, ih, finishLog, hop]

theorem fullLog_eq (hop : ∀ a b, op a b = op b a) (x : Nat → α) (d m : Nat) :
    log op x d (m + 1) ++ finishLog op (levels op x (m + 1) d) none = fullLog op x d m := by
  rw [log, fullLog, List.append_assoc, chain, lastChain, List.cons_append, ← insert_levels,
    carries_finishLog hop]

/-! ## The log of the joined values

A builder that does not log its items: the values of a row of leaves are the items of the
first level and what is made of them, up to a last leaf without a partner. -/

variable (op)

/-- The values that a row of leaves makes. -/
def joinLog : List (Option α) → List α → List α
  | _, [] => []
  | tree, h :: hs => carries op tree h ++ joinLog (insert op tree h) hs

variable {op}

theorem log_joinLog (op : α → α → α) (y : Nat → α) (d : Nat) {n : Nat} {leaves : List α}
    (hleaves : ∀ j (hj : j < leaves.length), leaves[j] = y (n + j)) :
    log op (pairs op y) d (n / 2) ++ joinLog op (levels op y n (d + 1)) leaves =
        log op (pairs op y) d ((n + leaves.length) / 2) ∧
      leaves.foldl (insert op) (levels op y n (d + 1)) =
        levels op y (n + leaves.length) (d + 1) := by
  induction leaves generalizing n with
  | nil => simp [joinLog]
  | cons h leaves ih =>
    obtain rfl : h = y n := hleaves 0 (Nat.succ_pos _)
    have hrest := ih (n := n + 1) fun j hj => by
      have := hleaves (j + 1) (Nat.succ_lt_succ hj)
      rwa [List.getElem_cons_succ, show n + (j + 1) = n + 1 + j by omega] at this
    rw [List.foldl_cons, insert_levels, List.length_cons,
      show n + (leaves.length + 1) = n + 1 + leaves.length by omega]
    refine ⟨?_, hrest.2⟩
    rw [← hrest.1, joinLog, insert_levels, ← List.append_assoc]
    congr 1
    rcases Nat.even_or_odd' n with ⟨q, rfl | rfl⟩
    · rw [levels_even, carries, List.append_nil, show (2 * q + 1) / 2 = 2 * q / 2 by omega]
    · rw [levels_odd, show (2 * q + 1) / 2 = q by omega, show (2 * q + 1 + 1) / 2 = q + 1 by omega,
        carries, log, chain]
      rfl

theorem log_congr {x x' : Nat → α} (d : Nat) {n : Nat} (h : ∀ j < n, x j = x' j) :
    log op x d n = log op x' d n := by
  induction n with
  | zero => rfl
  | succ n ih =>
    rw [log, log, ih fun j hj => h j (by omega), chain, chain, h n (by omega),
      levels_congr d fun j hj => h j (by omega)]

/-- An even number of leaves: the log of the items. -/
theorem joinLog_even (hop : ∀ a b, op a b = op b a) (y : Nat → α) (d : Nat) {leaves : List α}
    (hleaves : ∀ j (hj : j < leaves.length), leaves[j] = y j) {q : Nat}
    (hlength : leaves.length = 2 * q + 2) :
    joinLog op (List.replicate (d + 1) none) leaves ++
        finishLog op (leaves.foldl (insert op) (List.replicate (d + 1) none)) none =
      fullLog op (halve op y (2 * q + 1)) d q := by
  have hlog := log_joinLog op y d (n := 0) (by simpa using hleaves)
  have hitems : ∀ j < q + 1, pairs op y j = halve op y (2 * q + 1) j := fun j hj =>
    (halve_of_le y (by omega)).symm
  rw [levels_zero] at hlog
  simp only [log, Nat.zero_div, List.nil_append, Nat.zero_add, hlength] at hlog
  rw [hlog.1, hlog.2, ← fullLog_eq hop, show 2 * q + 2 = 2 * (q + 1) by omega, levels_even,
    Nat.mul_div_cancel_left _ (by decide), finishLog, log_congr d hitems, levels_congr d hitems]

/-- An odd number of leaves: the last one is an item that is not logged. -/
theorem joinLog_odd (op : α → α → α) (y : Nat → α) (d : Nat) {leaves : List α}
    (hleaves : ∀ j (hj : j < leaves.length), leaves[j] = y j) {q : Nat}
    (hlength : leaves.length = 2 * q + 1) (hq : q ≤ 2 ^ d) :
    joinLog op (List.replicate (d + 1) none) leaves ++
        finishLog op (leaves.foldl (insert op) (List.replicate (d + 1) none)) none =
      (fullLog op (halve op y (2 * q)) d q).eraseIdx (logSize q) := by
  have hlog := log_joinLog op y d (n := 0) (by simpa using hleaves)
  have hitems : ∀ j < q, pairs op y j = halve op y (2 * q) j := fun j hj =>
    (halve_of_le y (by omega)).symm
  have hlast : halve op y (2 * q) q = y (2 * q) := if_neg (by omega)
  have hsize : (log op (halve op y (2 * q)) d q).length = logSize q := length_log _ hq
  rw [levels_zero] at hlog
  simp only [log, Nat.zero_div, List.nil_append, Nat.zero_add, hlength] at hlog
  rw [hlog.1, hlog.2, levels_odd, show (2 * q + 1) / 2 = q by omega, finishLog,
    log_congr d hitems, levels_congr d hitems, fullLog, List.eraseIdx_append_of_length_le hsize.le,
    hsize, Nat.sub_self, lastChain, List.eraseIdx_cons_zero, hlast]

/-! ## Marks

A mark on values that a join keeps. When one item alone is marked, the marked nodes are those
above it, so a path that is read at wrong places can lose the mark. -/

section Marks

variable {P : α → Prop}

theorem halve_mark (hP : ∀ a b, P (op a b) ↔ P a ∨ P b) (x : Nat → α) {m j : Nat}
    (hj : j ≤ m / 2) : P (halve op x m j) ↔ ∃ q ≤ m, q / 2 = j ∧ P (x q) := by
  unfold halve
  split
  · rename_i hle
    rw [pairs, hP]
    constructor
    · rintro (h | h)
      · exact ⟨2 * j, by omega, by omega, h⟩
      · exact ⟨2 * j + 1, hle, by omega, h⟩
    · rintro ⟨q, -, hq, h⟩
      obtain rfl | rfl : q = 2 * j ∨ q = 2 * j + 1 := by omega
      · exact .inl h
      · exact .inr h
  · rename_i hle
    constructor
    · intro h
      exact ⟨2 * j, by omega, by omega, h⟩
    · rintro ⟨q, hqm, hq, h⟩
      obtain rfl : q = 2 * j := by omega
      exact h

/-- A node is marked when one of its items is. -/
theorem node_mark (hP : ∀ a b, P (op a b) ↔ P a ∨ P b) (x : Nat → α) {m k j : Nat}
    (hj : j ≤ m / 2 ^ k) : P (node op x m k j) ↔ ∃ q ≤ m, q / 2 ^ k = j ∧ P (x q) := by
  induction k generalizing x m with
  | zero => simpa [node] using fun _ => (by simpa using hj : j ≤ m)
  | succ k ih =>
    rw [div_two_pow_succ] at hj
    rw [node, ih (halve op x m) hj]
    constructor
    · rintro ⟨q, hq, rfl, h⟩
      obtain ⟨r, hr, rfl, hmark⟩ := (halve_mark hP x hq).mp h
      exact ⟨r, hr, div_two_pow_succ r k, hmark⟩
    · rintro ⟨r, hr, rfl, h⟩
      refine ⟨r / 2, Nat.div_le_div_right hr, (div_two_pow_succ r k).symm, ?_⟩
      exact (halve_mark hP x (Nat.div_le_div_right hr)).mpr ⟨r, hr, rfl, h⟩

theorem levels_unmarked (hP : ∀ a b, P (op a b) ↔ P a ∨ P b) {x : Nat → α} {n d : Nat}
    (hx : ∀ q < n, ¬ P (x q)) : ∀ a, some a ∈ levels op x n d → ¬ P a := by
  induction d generalizing x n with
  | zero => simp [levels]
  | succ d ih =>
    intro a ha
    rcases List.mem_cons.mp ha with hfirst | hrest
    · by_cases hodd : n % 2 = 1
      · rw [if_pos hodd] at hfirst
        rw [Option.some.inj hfirst]
        exact hx _ (by omega)
      · rw [if_neg hodd] at hfirst
        cases hfirst
    · refine ih (fun q hq => ?_) a hrest
      rw [pairs, hP]
      exact fun h => h.elim (hx _ (by omega)) (hx _ (by omega))

theorem carries_unmarked (hP : ∀ a b, P (op a b) ↔ P a ∨ P b) {levels : List (Option α)} {h : α}
    (hlevels : ∀ a, some a ∈ levels → ¬ P a) (hh : ¬ P h) : ∀ v ∈ carries op levels h, ¬ P v := by
  induction levels generalizing h with
  | nil => simp [carries]
  | cons level levels ih =>
    cases level with
    | none => simp [carries]
    | some a =>
      have hjoin : ¬ P (op a h) := by
        rw [hP]
        exact fun hmark => hmark.elim (hlevels a List.mem_cons_self) hh
      intro v hv
      rcases List.mem_cons.mp hv with rfl | hv
      · exact hjoin
      · exact ih (fun b hb => hlevels b (List.mem_cons_of_mem _ hb)) hjoin v hv

/-- Nothing is marked in the log before the first marked item. -/
theorem log_unmarked (hP : ∀ a b, P (op a b) ↔ P a ∨ P b) {x : Nat → α} (d : Nat) {n : Nat}
    (hx : ∀ q < n, ¬ P (x q)) : ∀ v ∈ log op x d n, ¬ P v := by
  induction n with
  | zero => simp [log]
  | succ n ih =>
    intro v hv
    rcases List.mem_append.mp hv with hv | hv
    · exact ih (fun q hq => hx q (by omega)) v hv
    · rcases List.mem_cons.mp hv with rfl | hv
      · exact hx n (by omega)
      · exact carries_unmarked hP (levels_unmarked hP fun q hq => hx q (by omega))
          (hx n (by omega)) v hv

theorem log_prefix (op : α → α → α) (x : Nat → α) (d : Nat) {n m : Nat} (h : n ≤ m) :
    log op x d n <+: fullLog op x d m := by
  refine List.IsPrefix.trans ?_ (List.prefix_append _ _)
  induction h with
  | refl => exact List.prefix_rfl
  | step _ ih => exact ih.trans (List.prefix_append _ _)

/-- When one item is marked, the entry before that of a node is marked in two cases: it is a
right half of the node, with the marked item, or an entry of the items before the node. -/
theorem before_place_marked (hop : ∀ a b, op a b = op b a) (hP : ∀ a b, P (op a b) ↔ P a ∨ P b)
    {x : Nat → α} {m d k j p : Nat} (hm : m < 2 ^ d) (hx : ∀ q ≤ m, P (x q) ↔ q = p)
    (hpos : 0 < place m k j) {v : α} (hv : (fullLog op x d m)[place m k j - 1]? = some v)
    (hmark : P v) :
    (∃ l < k, p / 2 ^ l = lastItem m k j / 2 ^ l ∧ lastItem m k j / 2 ^ l % 2 = 1) ∨
      lastItem m k j % 2 ^ k = 0 ∧ p < lastItem m k j := by
  have hle : lastItem m k j ≤ m := Nat.min_le_right _ _
  cases hones : ones (lastItem m k j % 2 ^ k) with
  | zero =>
    refine .inr ⟨ones_eq_zero hones, ?_⟩
    have hlength : (log op x d (lastItem m k j)).length = logSize (lastItem m k j) :=
      length_log x (by omega)
    rw [place, hones] at hv hpos
    obtain ⟨rest, hrest⟩ := log_prefix op x d hle
    rw [← hrest, List.getElem?_append_left (by omega)] at hv
    by_contra hp
    refine log_unmarked hP d (fun q hq => ?_) v (List.mem_of_getElem? hv) hmark
    rw [hx q (by omega)]
    omega
  | succ r =>
    obtain ⟨l, hl, hr, hodd⟩ := exists_high_one hones
    refine .inl ⟨l, hl, ?_, hodd⟩
    have hj : lastItem m k j / 2 ^ l ≤ m / 2 ^ l := Nat.div_le_div_right hle
    have hplace : place m l (lastItem m k j / 2 ^ l) = place m k j - 1 := by
      rw [place, place, lastItem_lastItem hl.le, hr, hones]
      rfl
    rw [← hplace, fullLog_place hop x hm hj] at hv
    rw [← Option.some.inj hv, node_mark hP x hj] at hmark
    obtain ⟨q, hq, hdiv, hmark⟩ := hmark
    rw [← (hx q hq).mp hmark, hdiv]

/-- A path that is read one place too low from the place `t` on can lose the mark of an item. -/
theorem exists_lost_mark (hop : ∀ a b, op a b = op b a) (hP : ∀ a b, P (op a b) ↔ P a ∨ P b)
    {m d i n t : Nat} (hm : m < 2 ^ d) (ht : 0 < t) (hbig : ∃ q ∈ pathFrom m i 0 n, t ≤ q) :
    ∃ p ≤ m, p ≠ i ∧ ∀ x : Nat → α, (∀ q ≤ m, P (x q) ↔ q = p) →
      ∀ q ∈ pathFrom m i 0 n, ∀ v,
        (fullLog op x d m)[if q < t then q else q - 1]? = some v → ¬ P v := by
  -- The mark goes to the first item of the node with the highest place.
  obtain ⟨q₁, hq₁, hle₁⟩ := hbig
  obtain ⟨q₀, hq₀, hmax⟩ := Finset.exists_max_image (pathFrom m i 0 n).toFinset id
    ⟨q₁, List.mem_toFinset.mpr hq₁⟩
  have hmax : ∀ q ∈ pathFrom m i 0 n, q ≤ q₀ := fun q hq => hmax q (List.mem_toFinset.mpr hq)
  have ht₀ : t ≤ q₀ := hle₁.trans (hmax q₁ hq₁)
  obtain ⟨k, hk, rfl⟩ := mem_pathFrom (List.mem_toFinset.mp hq₀)
  have hfirst : sibling (i / 2 ^ k) * 2 ^ k / 2 ^ k = sibling (i / 2 ^ k) :=
    Nat.mul_div_cancel _ (Nat.two_pow_pos k)
  refine ⟨sibling (i / 2 ^ k) * 2 ^ k, (Nat.le_div_iff_mul_le (Nat.two_pow_pos k)).mp hk, ?_, ?_⟩
  · intro heq
    rw [heq] at hfirst
    exact sibling_ne _ hfirst.symm
  intro x hx q hq v hv hmark
  obtain ⟨l, hl, rfl⟩ := mem_pathFrom hq
  have hdiv := lastItem_div hl
  have hle : lastItem m l (sibling (i / 2 ^ l)) ≤ m := Nat.min_le_right _ _
  split at hv
  · rename_i hlt
    rw [fullLog_place hop x hm hl] at hv
    rw [← Option.some.inj hv, node_mark hP x hl] at hmark
    obtain ⟨r, hr, hrl, hmark⟩ := hmark
    rw [(hx r hr).mp hmark] at hrl
    obtain rfl := sibling_level_unique hfirst hrl
    omega
  · rename_i hge
    obtain ⟨l', hl', hsame, hodd⟩ | ⟨hzero, hbefore⟩ :=
      before_place_marked hop hP hm hx (by omega) hv hmark
    · have hrl := div_two_pow_of_le hsame hl'.le
      rw [hdiv] at hrl
      obtain rfl := sibling_level_unique hfirst hrl
      obtain ⟨e, rfl⟩ : ∃ e, k = e + 1 + l' := ⟨k - 1 - l', by omega⟩
      rw [← hsame, pow_add, ← Nat.mul_assoc, Nat.mul_div_cancel _ (Nat.two_pow_pos l'), pow_succ,
        ← Nat.mul_assoc, Nat.mul_mod_left] at hodd
      cases hodd
    · have hne : k ≠ l := by
        rintro rfl
        have hitem := Nat.div_add_mod (lastItem m k (sibling (i / 2 ^ k))) (2 ^ k)
        rw [hdiv, hzero, Nat.mul_comm] at hitem
        omega
      rcases le_or_gt (lastItem m l (sibling (i / 2 ^ l))) (lastItem m k (sibling (i / 2 ^ k)))
        with hin | hafter
      · have hlower := Nat.div_le_div_right (c := 2 ^ k) hbefore.le
        have hupper := Nat.div_le_div_right (c := 2 ^ k) hin
        rw [hfirst] at hlower
        rw [lastItem_div hk] at hupper
        exact hne (sibling_level_unique (le_antisymm hupper hlower) hdiv)
      · have hplace := place_lt_logSize hk (hafter.trans_le hle)
        have hmono : logSize (lastItem m k (sibling (i / 2 ^ k)) + 1) ≤
            logSize (lastItem m l (sibling (i / 2 ^ l))) := logSize_strictMono.monotone hafter
        have hplace' : logSize (lastItem m l (sibling (i / 2 ^ l))) ≤
            place m l (sibling (i / 2 ^ l)) := Nat.le_add_right _ _
        have := hmax _ hq
        omega

end Marks

end Merkle

end Lib
