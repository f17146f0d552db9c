import Esc.Lib.Map

/-!
# Neighbours in an ordered map

What an iterator of an ordered map finds one step before and one step after a key.
A group of adjacent keys that holds the key and another key holds a neighbour.
-/

namespace Lib.Map

universe u v

variable {K : Type u} {V : Type v} [Ord K] [Std.TransOrd K]

/-- The last entry before a key. -/
def before (m : Map K V) (k : K) : Option (K × V) :=
  (m.toList.filter fun p => compare p.1 k == .lt).getLast?

/-- The first entry after a key. -/
def after (m : Map K V) (k : K) : Option (K × V) :=
  (m.toList.filter fun p => compare p.1 k == .gt).head?

variable {m : Map K V} {k q : K} {p : K × V} {v : V} [Std.LawfulEqOrd K]

theorem before_eq_some (h : m.before k = some p) : m[p.1]? = some p.2 ∧ compare p.1 k = .lt := by
  have hmem := List.mem_of_getLast? h
  rw [List.mem_filter, beq_iff_eq] at hmem
  exact ⟨mem_toList.mp hmem.1, hmem.2⟩

theorem after_eq_some (h : m.after k = some p) : m[p.1]? = some p.2 ∧ compare p.1 k = .gt := by
  have hmem := List.mem_of_head? h
  rw [List.mem_filter, beq_iff_eq] at hmem
  exact ⟨mem_toList.mp hmem.1, hmem.2⟩

/-- A key before `k` is not after the neighbour before `k`. -/
theorem exists_before (hq : m[q]? = some v) (hlt : compare q k = .lt) :
    ∃ p, m.before k = some p ∧ (q = p.1 ∨ compare q p.1 = .lt) := by
  have hmem : (q, v) ∈ m.toList.filter fun p => compare p.1 k == .lt := by
    rw [List.mem_filter, beq_iff_eq]
    exact ⟨mem_toList.mpr hq, hlt⟩
  have hsorted := (Std.ExtTreeMap.ordered_keys_toList (t := m)).filter
    fun p => compare p.1 k == .lt
  obtain ⟨p, hp⟩ : ∃ p, m.before k = some p :=
    ⟨_, List.getLast?_eq_some_getLast (List.ne_nil_of_mem hmem)⟩
  refine ⟨p, hp, ?_⟩
  obtain ⟨front, hfront⟩ := List.getLast?_eq_some_iff.mp hp
  rw [hfront, List.mem_append, List.mem_singleton] at hmem
  rw [hfront, List.pairwise_append] at hsorted
  rcases hmem with hmem | rfl
  · exact Or.inr (hsorted.2.2 _ hmem p List.mem_cons_self)
  · exact Or.inl rfl

/-- A key after `k` is not before the neighbour after `k`. -/
theorem exists_after (hq : m[q]? = some v) (hgt : compare q k = .gt) :
    ∃ p, m.after k = some p ∧ (q = p.1 ∨ compare p.1 q = .lt) := by
  have hmem : (q, v) ∈ m.toList.filter fun p => compare p.1 k == .gt := by
    rw [List.mem_filter, beq_iff_eq]
    exact ⟨mem_toList.mpr hq, hgt⟩
  have hsorted := (Std.ExtTreeMap.ordered_keys_toList (t := m)).filter
    fun p => compare p.1 k == .gt
  cases hlist : m.toList.filter fun p => compare p.1 k == .gt with
  | nil =>
      rw [hlist] at hmem
      cases hmem
  | cons p rest =>
      rw [hlist] at hmem hsorted
      refine ⟨p, by rw [after, hlist, List.head?_cons], ?_⟩
      rcases List.mem_cons.mp hmem with rfl | hmem
      · exact Or.inl rfl
      · exact Or.inr (List.rel_of_pairwise_cons hsorted hmem)

private theorem before_eq_of_congr {m' : Map K V}
    (h : ∀ q, compare q k = .lt → m[q]? = m'[q]?) (hp : m.before k = some p) :
    m'.before k = some p := by
  obtain ⟨hget, hlt⟩ := before_eq_some hp
  obtain ⟨p', hp', hle⟩ := exists_before ((h p.1 hlt).symm.trans hget) hlt
  obtain ⟨hget', hlt'⟩ := before_eq_some hp'
  obtain ⟨p'', hp'', hle'⟩ := exists_before ((h p'.1 hlt').trans hget') hlt'
  obtain rfl : p = p'' := Option.some.inj (hp.symm.trans hp'')
  have hkey : p.1 = p'.1 := by
    rcases hle with heq | hlt
    · exact heq
    · rcases hle' with heq' | hlt'
      · exact heq'.symm
      · rw [Std.OrientedOrd.eq_swap (a := p'.1), hlt] at hlt'
        cases hlt'
  have hval : p.2 = p'.2 := by
    rw [h _ hlt, hkey] at hget
    exact Option.some.inj (hget.symm.trans hget')
  rw [hp', Prod.ext hkey hval]

/-- The neighbour before a key depends only on the entries before it. -/
theorem before_congr {m' : Map K V} (h : ∀ q, compare q k = .lt → m[q]? = m'[q]?) :
    m.before k = m'.before k := by
  cases hm : m.before k with
  | some p => exact (before_eq_of_congr h hm).symm
  | none =>
      cases hm' : m'.before k with
      | none => rfl
      | some p =>
          rw [before_eq_of_congr (fun q hq => (h q hq).symm) hm'] at hm
          cases hm

private theorem after_eq_of_congr {m' : Map K V}
    (h : ∀ q, compare q k = .gt → m[q]? = m'[q]?) (hp : m.after k = some p) :
    m'.after k = some p := by
  obtain ⟨hget, hgt⟩ := after_eq_some hp
  obtain ⟨p', hp', hle⟩ := exists_after ((h p.1 hgt).symm.trans hget) hgt
  obtain ⟨hget', hgt'⟩ := after_eq_some hp'
  obtain ⟨p'', hp'', hle'⟩ := exists_after ((h p'.1 hgt').trans hget') hgt'
  obtain rfl : p = p'' := Option.some.inj (hp.symm.trans hp'')
  have hkey : p.1 = p'.1 := by
    rcases hle with heq | hlt
    · exact heq
    · rcases hle' with heq' | hlt'
      · exact heq'.symm
      · rw [Std.OrientedOrd.eq_swap (a := p.1), hlt] at hlt'
        cases hlt'
  have hval : p.2 = p'.2 := by
    rw [h _ hgt, hkey] at hget
    exact Option.some.inj (hget.symm.trans hget')
  rw [hp', Prod.ext hkey hval]

/-- The neighbour after a key depends only on the entries after it. -/
theorem after_congr {m' : Map K V} (h : ∀ q, compare q k = .gt → m[q]? = m'[q]?) :
    m.after k = m'.after k := by
  cases hm : m.after k with
  | some p => exact (after_eq_of_congr h hm).symm
  | none =>
      cases hm' : m'.after k with
      | none => rfl
      | some p =>
          rw [after_eq_of_congr (fun q hq => (h q hq).symm) hm'] at hm
          cases hm

end Lib.Map
