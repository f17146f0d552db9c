import Esc.Lib.Loop
import Esc.Lib.Table
import Mathlib

/-!
# Ordered maps with a default value

`Map` is the extensional ordered map with the comparison of the key type, so two
maps with the same lookups are equal and `toList` lists the entries in key order.
`val` and `adjust` are the two uses of the index operator of an ordered map in an
imperative program: read the value or the default, and update it in place.

A loop over one map that updates another is `merge`, and one that writes the
entries into a table is `Table.writeAll`. Sums over the entries are `total`.
-/

namespace Lib

universe u v

/-- Ordered maps; iteration is in key order. -/
abbrev Map (K : Type u) (V : Type v) [Ord K] := Std.ExtTreeMap K V compare

namespace Map

variable {K : Type u} {V W : Type v} [Ord K] [Std.TransOrd K]

/-- The value at a key, or the default when the key is absent. -/
def val [Inhabited V] (m : Map K V) (k : K) : V := m[k]?.getD default

/-- Replace the value at a key by a function of the old value or the default. -/
def adjust [Inhabited V] (m : Map K V) (k : K) (f : V → V) : Map K V := m.insert k (f (m.val k))

/-- Update one map at every key of another, in key order. -/
def merge [Inhabited V] (f : V → W → V) (m : Map K V) (t : Map K W) : Map K V :=
  t.foldl (fun m k w => m.adjust k (fun v => f v w)) m

@[simp] theorem getElem?_insert_same (m : Map K V) (k : K) (v : V) :
    (m.insert k v)[k]? = some v :=
  Std.ExtTreeMap.getElem?_insert_self

@[simp] theorem val_empty [Inhabited V] (k : K) : (∅ : Map K V).val k = default := by
  simp [val]

theorem val_of_getElem? [Inhabited V] {m : Map K V} {k : K} {v : V} (h : m[k]? = some v) :
    m.val k = v := by
  simp [val, h]

theorem mem_of_getElem? {m : Map K V} {k : K} {v : V} (h : m[k]? = some v) : k ∈ m := by
  rw [Std.ExtTreeMap.mem_iff_isSome_getElem?, h]
  rfl

variable [Std.LawfulEqOrd K]

theorem getElem?_insert [DecidableEq K] (m : Map K V) (k a : K) (v : V) :
    (m.insert k v)[a]? = if a = k then some v else m[a]? := by
  rw [Std.ExtTreeMap.getElem?_insert]
  simp only [Std.compare_eq_iff_eq, eq_comm (a := k)]

theorem getElem?_insertIfNew [DecidableEq K] (m : Map K V) (k a : K) (v : V) :
    (m.insertIfNew k v)[a]? = if a = k then some (m[k]?.getD v) else m[a]? := by
  rw [Std.ExtTreeMap.getElem?_insertIfNew]
  simp only [Std.compare_eq_iff_eq, eq_comm (a := k)]
  by_cases ha : a = k
  · subst ha
    cases hk : m[a]? with
    | none =>
        have hmem : a ∉ m := by
          rw [Std.ExtTreeMap.mem_iff_isSome_getElem?, hk]
          simp
        simp [hmem]
    | some u =>
        have hmem : a ∈ m := by
          rw [Std.ExtTreeMap.mem_iff_isSome_getElem?, hk]
          rfl
        simp [hmem]
  · simp [ha]

theorem getElem?_insert_ne (m : Map K V) {k a : K} (v : V) (h : a ≠ k) :
    (m.insert k v)[a]? = m[a]? := by
  rw [Std.ExtTreeMap.getElem?_insert, if_neg]
  rw [Std.compare_eq_iff_eq]
  exact fun hk => h hk.symm

theorem getElem?_erase [DecidableEq K] (m : Map K V) (k a : K) :
    (m.erase k)[a]? = if a = k then none else m[a]? := by
  rw [Std.ExtTreeMap.getElem?_erase]
  simp only [Std.compare_eq_iff_eq, eq_comm (a := k)]

theorem getElem?_adjust [Inhabited V] [DecidableEq K] (m : Map K V) (k a : K) (f : V → V) :
    (m.adjust k f)[a]? = if a = k then some (f (m.val k)) else m[a]? :=
  getElem?_insert m k a _

theorem val_adjust [Inhabited V] [DecidableEq K] (m : Map K V) (k a : K) (f : V → V) :
    (m.adjust k f).val a = if a = k then f (m.val k) else m.val a := by
  unfold val
  rw [getElem?_adjust]
  split <;> rfl

theorem val_adjust_ne [Inhabited V] (m : Map K V) {k a : K} (f : V → V) (h : a ≠ k) :
    (m.adjust k f).val a = m.val a := by
  unfold val adjust
  rw [getElem?_insert_ne m _ h]

/-- The keys of an entry list are pairwise different. -/
theorem nodup_keys (m : Map K V) : (m.toList.map Prod.fst).Nodup := by
  rw [List.Nodup, List.pairwise_map]
  refine List.Pairwise.imp ?_ (Std.ExtTreeMap.distinct_keys_toList (t := m))
  intro a b h hab
  exact h (Std.compare_eq_iff_eq.mpr hab)

theorem mem_toList {m : Map K V} {p : K × V} : p ∈ m.toList ↔ m[p.1]? = some p.2 :=
  Std.ExtTreeMap.mem_toList_iff_getElem?_eq_some

/-- Invariant rule for a loop over the entries of a map: each key is met once. -/
theorem foldl_invariant {σ : Type u} {f : σ → K → V → σ} {m : Map K V}
    (P : List (K × V) → σ → Prop) {s : σ} (hinit : P [] s)
    (hstep : ∀ pre k v s, k ∉ pre.map Prod.fst → m[k]? = some v → P pre s →
      P (pre ++ [(k, v)]) (f s k v)) : P m.toList (m.foldl f s) := by
  rw [Std.ExtTreeMap.foldl_eq_foldl_toList]
  refine Lib.foldl_invariant P hinit ?_
  intro pre t post s hsplit hpre
  refine hstep pre t.1 t.2 s ?_ (mem_toList.mp ?_) hpre
  · have hnodup := nodup_keys m
    rw [← hsplit, List.map_append, List.map_cons] at hnodup
    intro hmem
    exact (List.nodup_append.mp hnodup).2.2 t.1 hmem t.1 List.mem_cons_self rfl
  · rw [← hsplit]
    exact List.mem_append_right pre List.mem_cons_self

theorem mem_insert_iff {m : Map K V} {k a : K} {v : V} : a ∈ m.insert k v ↔ a = k ∨ a ∈ m := by
  rw [Std.ExtTreeMap.mem_insert, Std.compare_eq_iff_eq]
  exact or_congr_left eq_comm

/-- A union with one more entry on its left. -/
theorem size_insert_union (m m' : Map K V) (k : K) (v : V) :
    (m.insert k v ∪ m').size = (m ∪ m').size + if k ∈ m ∪ m' then 0 else 1 := by
  classical
  by_cases hk : k ∈ m'
  · have hunion : m.insert k v ∪ m' = m ∪ m' := by
      refine Std.ExtTreeMap.ext_getElem? fun a => ?_
      rw [Std.ExtTreeMap.getElem?_union, Std.ExtTreeMap.getElem?_union, getElem?_insert]
      by_cases ha : a = k
      · obtain ⟨w, hw⟩ := Option.isSome_iff_exists.mp (Std.ExtTreeMap.mem_iff_isSome_getElem?.mp hk)
        rw [ha, hw, Option.some_or, Option.some_or]
      · rw [if_neg ha]
    rw [hunion, if_pos (Std.ExtTreeMap.mem_union_of_right hk), Nat.add_zero]
  · have hunion : m.insert k v ∪ m' = (m ∪ m').insert k v := by
      refine Std.ExtTreeMap.ext_getElem? fun a => ?_
      rw [Std.ExtTreeMap.getElem?_union, getElem?_insert, getElem?_insert,
        Std.ExtTreeMap.getElem?_union]
      by_cases ha : a = k
      · rw [ha, Std.ExtTreeMap.getElem?_eq_none hk, if_pos rfl, if_pos rfl, Option.none_or]
      · rw [if_neg ha, if_neg ha]
    rw [hunion, Std.ExtTreeMap.size_insert]
    by_cases hmem : k ∈ m ∪ m'
    · rw [if_pos hmem, if_pos (Std.ExtTreeMap.mem_iff_contains.mp hmem), Nat.add_zero]
    · rw [if_neg hmem, if_neg (mt Std.ExtTreeMap.mem_iff_contains.mpr hmem)]

theorem val_erase [Inhabited V] [DecidableEq K] (m : Map K V) (k a : K) :
    val (m.erase k) a = if a = k then default else m.val a := by
  rw [val, getElem?_erase]
  split <;> rfl

/-- A map without the keys of a list of entries. -/
def without (m : Map K V) (xs : List (K × V)) : Map K V := xs.foldl (fun m p => m.erase p.1) m

omit [Std.LawfulEqOrd K] in
theorem without_concat (m : Map K V) (xs : List (K × V)) (p : K × V) :
    m.without (xs ++ [p]) = (m.without xs).erase p.1 :=
  List.foldl_concat _ _ _ _

theorem getElem?_without [DecidableEq K] (m : Map K V) (xs : List (K × V)) (a : K) :
    (m.without xs)[a]? = if a ∈ xs.map Prod.fst then none else m[a]? := by
  induction xs using List.reverseRecOn with
  | nil => rfl
  | append_singleton xs p ih =>
      rw [without_concat, getElem?_erase, ih]
      simp only [List.map_append, List.map_singleton, List.mem_append, List.mem_singleton]
      by_cases ha : a = p.1
      · rw [if_pos ha, if_pos (Or.inr ha)]
      · by_cases hmem : a ∈ xs.map Prod.fst
        · rw [if_neg ha, if_pos hmem, if_pos (Or.inl hmem)]
        · rw [if_neg ha, if_neg hmem, if_neg (by tauto)]

theorem without_toList (m : Map K V) : m.without m.toList = ∅ := by
  classical
  refine Std.ExtTreeMap.ext_getElem? fun a => ?_
  rw [getElem?_without, Std.ExtTreeMap.getElem?_empty]
  split
  · rfl
  · rename_i hmem
    cases h : m[a]? with
    | none => rfl
    | some v => exact absurd (List.mem_map.mpr ⟨(a, v), mem_toList.mpr h, rfl⟩) hmem

/-- Removing a present key takes its entry out of the entry list. -/
theorem toList_perm_cons {m : Map K V} {k : K} {v : V} (h : m[k]? = some v) :
    m.toList.Perm ((k, v) :: (m.erase k).toList) := by
  classical
  have hnodup : ((k, v) :: (m.erase k).toList).Nodup := by
    refine List.nodup_cons.mpr ⟨?_, (nodup_keys _).of_map⟩
    rw [mem_toList, getElem?_erase]
    simp
  refine (List.perm_ext_iff_of_nodup (nodup_keys m).of_map hnodup).mpr ?_
  rintro ⟨a, w⟩
  rw [mem_toList, List.mem_cons, mem_toList, getElem?_erase]
  rcases eq_or_ne a k with rfl | ha
  · simp [h, eq_comm]
  · simp [ha]

section Total

variable {M : Type*} [AddCommGroup M]

/-- Sum of a quantity over all entries. -/
def total (f : K → V → M) (m : Map K V) : M := (m.toList.map fun p => f p.1 p.2).sum

omit [Std.LawfulEqOrd K] in
@[simp] theorem total_empty (f : K → V → M) : total f (∅ : Map K V) = 0 := by
  have hnil : (∅ : Map K V).toList = [] := Std.ExtTreeMap.toList_eq_nil_iff.mpr rfl
  simp [total, hnil]

omit [Std.LawfulEqOrd K] in
theorem total_add (f g : K → V → M) (m : Map K V) :
    total (fun k v => f k v + g k v) m = total f m + total g m := List.sum_map_add

theorem total_erase (f : K → V → M) {m : Map K V} {k : K} {v : V} (h : m[k]? = some v) :
    total f (m.erase k) = total f m - f k v := by
  have hsum := ((toList_perm_cons h).map fun p => f p.1 p.2).sum_eq
  rw [List.map_cons, List.sum_cons] at hsum
  unfold total
  rw [hsum]
  abel

theorem erase_insert (m : Map K V) (k : K) (v : V) : (m.insert k v).erase k = m.erase k := by
  classical
  refine Std.ExtTreeMap.ext_getElem? fun a => ?_
  rw [getElem?_erase, getElem?_erase, getElem?_insert]
  split <;> rfl

theorem erase_of_none {m : Map K V} {k : K} (h : m[k]? = none) : m.erase k = m := by
  classical
  refine Std.ExtTreeMap.ext_getElem? fun a => ?_
  rw [getElem?_erase]
  split
  · rename_i hak
    rw [hak, h]
  · rfl

/-- A write changes the total by the new entry less the old one. -/
theorem total_insert (f : K → V → M) (m : Map K V) (k : K) (v : V) :
    total f (m.insert k v) = total f m - (m[k]?.elim 0 (f k)) + f k v := by
  have hnew := total_erase f (getElem?_insert_same m k v)
  rw [erase_insert] at hnew
  have hins : total f (m.insert k v) = total f (m.erase k) + f k v := by
    rw [hnew]
    abel
  cases h : m[k]? with
  | none => rw [hins, erase_of_none h, Option.elim_none, sub_zero]
  | some w => rw [hins, total_erase f h, Option.elim_some]

theorem total_adjust [Inhabited V] {f : K → V → M} (m : Map K V) (k : K) (g : V → V)
    (h0 : f k default = 0) :
    total f (m.adjust k g) = total f m - f k (m.val k) + f k (g (m.val k)) := by
  rw [adjust, total_insert]
  cases h : m[k]? with
  | none => simp [val, h, h0]
  | some v => simp [val, h]

private theorem total_foldl_adjust [Inhabited V] {f : K → V → M} {h : K → W → M} (g : V → W → V)
    (m : Map K V) (xs : List (K × W)) (hxs : (xs.map Prod.fst).Nodup)
    (h0 : ∀ k, f k default = 0)
    (hfg : ∀ p ∈ xs, f p.1 (g (m.val p.1) p.2) = f p.1 (m.val p.1) + h p.1 p.2) :
    total f (xs.foldl (fun m p => m.adjust p.1 (fun v => g v p.2)) m) =
      total f m + (xs.map fun p => h p.1 p.2).sum := by
  induction xs generalizing m with
  | nil => simp
  | cons p xs ih =>
      obtain ⟨hp, hrest⟩ := List.nodup_cons.mp hxs
      rw [List.foldl_cons, ih _ hrest, total_adjust m p.1 _ (h0 p.1), hfg p List.mem_cons_self,
        List.map_cons, List.sum_cons]
      · abel
      · intro q hq
        have hne : q.1 ≠ p.1 := fun hqp => hp (hqp ▸ List.mem_map_of_mem (f := Prod.fst) hq)
        rw [val_adjust_ne m _ hne]
        exact hfg q (List.mem_cons_of_mem _ hq)

/-- A loop that adds the entries of `t` adds the total of `t`. -/
theorem total_merge [Inhabited V] {f : K → V → M} {h : K → W → M} (g : V → W → V) (m : Map K V)
    (t : Map K W) (h0 : ∀ k, f k default = 0)
    (hfg : ∀ k w, t[k]? = some w → f k (g (m.val k) w) = f k (m.val k) + h k w) :
    total f (merge g m t) = total f m + total h t := by
  rw [merge, Std.ExtTreeMap.foldl_eq_foldl_toList]
  exact total_foldl_adjust g m t.toList (nodup_keys t) h0 fun p hp => hfg p.1 p.2 (mem_toList.mp hp)

/-- The total is a sum over any set that contains the keys. -/
theorem total_eq_sum [Inhabited V] [DecidableEq K] {f : K → V → M} (m : Map K V)
    (h0 : ∀ k, f k default = 0) {S : Finset K} (hS : ∀ k v, m[k]? = some v → k ∈ S) :
    total f m = ∑ k ∈ S, f k (m.val k) := by
  have hkeys : ∑ k ∈ (m.toList.map Prod.fst).toFinset, f k (m.val k) = total f m := by
    rw [List.sum_toFinset _ (nodup_keys m), List.map_map, total]
    refine congrArg List.sum (List.map_congr_left fun p hp => ?_)
    rw [Function.comp_apply, val_of_getElem? (mem_toList.mp hp)]
  rw [← hkeys]
  refine Finset.sum_subset ?_ ?_
  · intro k hk
    obtain ⟨p, hp, rfl⟩ := List.mem_map.mp (List.mem_toFinset.mp hk)
    exact hS p.1 p.2 (mem_toList.mp hp)
  · intro k _ hk
    have hnone : m[k]? = none := by
      rw [Option.eq_none_iff_forall_not_mem]
      intro v hv
      exact hk (List.mem_toFinset.mpr (List.mem_map.mpr ⟨(k, v), mem_toList.mpr hv, rfl⟩))
    have hval : m.val k = default := by rw [val, hnone]; rfl
    rw [hval, h0]

/-- Maps with the same values have the same total; entries with the default count
nothing. -/
theorem total_congr [Inhabited V] {f : K → V → M} {m m' : Map K V} (h0 : ∀ k, f k default = 0)
    (h : ∀ k, m'.val k = m.val k) : total f m' = total f m := by
  classical
  have hmem : ∀ (n : Map K V) k v, n[k]? = some v → k ∈ (n.toList.map Prod.fst).toFinset :=
    fun n k v hv => List.mem_toFinset.mpr (List.mem_map.mpr ⟨(k, v), mem_toList.mpr hv, rfl⟩)
  rw [total_eq_sum m' h0 (S := (m.toList.map Prod.fst).toFinset ∪ (m'.toList.map Prod.fst).toFinset)
      fun k v hv => Finset.mem_union_right _ (hmem m' k v hv),
    total_eq_sum m h0 fun k v hv => Finset.mem_union_left _ (hmem m k v hv)]
  exact Finset.sum_congr rfl fun k _ => by rw [h]

/-- Maps that differ in one value. -/
theorem total_of_val [Inhabited V] [DecidableEq K] {f : K → V → M} {m m' : Map K V}
    (h0 : ∀ k, f k default = 0) {k : K} {v : V}
    (h : ∀ a, m'.val a = if a = k then v else m.val a) :
    total f m' = total f m - f k (m.val k) + f k v := by
  have hadjust : total f m' = total f (m.adjust k fun _ => v) := by
    refine total_congr h0 fun a => ?_
    rw [h, val_adjust]
  rw [hadjust, total_adjust m k _ (h0 k)]

end Total

section Bounds

variable {f : K → V → ℤ} {m : Map K V}

theorem total_nonneg (hf : ∀ k v, m[k]? = some v → 0 ≤ f k v) : 0 ≤ total f m := by
  rw [total]
  apply List.sum_nonneg
  intro x hx
  obtain ⟨p, hp, rfl⟩ := List.mem_map.mp hx
  exact hf p.1 p.2 (mem_toList.mp hp)

/-- One entry is at most the total. -/
theorem le_total (hf : ∀ k v, m[k]? = some v → 0 ≤ f k v) {k : K} {v : V} (h : m[k]? = some v) :
    f k v ≤ total f m := by
  classical
  have hrest : 0 ≤ total f (m.erase k) := by
    refine total_nonneg fun a w ha => ?_
    rw [getElem?_erase] at ha
    split at ha
    · cases ha
    · exact hf a w ha
  rw [total_erase f h] at hrest
  omega

variable [Inhabited V]

theorem val_le_total (hf : ∀ k v, m[k]? = some v → 0 ≤ f k v) {k : K} (h0 : f k default = 0) :
    f k (m.val k) ≤ total f m := by
  cases h : m[k]? with
  | none =>
      have hval : m.val k = default := by simp [val, h]
      rw [hval, h0]
      exact total_nonneg hf
  | some v =>
      rw [val_of_getElem? h]
      exact le_total hf h

end Bounds

end Map

namespace Table

variable {K : Type u} {V : Type v} [Ord K] [Std.TransOrd K] [Inhabited V]

/-- Write every entry of a map at the place of its key. -/
def writeAll (t : Table V) (index : K → Nat) (m : Map K V) : Table V :=
  m.foldl (fun t k v => t.write (index k) v) t

omit [Ord K] [Std.TransOrd K] in
private theorem get_foldl_write_of_not_mem (index : K → Nat) (t : Table V) (xs : List (K × V))
    {i : Nat} (hi : ∀ p ∈ xs, index p.1 ≠ i) :
    (xs.foldl (fun t p => t.write (index p.1) p.2) t).get i = t.get i := by
  induction xs generalizing t with
  | nil => rfl
  | cons p xs ih =>
      rw [List.foldl_cons, ih _ fun q hq => hi q (List.mem_cons_of_mem _ hq)]
      exact get_write_ne t _ (hi p List.mem_cons_self).symm

omit [Ord K] [Std.TransOrd K] in
private theorem get_foldl_write_of_mem {index : K → Nat} (hindex : Function.Injective index)
    (t : Table V) (xs : List (K × V)) {k : K} {v : V} (hxs : (xs.map Prod.fst).Nodup)
    (hk : (k, v) ∈ xs) :
    (xs.foldl (fun t p => t.write (index p.1) p.2) t).get (index k) = v := by
  induction xs generalizing t with
  | nil => cases hk
  | cons p xs ih =>
      obtain ⟨hp, hrest⟩ := List.nodup_cons.mp hxs
      rcases List.mem_cons.mp hk with rfl | hmem
      · rw [List.foldl_cons, get_foldl_write_of_not_mem index _ xs, get_write_self]
        intro q hq hqk
        have hmem : q.1 ∈ xs.map Prod.fst := List.mem_map_of_mem hq
        exact hp (hindex hqk ▸ hmem)
      · rw [List.foldl_cons, ih _ hrest hmem]

/-- The table after the writes: the entry of the map where it has the key, the old
record elsewhere. -/
theorem get_writeAll [Std.LawfulEqOrd K] {index : K → Nat} (hindex : Function.Injective index)
    (t : Table V) (m : Map K V) (k : K) :
    (t.writeAll index m).get (index k) = m[k]?.getD (t.get (index k)) := by
  unfold writeAll
  rw [Std.ExtTreeMap.foldl_eq_foldl_toList]
  cases h : m[k]? with
  | none =>
      refine get_foldl_write_of_not_mem index t m.toList ?_
      intro p hp hpk
      rw [Map.mem_toList, hindex hpk, h] at hp
      cases hp
  | some v =>
    exact get_foldl_write_of_mem hindex t m.toList (Map.nodup_keys m) (Map.mem_toList.mpr h)

theorem size_le_writeAll (index : K → Nat) (t : Table V) (m : Map K V) :
    t.size ≤ (t.writeAll index m).size := by
  unfold writeAll
  rw [Std.ExtTreeMap.foldl_eq_foldl_toList]
  induction m.toList generalizing t with
  | nil => exact le_rfl
  | cons p xs ih => exact le_trans (le_max_left t.size _) (ih (t.write (index p.1) p.2))

end Table

end Lib
