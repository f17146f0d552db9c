import Mathlib.Data.List.Nodup
import Mathlib.Data.Set.Function

/-!
# Hash chains with restarts

A chain of digests. A restart hashes a seed, and a link hashes the last digest together
with a payload. When the inputs of a chain do not collide, a digest can come back only
by a restart with a seed that was used before.
-/

namespace Lib

universe u v w z

/-- How inputs are made from seeds and from digests. They can be told apart, and an input
determines its seed or its digest. -/
structure ChainFormat (S : Type u) (P : Type v) (A : Type w) (D : Type z) where
  seed : S → A
  link : D → P → A
  seed_inj : Function.Injective seed
  link_inj : ∀ {d d' : D} {p p' : P}, link d p = link d' p' → d = d'
  seed_ne_link : ∀ (s : S) (d : D) (p : P), seed s ≠ link d p

variable {S : Type u} {P : Type v} {A : Type w} {D : Type z}

/-- A chain with its seeds, the digests that were linked, all inputs, and the last
digest. -/
inductive HashChain (F : ChainFormat S P A D) (hash : A → D) :
    List S → List D → List A → D → Prop where
  | start (s : S) : HashChain F hash [s] [] [F.seed s] (hash (F.seed s))
  | restart {seeds : List S} {linked : List D} {inputs : List A} {d : D} (s : S)
      (h : HashChain F hash seeds linked inputs d) :
      HashChain F hash (seeds ++ [s]) linked (inputs ++ [F.seed s]) (hash (F.seed s))
  | link {seeds : List S} {linked : List D} {inputs : List A} {d : D} (p : P)
      (h : HashChain F hash seeds linked inputs d) :
      HashChain F hash seeds (linked ++ [d]) (inputs ++ [F.link d p]) (hash (F.link d p))

namespace HashChain

variable {F : ChainFormat S P A D} {hash : A → D} {seeds : List S} {linked : List D}
  {inputs : List A} {d : D}

/-- The digests before the last one contain those that were linked, and every input was
made from one of them or from a seed. -/
theorem exists_front (h : HashChain F hash seeds linked inputs d) :
    ∃ front, inputs.map hash = front ++ [d] ∧ linked.Sublist front ∧
      ∀ x ∈ inputs, (∃ s ∈ seeds, x = F.seed s) ∨ ∃ d' ∈ front, ∃ p, x = F.link d' p := by
  induction h with
  | start s => exact ⟨[], rfl, List.nil_sublist _, by simp⟩
  | @restart seeds linked inputs d s _ ih =>
      obtain ⟨front, hmap, hlinked, hinputs⟩ := ih
      refine ⟨front ++ [d], by simp [hmap], hlinked.trans (List.sublist_append_left ..), ?_⟩
      intro x hx
      rcases List.mem_append.mp hx with hx | hx
      · obtain ⟨s', hs', rfl⟩ | ⟨d', hd', p, rfl⟩ := hinputs x hx
        · exact Or.inl ⟨s', List.mem_append_left _ hs', rfl⟩
        · exact Or.inr ⟨d', List.mem_append_left _ hd', p, rfl⟩
      · exact Or.inl ⟨s, by simp, List.mem_singleton.mp hx⟩
  | @link seeds linked inputs d p _ ih =>
      obtain ⟨front, hmap, hlinked, hinputs⟩ := ih
      refine ⟨front ++ [d], by simp [hmap], hlinked.append (.refl _), ?_⟩
      intro x hx
      rcases List.mem_append.mp hx with hx | hx
      · obtain ⟨s', hs', rfl⟩ | ⟨d', hd', p', rfl⟩ := hinputs x hx
        · exact Or.inl ⟨s', hs', rfl⟩
        · exact Or.inr ⟨d', List.mem_append_left _ hd', p', rfl⟩
      · exact Or.inr ⟨d, by simp, p, List.mem_singleton.mp hx⟩

/-- Without collisions and with different seeds all inputs are different. -/
theorem nodup_inputs (h : HashChain F hash seeds linked inputs d) (hseeds : seeds.Nodup)
    (hfree : Set.InjOn hash {x | x ∈ inputs}) : inputs.Nodup := by
  induction h with
  | start s => exact List.nodup_singleton _
  | @restart seeds linked inputs d s hchain ih =>
      obtain ⟨hseeds, -, hnew⟩ := List.nodup_append.mp hseeds
      have hold := ih hseeds (hfree.mono fun x hx => List.mem_append_left _ hx)
      refine List.nodup_append.mpr ⟨hold, List.nodup_singleton _, ?_⟩
      rintro x hx _ hy rfl
      obtain rfl := List.mem_singleton.mp hy
      obtain ⟨front, -, -, hinputs⟩ := hchain.exists_front
      obtain ⟨s', hs', heq⟩ | ⟨d', -, p, heq⟩ := hinputs _ hx
      · exact hnew s' hs' s List.mem_cons_self (F.seed_inj heq).symm
      · exact F.seed_ne_link s d' p heq
  | @link seeds linked inputs d p hchain ih =>
      have hfree' : Set.InjOn hash {x | x ∈ inputs} :=
        hfree.mono fun x hx => List.mem_append_left _ hx
      have hold := ih hseeds hfree'
      refine List.nodup_append.mpr ⟨hold, List.nodup_singleton _, ?_⟩
      rintro x hx _ hy rfl
      obtain rfl := List.mem_singleton.mp hy
      obtain ⟨front, hmap, -, hinputs⟩ := hchain.exists_front
      obtain ⟨s', -, heq⟩ | ⟨d', hd', p', heq⟩ := hinputs _ hx
      · exact F.seed_ne_link s' d p heq.symm
      · -- the last digest would have occurred before
        have hdigests : (front ++ [d]).Nodup := hmap ▸ hold.map_on fun x hx y hy => hfree' hx hy
        obtain rfl := F.link_inj heq
        exact (List.nodup_append.mp hdigests).2.2 d hd' d List.mem_cons_self rfl

/-- Each digest is linked at most once. -/
theorem nodup_linked (h : HashChain F hash seeds linked inputs d) (hseeds : seeds.Nodup)
    (hfree : Set.InjOn hash {x | x ∈ inputs}) : linked.Nodup := by
  obtain ⟨front, hmap, hlinked, -⟩ := h.exists_front
  have hdigests : (front ++ [d]).Nodup :=
    hmap ▸ (h.nodup_inputs hseeds hfree).map_on fun x hx y hy => hfree hx hy
  exact (List.nodup_append.mp hdigests).1.sublist hlinked

end HashChain

end Lib
