import Esc.Server.Operations

/-!
# The undo files of a block

`save_undo` keeps the first version that an account has in a block: the changed bit of the
account says that it has been saved.
-/

namespace Esc

open Lib

/-- Changed bit and saved version of an account after `save_undo`. -/
def savedSlot (changed : Bool) (saved : User) : Option User → Bool × User
  | none => (changed, saved)
  | some u => if changed then (true, saved) else (true, u)

theorem get_saveUndoUser (acc : Table Bool × Table User) (k uid : UInt32) (u : User)
    (h : uid.toNat < acc.1.size) :
    (saveUndoUser acc k u).1.size = acc.1.size ∧
      ((saveUndoUser acc k u).1.get uid.toNat, (saveUndoUser acc k u).2.get uid.toNat) =
        savedSlot (acc.1.get uid.toNat) (acc.2.get uid.toNat)
          (if uid = k then some u else none) := by
  rw [saveUndoUser]
  by_cases hk : uid = k
  · subst hk
    split
    · rename_i hbit
      exact ⟨rfl, by rw [if_pos rfl, savedSlot, hbit]; rfl⟩
    · rename_i hbit
      refine ⟨rfl, ?_⟩
      dsimp only
      rw [if_pos rfl, savedSlot, Table.get_set_self _ _ h, Table.get_write_self, if_neg hbit]
  · have hne : uid.toNat ≠ k.toNat := fun heq => hk (UInt32.toNat_inj.mp heq)
    rw [if_neg hk]
    split
    · exact ⟨rfl, rfl⟩
    · refine ⟨rfl, ?_⟩
      dsimp only
      rw [Table.get_set_ne _ _ hne, Table.get_write_ne _ _ hne]
      rfl

theorem size_foldl_saveUndoUser (undo : Map UInt32 User) (changed : Table Bool)
    (und : Table User) : (undo.foldl saveUndoUser (changed, und)).1.size = changed.size := by
  refine Map.foldl_invariant (fun _ (acc : Table Bool × Table User) =>
    acc.1.size = changed.size) rfl ?_
  intro pre k u acc _ _ hsize
  rw [saveUndoUser]
  split <;> exact hsize

/-- Each record of the map is saved when its account has not been saved before. -/
theorem get_foldl_saveUndoUser (undo : Map UInt32 User) (changed : Table Bool) (und : Table User)
    {uid : UInt32} (h : uid.toNat < changed.size) :
    ((undo.foldl saveUndoUser (changed, und)).1.get uid.toNat,
        (undo.foldl saveUndoUser (changed, und)).2.get uid.toNat) =
      savedSlot (changed.get uid.toNat) (und.get uid.toNat) undo[uid]? := by
  have hloop := Map.foldl_invariant (f := saveUndoUser) (m := undo) (s := (changed, und))
    (fun pre acc => acc.1.size = changed.size ∧
      (uid ∉ pre.map Prod.fst → (acc.1.get uid.toNat, acc.2.get uid.toNat) =
        savedSlot (changed.get uid.toNat) (und.get uid.toNat) none) ∧
      ∀ u, (uid, u) ∈ pre → (acc.1.get uid.toNat, acc.2.get uid.toNat) =
        savedSlot (changed.get uid.toNat) (und.get uid.toNat) (some u))
    ⟨rfl, fun _ => rfl, by simp⟩ ?_
  · obtain ⟨-, hout, hin⟩ := hloop
    cases hu : undo[uid]? with
    | none =>
        refine hout fun hmem => ?_
        obtain ⟨⟨k, u⟩, hku, rfl⟩ := List.mem_map.mp hmem
        rw [Map.mem_toList.mp hku] at hu
        cases hu
    | some u => exact hin u (Map.mem_toList.mpr hu)
  · rintro pre k u acc hk - ⟨hsize, hout, hin⟩
    obtain ⟨hsize', hget⟩ := get_saveUndoUser acc k uid u (hsize ▸ h)
    refine ⟨hsize'.trans hsize, fun hmem => ?_, fun v hv => ?_⟩
    · rw [List.map_append, List.mem_append, not_or] at hmem
      have hne : uid ≠ k := fun heq => hmem.2 (by simp [heq])
      rw [hget, if_neg hne]
      exact hout hmem.1
    · rcases List.mem_append.mp hv with hv | hv
      · have hne : uid ≠ k := fun heq => hk (heq ▸ List.mem_map.mpr ⟨(uid, v), hv, rfl⟩)
        rw [hget, if_neg hne]
        exact hin v hv
      · obtain ⟨rfl, rfl⟩ := Prod.mk.inj (List.mem_singleton.mp hv)
        obtain ⟨hchanged, hsaved⟩ := Prod.mk.inj (hout hk)
        rw [hget, if_pos rfl, hchanged, hsaved]

end Esc
