import Mathlib.Data.List.Rotate

/-!
# The peers that know a message

A message keeps the nodes from which it can be requested, in the order in which they were added.
A node is removed by writing zero over it, and the next one to be added takes the last free place.

`fillknown` announces a message of this node with all active peers, starting each time with
another one. The loops of the source add the peer they start with in every round.
-/

namespace Esc

variable {p : UInt16} {know : List UInt16}

/-- The keys of `m_activePeers`, a map from the peers' node ids. -/
structure ActivePeers where
  svids : List UInt16
  sorted : svids.Pairwise (· < ·)

/-- The scan of `know_insert_`: nothing if the node is found, and otherwise the last free place. -/
def knowScan (p : UInt16) : List UInt16 → Nat → Option Nat → Option (Option Nat)
  | [], _, n => some n
  | k :: ks, i, n => if k = p then none else knowScan p ks (i + 1) (if k = 0 then some i else n)

/-- `know_insert_`. -/
def knowInsert (know : List UInt16) (p : UInt16) : List UInt16 :=
  match knowScan p know 0 none with
  | none => know
  | some (some n) => know.set n p
  | some none => know ++ [p]

/-- `PeerConnectManager::fillknown`, with the counter it keeps. -/
def fillknown (peers : ActivePeers) (know : List UInt16) (r : UInt32) : List UInt16 × UInt32 :=
  let i := r.toNat % peers.svids.length
  match peers.svids[i]? with
  | none => (know, r)
  | some pi =>
    let know := (peers.svids.drop i).foldl (fun know _ => knowInsert know pi) know
    let know := (peers.svids.take i).foldl (fun know _ => knowInsert know pi) know
    (know, r + 1)

/-! ### One insertion -/

theorem knowScan_of_mem {ks : List UInt16} (h : p ∈ ks) (i : Nat) (n : Option Nat) :
    knowScan p ks i n = none := by
  induction ks generalizing i n with
  | nil => cases h
  | cons k ks ih =>
    rw [knowScan]
    split
    · rfl
    · rename_i hk
      apply ih
      exact (List.mem_cons.mp h).resolve_left fun hp => hk hp.symm

theorem knowScan_of_not_mem {ks : List UInt16} (h : p ∉ ks) (i : Nat) (n : Option Nat) :
    0 ∉ ks ∧ knowScan p ks i n = some n ∨
      ∃ a b, ks = a ++ 0 :: b ∧ knowScan p ks i n = some (some (i + a.length)) := by
  induction ks generalizing i n with
  | nil => exact .inl ⟨List.not_mem_nil, rfl⟩
  | cons k ks ih =>
    obtain ⟨hk, hks⟩ := not_or.mp (mt List.mem_cons.mpr h)
    rw [knowScan, if_neg fun hp => hk hp.symm]
    obtain ⟨hfree, hscan⟩ | ⟨a, b, rfl, hscan⟩ := ih hks (i + 1) (if k = 0 then some i else n)
    · by_cases hzero : k = 0
      · refine .inr ⟨[], ks, by rw [hzero]; rfl, ?_⟩
        rw [hscan, if_pos hzero]
        rfl
      · refine .inl ⟨?_, by rw [hscan, if_neg hzero]⟩
        rw [List.mem_cons, not_or]
        exact ⟨fun h0 => hzero h0.symm, hfree⟩
    · refine .inr ⟨k :: a, b, rfl, ?_⟩
      rw [hscan, List.length_cons]
      congr 2
      omega

theorem knowInsert_of_mem (h : p ∈ know) : knowInsert know p = know := by
  rw [knowInsert, knowScan_of_mem h]

/-- A new node takes a free place, or is put at the end if there is none. -/
theorem knowInsert_of_not_mem (h : p ∉ know) :
    0 ∉ know ∧ knowInsert know p = know ++ [p] ∨
      ∃ a b, know = a ++ 0 :: b ∧ knowInsert know p = a ++ p :: b := by
  obtain ⟨hfree, hscan⟩ | ⟨a, b, rfl, hscan⟩ := knowScan_of_not_mem h 0 none
  · exact .inl ⟨hfree, by rw [knowInsert, hscan]⟩
  · refine .inr ⟨a, b, rfl, ?_⟩
    rw [knowInsert, hscan]
    simp

/-- The nodes that are in the list after `p` has been added. -/
theorem mem_knowInsert {q : UInt16} :
    q ∈ knowInsert know p ↔ q = p ∨ q ∈ if p ∈ know then know else know.erase 0 := by
  by_cases h : p ∈ know
  · rw [knowInsert_of_mem h, if_pos h]
    exact ⟨.inr, fun hq => hq.elim (fun hp => hp ▸ h) id⟩
  · rw [if_neg h]
    obtain ⟨hfree, hinsert⟩ | ⟨a, b, rfl, hinsert⟩ := knowInsert_of_not_mem h
    · rw [hinsert, List.erase_of_not_mem hfree, List.mem_append, List.mem_singleton, or_comm]
    · have hmiddle : (a ++ 0 :: b).Perm (0 :: (a ++ b)) := List.perm_middle
      have herase := hmiddle.erase 0
      rw [List.erase_cons_head] at herase
      rw [hinsert, herase.mem_iff, List.mem_append, List.mem_cons, List.mem_append]
      exact or_left_comm

/-- The places of a list, those in use counted twice. -/
def knowWeight (know : List UInt16) : Nat :=
  know.length + know.countP (· ≠ 0)

theorem knowWeight_lt (h : p ∉ know) : knowWeight know < knowWeight (knowInsert know p) := by
  obtain ⟨_, hinsert⟩ | ⟨a, b, rfl, hinsert⟩ := knowInsert_of_not_mem h
  · rw [hinsert, knowWeight, knowWeight, List.length_append, List.countP_append,
      List.length_singleton]
    omega
  · have hp : p ≠ 0 := fun h0 => h (h0 ▸ List.mem_append_right a List.mem_cons_self)
    rw [hinsert]
    simp [knowWeight, List.countP_append, hp]

theorem knowWeight_le (know : List UInt16) (p : UInt16) :
    knowWeight know ≤ knowWeight (knowInsert know p) := by
  by_cases h : p ∈ know
  · rw [knowInsert_of_mem h]
  · exact (knowWeight_lt h).le

/-! ### The insertions of `fillknown` -/

theorem knowWeight_le_foldl (know ps : List UInt16) :
    knowWeight know ≤ knowWeight (ps.foldl knowInsert know) := by
  induction ps generalizing know with
  | nil => exact le_rfl
  | cons p ps ih => exact (knowWeight_le know p).trans (ih (knowInsert know p))

/-- A list stays as it is just if it has all the nodes to be added. -/
theorem foldl_knowInsert_eq_self {ps : List UInt16} :
    ps.foldl knowInsert know = know ↔ ∀ p ∈ ps, p ∈ know := by
  induction ps with
  | nil => simp
  | cons p ps ih =>
    rw [List.foldl_cons, List.forall_mem_cons]
    by_cases h : p ∈ know
    · rw [knowInsert_of_mem h, ih, and_iff_right h]
    · -- the first insertion adds to the weight, and no later one takes from it
      have hweight := (knowWeight_lt h).trans_le (knowWeight_le_foldl (knowInsert know p) ps)
      refine iff_of_false (fun heq => ?_) fun hall => h hall.1
      rw [heq] at hweight
      exact hweight.false

theorem foldl_knowInsert_same (h : p ∈ know) (ps : List UInt16) :
    ps.foldl (fun know _ => knowInsert know p) know = know := by
  induction ps with
  | nil => rfl
  | cons _ ps ih => rw [List.foldl_cons, knowInsert_of_mem h, ih]

/-- The two loops add one peer. -/
theorem fillknown_eq {peers : ActivePeers} {r : UInt32} {pi : UInt16}
    (h : peers.svids[r.toNat % peers.svids.length]? = some pi) (know : List UInt16) :
    (fillknown peers know r).1 = knowInsert know pi := by
  have hmem : pi ∈ knowInsert know pi := mem_knowInsert.mpr (.inl rfl)
  have hdrop := List.drop_eq_getElem?_toList_append (l := peers.svids)
    (i := r.toNat % peers.svids.length)
  rw [h] at hdrop
  simp only [fillknown, h]
  rw [hdrop, Option.toList_some, List.singleton_append, List.foldl_cons,
    foldl_knowInsert_same hmem, foldl_knowInsert_same hmem]

/-- `fillknown` adds all active peers, in the order that starts at the counter, just if those
other than the first are in the list already and stay there when the first one is added. -/
theorem fillknown_iff (peers : ActivePeers) (know : List UInt16) (r : UInt32) :
    ((fillknown peers know r).1 =
        (peers.svids.rotate (r.toNat % peers.svids.length)).foldl knowInsert know ∧
      ∀ p ∈ peers.svids, p ∈ (fillknown peers know r).1) ↔
    ∀ pi, peers.svids[r.toNat % peers.svids.length]? = some pi →
      ∀ p ∈ peers.svids, p = pi ∨ p ∈ if pi ∈ know then know else know.erase 0 := by
  rcases hpi : peers.svids[r.toNat % peers.svids.length]? with _ | pi
  · -- there are no peers
    have hnil : peers.svids = [] := by
      rw [List.getElem?_eq_none_iff] at hpi
      by_contra hne
      exact hpi.not_gt (Nat.mod_lt _ (List.length_pos_of_ne_nil hne))
    simp [fillknown, hnil]
  · obtain ⟨hlt, _⟩ := List.getElem?_eq_some_iff.mp hpi
    have hdrop := List.drop_eq_getElem?_toList_append (l := peers.svids)
      (i := r.toNat % peers.svids.length)
    rw [hpi, Option.toList_some, List.singleton_append] at hdrop
    have hmem : ∀ p, p ∈ peers.svids.rotate (r.toNat % peers.svids.length) ↔ p ∈ peers.svids :=
      fun p => List.mem_rotate
    rw [List.rotate_eq_drop_append_take hlt.le, hdrop, List.cons_append] at hmem
    rw [fillknown_eq hpi, List.rotate_eq_drop_append_take hlt.le, hdrop, List.cons_append,
      List.foldl_cons, eq_comm, foldl_knowInsert_eq_self]
    have hiff : ∀ p, (p = pi ∨ p ∈ if pi ∈ know then know else know.erase 0) ↔
        p ∈ knowInsert know pi := fun p => mem_knowInsert.symm
    constructor
    · rintro ⟨_, hall⟩ q hq p hp
      obtain rfl := Option.some.inj hq
      exact (hiff p).mpr (hall p hp)
    · intro h
      have hall : ∀ p ∈ peers.svids, p ∈ knowInsert know pi :=
        fun p hp => (hiff p).mp (h pi rfl p hp)
      exact ⟨fun p hp => hall p ((hmem p).mp (List.mem_cons_of_mem _ hp)), hall⟩

/-- Two active peers. -/
def Sample.twoPeers : ActivePeers where
  svids := [1, 2]
  sorted := by decide

/-- Of two active peers only the first is added to a new message. -/
theorem fillknown_two :
    (fillknown Sample.twoPeers [] 0).1 = [1] ∧
      ¬((fillknown Sample.twoPeers [] 0).1 =
          (Sample.twoPeers.svids.rotate (0 % Sample.twoPeers.svids.length)).foldl knowInsert [] ∧
        ∀ p ∈ Sample.twoPeers.svids, p ∈ (fillknown Sample.twoPeers [] 0).1) := by
  refine ⟨by decide, fun h => ?_⟩
  have hsecond : (2 : UInt16) ∉ (fillknown Sample.twoPeers [] 0).1 := by decide
  exact hsecond (h.2 2 (by decide))

end Esc
