import Esc.Message.Reads
import Esc.Message.TreePath

/-!
# Messages made of transactions

Whole transactions one after the other, behind a head, are a message that has a hash tree. Its
entries are the head and the transactions.
-/

namespace Esc

open Lib Merkle

/-- The offsets and lengths of parts that start at an offset. -/
def cutsOf : Nat → List (List UInt8) → List (Nat × Nat)
  | _, [] => []
  | p, part :: parts => (p, part.length) :: cutsOf (p + part.length) parts

@[simp] theorem length_cutsOf (p : Nat) (parts : List (List UInt8)) :
    (cutsOf p parts).length = parts.length := by
  induction parts generalizing p with
  | nil => rfl
  | cons part parts ih => rw [cutsOf, List.length_cons, List.length_cons, ih]

/-- Type, length and an empty signature in front of the head and the transactions. -/
def assemble (head : List UInt8) (parts : List (List UInt8)) : Bytes :=
  Bytes.ofList (msgtypeMsg :: (bytesLE 3 (4 + 64 + 10 + parts.flatten.length) ++
    (List.replicate 64 0 ++ (head ++ parts.flatten)))) fun _ => 0

/-! ## Cutting the message -/

section Cuts

variable {c : Crypto} {parts : List (List UInt8)}

/-- A whole transaction has its size whatever follows it. -/
theorem IsTxs.getSize_append {t : List UInt8} (h : IsTxs c t) (bs : List UInt8) (rest : Bytes) :
    getSize c (Bytes.ofList (t ++ bs) rest) = some t.length := by
  have hpos := h.length_pos
  have hsame : ∀ i < t.length, Bytes.ofList t (fun _ => 0) i = Bytes.ofList (t ++ bs) rest i := by
    intro i hi
    rw [Bytes.ofList_append_left _ _ _ hi, ← Bytes.ofList_append_left t [] (fun _ => 0) hi,
      List.append_nil]
  exact getSize_congr (hsame 0 hpos) h.size hsame

theorem txsCuts_flatten (hparts : ∀ t ∈ parts, IsTxs c t) (front : List UInt8) {fuel : Nat}
    (hfuel : parts.length < fuel) :
    txsCuts c (Bytes.ofList (front ++ parts.flatten) fun _ => 0)
        (front.length + parts.flatten.length) fuel front.length =
      .ok (cutsOf front.length parts, front.length + parts.flatten.length) := by
  induction parts generalizing front fuel with
  | nil =>
    obtain ⟨fuel, rfl⟩ : ∃ k, fuel = k + 1 := ⟨fuel - 1, by omega⟩
    rw [txsCuts, if_pos (by simp)]
    rfl
  | cons t parts ih =>
    obtain ⟨fuel, rfl⟩ : ∃ k, fuel = k + 1 := ⟨fuel - 1, by omega⟩
    obtain ⟨ht, hparts⟩ := List.forall_mem_cons.mp hparts
    have hpos := ht.length_pos
    have hrest := @ih hparts (front ++ t) fuel (Nat.lt_of_succ_lt_succ hfuel)
    rw [List.append_assoc, List.length_append, Nat.add_assoc] at hrest
    rw [List.flatten_cons, List.length_append, txsCuts, if_neg (by omega),
      Bytes.skip_ofList_append rfl, ht.getSize_append]
    dsimp only
    rw [hrest]
    rfl

theorem cutParts_cutsOf (front : List UInt8) :
    cutParts (Bytes.ofList (front ++ parts.flatten) fun _ => 0) (cutsOf front.length parts) =
      parts := by
  induction parts generalizing front with
  | nil => rfl
  | cons t parts ih =>
    have hrest := ih (front ++ t)
    rw [List.append_assoc, ← List.flatten_cons, List.length_append] at hrest
    rw [cutsOf, cutParts, List.map_cons]
    congr 1
    rw [List.flatten_cons, Bytes.skip_ofList_append rfl, Bytes.take_ofList_append rfl]

end Cuts

/-! ## The message and its tree -/

/-- What a message made of transactions is. -/
structure Assembled (c : Crypto) (d : Bytes) (len : Nat) (svid : UInt16) (msid : UInt32)
    (m : TreeMessage) (cuts : List (Nat × Nat)) (head : List UInt8) (parts : List (List UInt8)) :
    Prop where
  hashTree_eq : hashTree c d len svid msid = .ok m
  length_eq : (d.skip 1).uint24 = len
  txsCuts_eq : txsCuts c d len (len + 1) (4 + 64 + 10) = .ok (cuts, len)
  parts_eq : cutParts d (messageCuts cuts) = head :: parts

theorem exists_assembled {c : Crypto} {head : List UInt8} {parts : List (List UInt8)}
    (hhead : head.length = 10) (hparts : ∀ t ∈ parts, IsTxs c t) (hne : parts ≠ [])
    (hlen : 4 + 64 + 10 + parts.flatten.length < 2 ^ 24) (hcount : (parts.length + 1) % 2 ^ 16 ≠ 0)
    {svid : UInt16} {msid : UInt32} (hsvid : svid ≠ 0) (hmsid : msid ≠ 0) :
    ∃ m cuts,
      Assembled c (assemble head parts) (4 + 64 + 10 + parts.flatten.length) svid msid m cuts
      head parts := by
  obtain ⟨len, hlength⟩ : ∃ len, 4 + 64 + 10 + parts.flatten.length = len := ⟨_, rfl⟩
  obtain ⟨front, hfront⟩ : ∃ front, msgtypeMsg :: (bytesLE 3 len ++ (List.replicate 64 0 ++ head)) =
    front := ⟨_, rfl⟩
  have hlengthFront : front.length = 4 + 64 + 10 := by
    rw [← hfront]
    simp [hhead]
  have hassemble : assemble head parts = Bytes.ofList (front ++ parts.flatten) fun _ => 0 := by
    rw [assemble, hlength, ← hfront]
    simp only [List.cons_append, List.append_assoc]
  have hpositive : parts.length ≤ parts.flatten.length := by
    rw [List.length_flatten, ← List.length_map (f := List.length)]
    apply List.length_le_sum_of_one_le
    intro n hn
    obtain ⟨t, ht, rfl⟩ := List.mem_map.mp hn
    exact (hparts t ht).length_pos
  have hcuts := txsCuts_flatten hparts front (show parts.length < len + 1 by omega)
  have hcutParts := @cutParts_cutsOf parts front
  rw [hlengthFront, hlength, ← hassemble] at hcuts
  rw [hlengthFront, ← hassemble] at hcutParts
  have htree : treeCuts c (assemble head parts) len svid msid =
      .ok (cutsOf (4 + 64 + 10) parts) := by
    refine treeCuts_eq_ok.mpr ⟨⟨rfl, hsvid, hmsid⟩, ?_, ?_, hcuts⟩
    · have := List.length_pos_of_ne_nil hne
      omega
    · rw [length_cutsOf, ← UInt16.toNat_inj.ne, UInt16.toNat_add, UInt16.toNat_ofNat']
      show (1 + parts.length % 2 ^ 16) % 2 ^ 16 ≠ 0
      omega
  have hhash := hashTree_eq_cuts c (assemble head parts) len svid msid
  rw [htree] at hhash
  rw [hlength]
  refine ⟨_, cutsOf (4 + 64 + 10) parts, hhash, ?_, hcuts, ?_⟩
  · have hskip : (assemble head parts).skip 1 = Bytes.ofList (bytesLE 3 len ++
        (List.replicate 64 0 ++ (head ++ parts.flatten))) fun _ => 0 := by
      rw [assemble, hlength]
      exact Bytes.skip_ofList_append (l := [msgtypeMsg]) rfl _ _
    rw [hskip, Bytes.uint24, Bytes.take_ofList_append (length_bytesLE 3 len), ofLE_bytesLE]
    omega
  · have hskip : (assemble head parts).skip (4 + 64) =
        Bytes.ofList (head ++ parts.flatten) fun _ => 0 := by
      rw [assemble, ← List.append_assoc, ← List.cons_append]
      exact Bytes.skip_ofList_append (by simp) _ _
    rw [messageCuts, cutParts, List.map_cons, ← cutParts, hcutParts, hskip,
      Bytes.take_ofList_append hhead]

end Esc
