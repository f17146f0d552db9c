import Esc.Server.CommitBlock
import Esc.Lib.Loop

/-!
# Votes on the status of the nodes

The requests of a block to set and to clear status bits are walked in descending order of
their keys, so that the votes on a node come together and in them those of each voter.
The high bits take the votes of more than half of the VIP nodes, counted in bytes.

The votes on a node are evaluated when the votes on another node begin or, behind the
loop, if the node is not node 0. `bit` and `ballotBit` read single bits.
-/

namespace Esc

open Lib

variable {s : State} {a n : UInt16} {i j : Nat} {e e' : Vote} {vip : UInt16 → Bool} {xs : List Vote}

def bit (x : UInt32) (j : Nat) : Bool := x.toBitVec.getLsbD j

def ballotBit (x : UInt8) (i : Nat) : Bool := x.toBitVec.getLsbD i

theorem bit_or (x y : UInt32) (j : Nat) : bit (x ||| y) j = (bit x j || bit y j) := by
  simp [bit]

theorem bit_and (x y : UInt32) (j : Nat) : bit (x &&& y) j = (bit x j && bit y j) := by
  simp [bit]

theorem bit_andNot (x y : UInt32) (hj : j < 32) : bit (x &&& ~~~y) j = (bit x j && !bit y j) := by
  simp [bit, hj]

theorem bit_ownMask (hj : j < 32) : bit 0xFFF8 j = (decide (3 ≤ j) && decide (j < 16)) := by
  revert j
  decide

theorem bit_vipMask (hj : j < 32) : bit 0xFF0000 j = (decide (16 ≤ j) && decide (j < 24)) := by
  revert j
  decide

theorem bit_high (b : UInt8) (hj : j < 32) :
    bit (b.toUInt32 <<< 24) j = (decide (24 ≤ j) && ballotBit b (j - 24)) := by
  have hshift : (UInt32.toBitVec 24 % 32 : BitVec 32).toNat = 24 := by decide
  simp only [bit, ballotBit, UInt32.toBitVec_shiftLeft, UInt8.toBitVec_toUInt32,
    BitVec.shiftLeft_eq', hshift, BitVec.getLsbD_shiftLeft, BitVec.getLsbD_setWidth, hj,
    decide_true, Bool.true_and]
  rw [decide_eq_true (by omega : j - 24 < 32), Bool.true_and, ← decide_not]
  congr 2
  exact propext not_lt

theorem ballotBit_toUInt8 (x : UInt32) (hi : i < 8) :
    ballotBit (x >>> 24).toUInt8 i = bit x (24 + i) := by
  simp [bit, ballotBit, hi]

theorem ballotBit_or (x y : UInt8) (i : Nat) :
    ballotBit (x ||| y) i = (ballotBit x i || ballotBit y i) := by
  simp [ballotBit]

theorem toNat_ballotBit (b : UInt8) (hi : i < 8) :
    (b >>> UInt8.ofNat i &&& 1).toNat = (ballotBit b i).toNat := by
  have hone : (1 : UInt8).toNat = 1 := rfl
  have hamount : (UInt8.ofNat i).toNat % 8 = i := by
    rw [UInt8.toNat_ofNat']
    omega
  rw [UInt8.toNat_and, UInt8.toNat_shiftRight, hamount, hone, Nat.and_one_is_mod,
    Nat.shiftRight_eq_div_pow, ballotBit, BitVec.getLsbD, UInt8.toNat_toBitVec,
    Nat.testBit_eq_decide_div_mod_eq]
  rcases Nat.mod_two_eq_zero_or_one (b.toNat / 2 ^ i) with h | h <;> simp [h]

/-- The count of a bit, in a byte. -/
theorem toNat_foldl_count (ballots : List UInt8) (hi : i < 8) (c : UInt8) :
    (ballots.foldl (fun count b => count + (b >>> UInt8.ofNat i &&& 1)) c).toNat =
      (c.toNat + ballots.countP (ballotBit · i)) % 256 := by
  induction ballots generalizing c with
  | nil =>
      have hlt := c.toNat_lt
      simp only [List.foldl_nil, List.countP_nil]
      omega
  | cons b ballots ih =>
      rw [List.foldl_cons, ih, UInt8.toNat_add, toNat_ballotBit b hi, List.countP_cons]
      cases ballotBit b i
      · simp only [Bool.toNat_false, Bool.false_eq_true, if_false]
        omega
      · simp only [Bool.toNat_true, if_true]
        omega

theorem ballotBit_shiftLeft {k : Nat} (hi : i < 8) (hk : k < 8) :
    ballotBit (1 <<< UInt8.ofNat i) k = decide (k = i) := by
  have hall : ∀ i < 8, ∀ k < 8, ballotBit (1 <<< UInt8.ofNat i) k = decide (k = i) := by decide
  exact hall i hi k hk

theorem ballotBit_foldl_or {is : List Nat} (his : ∀ i ∈ is, i < 8) (r : UInt8) {k : Nat}
    (hk : k < 8) :
    ballotBit (is.foldl (fun res i => res ||| (1 <<< UInt8.ofNat i)) r) k =
      (ballotBit r k || decide (k ∈ is)) := by
  induction is generalizing r with
  | nil => simp
  | cons i is ih =>
      rw [List.foldl_cons, ih (fun i hi => his i (List.mem_cons_of_mem _ hi)), ballotBit_or,
        ballotBit_shiftLeft (his i List.mem_cons_self) hk, Bool.or_assoc]
      congr 1
      simp [List.mem_cons]

/-- The bit has a majority, as `bitcount` finds it: the limit and the count are bytes. -/
def tallied (half voters count : Nat) : Bool :=
  decide (half % 256 < voters) && decide (half % 256 < count % 256)

theorem ballotBit_bitcount (ballots : List UInt8) (half : Nat) (hi : i < 8) :
    ballotBit (bitcount ballots (UInt8.ofNat half)) i =
      tallied half ballots.length (ballots.countP (ballotBit · i)) := by
  have hmin : (UInt8.ofNat half).toNat = half % 256 := by rw [UInt8.toNat_ofNat']
  rw [bitcount, hmin, tallied]
  split
  · rename_i hle
    rw [decide_eq_false (by omega), Bool.false_and]
    simp [ballotBit]
  · rename_i hlt
    rw [ballotBit_foldl_or (fun i hi => List.mem_range.mp (List.mem_of_mem_filter hi)) _ hi,
      decide_eq_true (by omega : half % 256 < ballots.length), Bool.true_and]
    have hcount := toNat_foldl_count ballots hi 0
    rw [UInt8.toNat_zero, Nat.zero_add] at hcount
    rw [← hcount, ← hmin]
    simp [ballotBit, List.mem_filter, hi, UInt8.lt_iff_toNat_lt]

/-- A request: its key with the voter and the node it is about, and its bits. -/
abbrev Vote := UInt64 × UInt32

namespace Vote

def voter (e : Vote) : UInt16 := ppiAbank e.1

def node (e : Vote) : UInt16 := ppiBbank e.1

/-- Descending keys put the nodes in descending order and in them the voters. -/
theorem order (h : e'.1 < e.1) : e'.node ≤ e.node ∧ (e'.node = e.node → e'.voter ≤ e.voter) := by
  have hlt := UInt64.lt_iff_toNat_lt.mp h
  have he := e.1.toNat_lt
  have he' := e'.1.toNat_lt
  rw [← UInt16.toNat_inj, UInt16.le_iff_toNat_le, UInt16.le_iff_toNat_le]
  simp only [node, voter, ppiBbank, ppiAbank, UInt16.toNat_ofNat']
  omega

end Vote

/-- The votes on a node. -/
def votesOn (xs : List Vote) (n : UInt16) : List Vote := xs.filter fun e => e.node = n

section Voters

variable (vip : UInt16 → Bool) (xs : List Vote) (n : UInt16)

/-- The VIP nodes with a vote on the node. -/
def voters : Finset UInt16 := (((votesOn xs n).filter fun e => vip e.voter).map Vote.voter).toFinset

/-- The VIP nodes that ask for the bit. -/
def askers (j : Nat) : Finset UInt16 :=
  (((votesOn xs n).filter fun e => vip e.voter && bit e.2 j).map Vote.voter).toFinset

/-- The node asks for one of its own bits, or a VIP node for one of the middle bits. -/
def askedBit (j : Nat) : Bool :=
  (votesOn xs n).any fun e =>
    (decide (e.voter = n) && (decide (3 ≤ j) && decide (j < 16) && bit e.2 j)) ||
      (vip e.voter && (decide (16 ≤ j) && decide (j < 24) && bit e.2 j))

end Voters

section Votes

theorem mem_votesOn : e ∈ votesOn xs n ↔ e ∈ xs ∧ e.node = n := by
  rw [votesOn, List.mem_filter, decide_eq_true_iff]

theorem votesOn_concat (e : Vote) :
    votesOn (xs ++ [e]) n = votesOn xs n ++ if e.node = n then [e] else [] := by
  rw [votesOn, List.filter_append, ← votesOn]
  split
  · rename_i h
    simp [h]
  · rename_i h
    simp [h]

theorem mem_votesOn_concat :
    e' ∈ votesOn (xs ++ [e]) n ↔ e' ∈ votesOn xs n ∨ e' = e ∧ e.node = n := by
  rw [votesOn_concat, List.mem_append]
  split
  · rename_i h
    simp [h]
  · rename_i h
    simp [h]

theorem mem_voters : a ∈ voters vip xs n ↔ vip a ∧ ∃ e ∈ votesOn xs n, e.voter = a := by
  simp only [voters, List.mem_toFinset, List.mem_map, List.mem_filter]
  constructor
  · rintro ⟨e, ⟨he, hvip⟩, rfl⟩
    exact ⟨hvip, e, he, rfl⟩
  · rintro ⟨hvip, e, he, rfl⟩
    exact ⟨e, ⟨he, hvip⟩, rfl⟩

theorem mem_askers :
    a ∈ askers vip xs n j ↔ vip a ∧ ∃ e ∈ votesOn xs n, e.voter = a ∧ bit e.2 j := by
  simp only [askers, List.mem_toFinset, List.mem_map, List.mem_filter, Bool.and_eq_true]
  constructor
  · rintro ⟨e, ⟨he, hvip, hbit⟩, rfl⟩
    exact ⟨hvip, e, he, rfl, hbit⟩
  · rintro ⟨hvip, e, he, rfl, hbit⟩
    exact ⟨e, ⟨he, hvip, hbit⟩, rfl⟩

theorem askers_subset_voters (j : Nat) : askers vip xs n j ⊆ voters vip xs n := by
  intro a ha
  obtain ⟨hvip, e, he, hvoter, -⟩ := mem_askers.mp ha
  exact mem_voters.mpr ⟨hvip, e, he, hvoter⟩

/-- The ballots on a node, one for each voter; the last voter is the head of the list. -/
structure Ballots (vip : UInt16 → Bool) (xs : List Vote) (n : UInt16)
    (ballots : List (UInt16 × UInt8)) : Prop where
  nodup : (ballots.map Prod.fst).Nodup
  voters : ∀ a, a ∈ ballots.map Prod.fst ↔ a ∈ voters vip xs n
  asked : ∀ p ∈ ballots, ∀ i < 8,
    ballotBit p.2 i = true ↔ ∃ e ∈ votesOn xs n, e.voter = p.1 ∧ bit e.2 (24 + i)

namespace Ballots

variable {ballots : List (UInt16 × UInt8)}

theorem nil (h : votesOn xs n = []) : Ballots vip xs n [] where
  nodup := List.nodup_nil
  voters a := by rw [mem_voters, h]; simp
  asked := by simp

theorem length_eq (h : Ballots vip xs n ballots) : ballots.length = (Esc.voters vip xs n).card := by
  have hset : (ballots.map Prod.fst).toFinset = Esc.voters vip xs n := by
    ext a
    rw [List.mem_toFinset, h.voters]
  rw [← hset, List.toFinset_card_of_nodup h.nodup, List.length_map]

theorem countP_eq (h : Ballots vip xs n ballots) (hi : i < 8) :
    (ballots.map Prod.snd).countP (ballotBit · i) = (askers vip xs n (24 + i)).card := by
  have hset : ((ballots.filter fun p => ballotBit p.2 i).map Prod.fst).toFinset =
      askers vip xs n (24 + i) := by
    ext a
    rw [List.mem_toFinset, List.mem_map, mem_askers]
    constructor
    · rintro ⟨p, hp, rfl⟩
      obtain ⟨hmem, hbit⟩ := List.mem_filter.mp hp
      have hvoter := (h.voters p.1).mp (List.mem_map.mpr ⟨p, hmem, rfl⟩)
      exact ⟨(mem_voters.mp hvoter).1, (h.asked p hmem i hi).mp hbit⟩
    · rintro ⟨hvip, e, he, hvoter, hbit⟩
      have hmem := (h.voters a).mpr (mem_voters.mpr ⟨hvip, e, he, hvoter⟩)
      obtain ⟨p, hp, rfl⟩ := List.mem_map.mp hmem
      exact ⟨p, List.mem_filter.mpr ⟨hp, (h.asked p hp i hi).mpr ⟨e, he, hvoter, hbit⟩⟩, rfl⟩
  have hnodup : ((ballots.filter fun p => ballotBit p.2 i).map Prod.fst).Nodup :=
    h.nodup.sublist ((List.filter_sublist).map _)
  rw [← hset, List.toFinset_card_of_nodup hnodup, List.length_map, List.countP_map,
    ← List.countP_eq_length_filter]
  rfl

/-- A vote that does not count for the high bits. -/
theorem concat_own (h : Ballots vip xs n ballots) (hvip : vip e.voter = false) :
    Ballots vip (xs ++ [e]) n ballots := by
  have hold {a : UInt16} (ha : vip a = true) {e' : Vote} (hvoter : e'.voter = a) :
      e' ∈ votesOn (xs ++ [e]) n ↔ e' ∈ votesOn xs n := by
    rw [mem_votesOn_concat, or_iff_left]
    rintro ⟨rfl, -⟩
    rw [hvoter, ha] at hvip
    cases hvip
  refine ⟨h.nodup, fun a => ?_, fun p hp i hi => ?_⟩
  · rw [h.voters, mem_voters, mem_voters]
    refine and_congr_right fun ha => exists_congr fun e' => ?_
    exact and_congr_left fun hvoter => (hold ha hvoter).symm
  · have ha := (mem_voters.mp ((h.voters p.1).mp (List.mem_map.mpr ⟨p, hp, rfl⟩))).1
    rw [h.asked p hp i hi]
    refine exists_congr fun e' => ?_
    exact and_congr_left fun hasked => (hold ha hasked.1).symm

/-- The first vote of a voter makes a new ballot. -/
theorem concat_new (h : Ballots vip xs n ballots) (hnode : e.node = n) (hvip : vip e.voter = true)
    (hnew : e.voter ∉ Esc.voters vip xs n) :
    Ballots vip (xs ++ [e]) n ((e.voter, (e.2 >>> 24).toUInt8) :: ballots) := by
  have hfirst : ∀ e' ∈ votesOn xs n, e'.voter ≠ e.voter := fun e' he' hvoter =>
    hnew (mem_voters.mpr ⟨hvip, e', he', hvoter⟩)
  refine ⟨?_, fun a => ?_, fun p hp i hi => ?_⟩
  · rw [List.map_cons, List.nodup_cons]
    exact ⟨fun hmem => hnew ((h.voters _).mp hmem), h.nodup⟩
  · rw [List.map_cons, List.mem_cons, h.voters, mem_voters, mem_voters]
    simp only [mem_votesOn_concat]
    constructor
    · rintro (rfl | ⟨ha, e', he', hvoter⟩)
      · exact ⟨hvip, e, Or.inr ⟨rfl, hnode⟩, rfl⟩
      · exact ⟨ha, e', Or.inl he', hvoter⟩
    · rintro ⟨ha, e', he' | ⟨rfl, -⟩, hvoter⟩
      · exact Or.inr ⟨ha, e', he', hvoter⟩
      · exact Or.inl hvoter.symm
  · simp only [mem_votesOn_concat]
    rcases List.mem_cons.mp hp with rfl | hp
    · rw [ballotBit_toUInt8 e.2 hi]
      constructor
      · intro hbit
        exact ⟨e, Or.inr ⟨rfl, hnode⟩, rfl, hbit⟩
      · rintro ⟨e', he' | ⟨rfl, -⟩, hvoter, hbit⟩
        · exact absurd hvoter (hfirst e' he')
        · exact hbit
    · have hne : e.voter ≠ p.1 := by
        rintro heq
        exact hnew ((h.voters _).mp (List.mem_map.mpr ⟨p, hp, heq.symm⟩))
      rw [h.asked p hp i hi]
      constructor
      · rintro ⟨e', he', hasked⟩
        exact ⟨e', Or.inl he', hasked⟩
      · rintro ⟨e', he' | ⟨rfl, -⟩, hvoter, hbit⟩
        · exact ⟨e', he', hvoter, hbit⟩
        · exact absurd hvoter hne

/-- A further vote of the last voter. -/
theorem concat_more {b : UInt8} (h : Ballots vip xs n ((a, b) :: ballots)) (hnode : e.node = n)
    (hvoter : e.voter = a) :
    Ballots vip (xs ++ [e]) n ((a, b ||| (e.2 >>> 24).toUInt8) :: ballots) := by
  have hmem := (h.voters a).mp List.mem_cons_self
  obtain ⟨hvip, e₁, he₁, hvoter₁⟩ := mem_voters.mp hmem
  refine ⟨h.nodup, fun c => ?_, fun p hp i hi => ?_⟩
  · have hold := h.voters c
    rw [List.map_cons] at hold ⊢
    rw [hold, mem_voters, mem_voters]
    simp only [mem_votesOn_concat]
    constructor
    · rintro ⟨hc, e', he', hvoter'⟩
      exact ⟨hc, e', Or.inl he', hvoter'⟩
    · rintro ⟨hc, e', he' | ⟨rfl, -⟩, hvoter'⟩
      · exact ⟨hc, e', he', hvoter'⟩
      · exact ⟨hc, e₁, he₁, hvoter₁.trans (hvoter.symm.trans hvoter')⟩
  · simp only [mem_votesOn_concat]
    rcases List.mem_cons.mp hp with rfl | hp
    · have hold := h.asked (a, b) List.mem_cons_self i hi
      rw [ballotBit_or, ballotBit_toUInt8 e.2 hi, Bool.or_eq_true, hold]
      constructor
      · rintro (⟨e', he', hasked⟩ | hbit)
        · exact ⟨e', Or.inl he', hasked⟩
        · exact ⟨e, Or.inr ⟨rfl, hnode⟩, hvoter, hbit⟩
      · rintro ⟨e', he' | ⟨rfl, -⟩, hvoter', hbit⟩
        · exact Or.inl ⟨e', he', hvoter', hbit⟩
        · exact Or.inr hbit
    · have hne : p.1 ≠ a := by
        rintro heq
        have hnodup := h.nodup
        rw [List.map_cons, List.nodup_cons] at hnodup
        exact hnodup.1 (List.mem_map.mpr ⟨p, hp, heq⟩)
      rw [h.asked p (List.mem_cons_of_mem _ hp) i hi]
      constructor
      · rintro ⟨e', he', hasked⟩
        exact ⟨e', Or.inl he', hasked⟩
      · rintro ⟨e', he' | ⟨rfl, -⟩, hvoter', hbit⟩
        · exact ⟨e', he', hvoter', hbit⟩
        · exact absurd (hvoter'.symm.trans hvoter) hne

end Ballots

end Votes

/-- How a kind of request acts on a single bit. -/
structure BitAction (put : UInt32 → UInt32 → UInt32) (act : Bool → Bool → Bool) : Prop where
  bit_put : ∀ x m j, j < 32 → bit (put x m) j = act (bit x j) (bit m j)
  act_act : ∀ x a b, act (act x a) b = act x (a || b)
  act_false : ∀ x, act x false = x

theorem bitAction_or : BitAction (· ||| ·) (· || ·) where
  bit_put x m j _ := bit_or x m j
  act_act x a b := Bool.or_assoc x a b
  act_false := Bool.or_false

theorem bitAction_andNot :
    BitAction (fun status bits => status &&& ~~~bits) (fun x a => x && !a) where
  bit_put x m _ hj := bit_andNot x m hj
  act_act x a b := by cases x <;> cases a <;> rfl
  act_false := Bool.and_true

section Step

variable {put : UInt32 → UInt32 → UInt32} {act : Bool → Bool → Bool}

/-- A status bit of a node after a request about node `b`. -/
theorem BitAction.modifyNode (hput : BitAction put act) (s : State) (b : UInt16) (m : UInt32)
    (hn : n.toNat < s.srvs.nodes.size) (hj : j < 32) :
    bit (((s.modifyNode b fun nd => { nd with status := put nd.status m }).srvs.node n).status) j =
      act (bit (s.srvs.node n).status j) (decide (n = b) && bit m j) := by
  by_cases hb : n = b
  · subst hb
    rw [State.node_modifyNode s n _ hn, hput.bit_put _ _ _ hj, decide_eq_true rfl, Bool.true_and]
  · rw [State.node_modifyNode_ne s _ hb, decide_eq_false hb, Bool.false_and, hput.act_false]

/-- What a loop over votes leaves alone. -/
structure Votes.Kept (v v' : Votes) : Prop where
  size : v'.s.srvs.nodes.size = v.s.srvs.nodes.size
  last : v'.s.last = v.s.last
  vtot : v'.s.srvs.vtot = v.s.srvs.vtot

theorem Votes.enter_kept (put : UInt32 → UInt32 → UInt32) (v : Votes) (b : UInt16) :
    v.Kept (v.enter put b) := by
  rw [Votes.enter]
  split
  · exact ⟨rfl, rfl, rfl⟩
  · exact ⟨rfl, rfl, rfl⟩

/-- The bits that the end of the votes on a node sets or clears. -/
def Votes.closing (v : Votes) (b n : UInt16) (i : Nat) : Bool :=
  decide (v.lbbank ≠ b ∧ n = v.lbbank) &&
    tallied (v.s.srvs.vtot.toNat / 2) v.bitvotes.length (v.bitvotes.countP (ballotBit · i))

theorem Votes.close_bit (hput : BitAction put act) (v : Votes) (hn : n.toNat < v.s.srvs.nodes.size)
    (hj : j < 32) :
    bit ((v.close put).s.srvs.node n).status j = act (bit (v.s.srvs.node n).status j)
      (decide (n = v.lbbank) && (decide (24 ≤ j) && tallied (v.s.srvs.vtot.toNat / 2)
        v.bitvotes.length (v.bitvotes.countP (ballotBit · (j - 24))))) := by
  rw [Votes.close]
  rw [hput.modifyNode v.s v.lbbank _ hn hj, bit_high _ hj, ballotBit_bitcount _ _ (by omega)]

theorem Votes.enter_bit (hput : BitAction put act) (v : Votes) (b : UInt16)
    (hn : n.toNat < v.s.srvs.nodes.size) (hj : j < 32) :
    bit ((v.enter put b).s.srvs.node n).status j = act (bit (v.s.srvs.node n).status j)
      (decide (24 ≤ j) && v.closing b n (j - 24)) := by
  rw [Votes.enter, Votes.closing]
  split
  · rename_i heq
    simp [heq, hput.act_false]
  · rename_i hne
    have hclose := v.close_bit hput hn hj
    refine hclose.trans ?_
    congr 1
    simp only [hne, ne_eq, not_false_eq_true, true_and]
    ac_rfl

/-- One vote. -/
theorem statusStep_bit (hput : BitAction put act) (v : Votes) (e : Vote)
    (hn : n.toNat < v.s.srvs.nodes.size) (hj : j < 32) :
    bit ((statusStep put v e).s.srvs.node n).status j = act (bit (v.s.srvs.node n).status j)
      ((decide (24 ≤ j) && v.closing e.node n (j - 24)) || (decide (e.node = n) &&
        ((decide (e.voter = n) && (decide (3 ≤ j) && decide (j < 16) && bit e.2 j)) ||
          (hasBit (v.s.last.node e.voter).status serverVip &&
            (decide (16 ≤ j) && decide (j < 24) && bit e.2 j))))) := by
  have hkept := v.enter_kept put e.node
  have henter := v.enter_bit hput e.node hn hj
  rw [← hkept.size] at hn
  rw [← hput.act_act, ← henter, ← hkept.last, statusStep]
  rw [← Vote.voter, ← Vote.node]
  generalize v.enter put e.node = w at hn
  generalize hs₁ : (if e.voter = e.node then w.s.modifyNode e.node fun nd =>
    { nd with status := put nd.status (e.2 &&& 0xFFF8) } else w.s) = s₁
  have hown : bit (s₁.srvs.node n).status j = act (bit (w.s.srvs.node n).status j)
      (decide (e.node = n) && (decide (e.voter = n) &&
        (decide (3 ≤ j) && decide (j < 16) && bit e.2 j))) := by
    rw [← hs₁]
    split
    · rename_i hvoter
      rw [hput.modifyNode w.s e.node _ hn hj, bit_and, bit_ownMask hj, hvoter]
      by_cases hnode : e.node = n
      · simp [hnode, Bool.and_comm]
      · simp [hnode, Ne.symm hnode]
    · rename_i hvoter
      by_cases hnode : e.node = n
      · rw [hnode] at hvoter
        simp [hvoter, hput.act_false]
      · simp [hnode, hput.act_false]
  have hlast : s₁.last = w.s.last := by
    rw [← hs₁]
    split <;> rfl
  have hsize : n.toNat < s₁.srvs.nodes.size := by
    rw [← hs₁]
    split <;> exact hn
  rw [hlast]
  split
  · rename_i hvip
    rw [hput.modifyNode s₁ e.node _ hsize hj, hown, hput.act_act, bit_and, bit_vipMask hj, hvip]
    by_cases hnode : e.node = n
    · simp [hnode, Bool.and_comm]
    · simp [hnode, Ne.symm hnode]
  · rename_i hvip
    rw [Bool.not_eq_true] at hvip
    rw [hown, hvip, Bool.false_and, Bool.or_false]

end Step

/-- The VIP nodes of the last block. -/
def State.isVip (s : State) (a : UInt16) : Bool := hasBit (s.last.node a).status serverVip

/-- A majority takes more than this number. -/
def State.halfVotes (s : State) : Nat := s.srvs.vtot.toNat / 2

/-- A high bit of a node by the votes on it. -/
def State.votedBit (s : State) (xs : List Vote) (n : UInt16) (i : Nat) : Bool :=
  tallied s.halfVotes (voters s.isVip xs n).card (askers s.isVip xs n (24 + i)).card

/-- A high bit that the ballots in front of the loop give. -/
def Votes.leftBit (v : Votes) (i : Nat) : Bool :=
  tallied v.s.halfVotes v.bitvotes.length (v.bitvotes.countP (ballotBit · i))

/-- The vote `e` behind the votes `pre` adds to the last ballot when there is none: it is
the first on its node and its voter is taken for the one before. That one is node 0, or
`labank` for a loop that starts on node 0, where `empty` says that no ballot is left. -/
def StrayAt (vip : UInt16 → Bool) (labank : UInt16) (empty : Prop) (pre : List Vote) (e : Vote) :
    Prop :=
  votesOn pre e.node = [] ∧ vip e.voter = true ∧
    if pre = [] ∧ e.node = 0 then e.voter = labank ∧ empty else e.voter = 0

def Strays (vip : UInt16 → Bool) (labank : UInt16) (empty : Prop) (xs : List Vote) : Prop :=
  ∃ pre e post, xs = pre ++ e :: post ∧ StrayAt vip labank empty pre e

def Votes.StrayAt (v : Votes) (pre : List Vote) (e : Vote) : Prop :=
  Esc.StrayAt v.s.isVip v.labank (v.bitvotes = []) pre e

def Votes.Strays (v : Votes) (xs : List Vote) : Prop :=
  Esc.Strays v.s.isVip v.labank (v.bitvotes = []) xs

/-- A high bit after the votes `pre`, when the votes on node `b` are still open. The votes
on node 0 come last; the ballots of node 0 are those in front of the loop. -/
def Votes.closedBit (v : Votes) (pre : List Vote) (b n : UInt16) (i : Nat) : Bool :=
  if n = 0 then (pre.any fun e => e.node ≠ 0) && v.leftBit i
  else decide (b ≠ n) && v.s.votedBit pre n i

/-- The loop that starts with `v₀` after the votes `pre`. -/
structure Counted (act : Bool → Bool → Bool) (v₀ : Votes) (pre : List Vote) (v : Votes) : Prop
    extends v₀.Kept v where
  start : pre = [] → v = v₀
  latest : ∀ e, pre.getLast? = some e → v.lbbank = e.node ∧ v.labank = e.voter ∧
    (v₀.s.isVip e.voter = true → v.bitvotes ≠ [])
  ballots : v₀.bitvotes = [] ∨ (∃ e ∈ pre, e.node ≠ 0) →
    ∃ ballots, v.bitvotes = ballots.map Prod.snd ∧ Ballots v₀.s.isVip pre v.lbbank ballots ∧
      ∀ e, pre.getLast? = some e → v₀.s.isVip e.voter = true →
        ∃ b rest, ballots = (e.voter, b) :: rest
  stray : v.stray = true ↔ v₀.stray = true ∨ v₀.Strays pre
  status : ∀ n : UInt16, n.toNat < v₀.s.srvs.nodes.size → ∀ j < 32,
    bit (v.s.srvs.node n).status j = act (bit (v₀.s.srvs.node n).status j)
      (askedBit v₀.s.isVip pre n j ||
        (decide (24 ≤ j) && v₀.closedBit pre v.lbbank n (j - 24)))

theorem Votes.strays_concat {v : Votes} {pre : List Vote} :
    v.Strays (pre ++ [e]) ↔ v.Strays pre ∨ v.StrayAt pre e := by
  constructor
  · rintro ⟨p, e', q, hsplit, hstray⟩
    rcases List.eq_nil_or_concat q with rfl | ⟨q, x, rfl⟩
    · obtain ⟨rfl, heq⟩ := List.append_inj' hsplit rfl
      cases heq
      exact Or.inr hstray
    · rw [List.concat_eq_append, ← List.cons_append, ← List.append_assoc] at hsplit
      obtain ⟨rfl, -⟩ := List.append_inj' hsplit rfl
      exact Or.inl ⟨p, e', q, rfl, hstray⟩
  · rintro (⟨p, e', q, rfl, hstray⟩ | hstray)
    · exact ⟨p, e', q ++ [e], by simp, hstray⟩
    · exact ⟨pre, e, [], rfl, hstray⟩

theorem askedBit_concat {pre : List Vote} :
    askedBit vip (pre ++ [e]) n j = (askedBit vip pre n j || (decide (e.node = n) &&
      ((decide (e.voter = n) && (decide (3 ≤ j) && decide (j < 16) && bit e.2 j)) ||
        (vip e.voter && (decide (16 ≤ j) && decide (j < 24) && bit e.2 j))))) := by
  rw [askedBit, votesOn_concat, List.any_append, ← askedBit]
  congr 1
  split
  · rename_i h
    simp [h]
  · rename_i h
    simp [h]

/-- The keys of the votes descend. -/
def Descending (xs : List Vote) : Prop := xs.Pairwise fun e e' => e'.1 < e.1

section Order

variable {pre : List Vote} {l : Vote}

theorem Descending.node_le (h : Descending (pre ++ [e])) (he' : e' ∈ pre) :
    e.node ≤ e'.node ∧ (e.node = e'.node → e.voter ≤ e'.voter) :=
  Vote.order ((List.pairwise_append.mp h).2.2 e' he' e List.mem_cons_self)

theorem Descending.init (h : Descending (pre ++ [e])) : Descending pre :=
  (List.pairwise_append.mp h).1

/-- The last vote is the lowest. -/
theorem Descending.last_le (h : Descending pre) (hl : pre.getLast? = some l) (he' : e' ∈ pre) :
    l.node ≤ e'.node ∧ (l.node = e'.node → l.voter ≤ e'.voter) := by
  obtain ⟨front, rfl⟩ := List.getLast?_eq_some_iff.mp hl
  rcases List.mem_append.mp he' with he' | he'
  · exact h.node_le he'
  · cases List.mem_singleton.mp he'
    exact ⟨UInt16.le_refl _, fun _ => UInt16.le_refl _⟩

/-- If there are votes on the node of the next vote, the last one is such a vote. -/
theorem Descending.last_node (h : Descending (pre ++ [e])) (hl : pre.getLast? = some l)
    (hne : votesOn pre e.node ≠ []) : l.node = e.node := by
  obtain ⟨e', he'⟩ := List.exists_mem_of_ne_nil _ hne
  obtain ⟨hmem, hnode⟩ := mem_votesOn.mp he'
  have hle := (h.init.last_le hl hmem).1
  rw [hnode] at hle
  exact UInt16.le_antisymm hle (h.node_le (List.mem_of_getLast? hl)).1

theorem Descending.last_voter (h : Descending (pre ++ [e])) (hl : pre.getLast? = some l)
    (he' : e' ∈ votesOn pre e.node) (hvoter : e'.voter = e.voter) :
    l.voter = e.voter := by
  obtain ⟨hmem, hnode⟩ := mem_votesOn.mp he'
  have hlnode := h.last_node hl (List.ne_nil_of_mem he')
  have hle := (h.init.last_le hl hmem).2 (hlnode.trans hnode.symm)
  rw [hvoter] at hle
  exact UInt16.le_antisymm hle ((h.node_le (List.mem_of_getLast? hl)).2 hlnode.symm)

end Order

section Loop

variable {put : UInt32 → UInt32 → UInt32} {act : Bool → Bool → Bool} {v₀ v : Votes}
  {pre : List Vote}

/-- The variables with which the vote `e` is counted. -/
inductive Entered (v₀ v : Votes) (pre : List Vote) (e : Vote) (w : Votes) : Prop where
  /-- Among the votes on its node. -/
  | same {l : Vote} (hl : pre.getLast? = some l) (hnode : l.node = e.node)
      (hlbbank : v.lbbank = e.node) (hsome : votesOn pre e.node ≠ []) (hw : w = v)
  /-- As the first vote, on node 0. -/
  | first (hpre : pre = []) (hnode : e.node = 0) (hv : v = v₀) (hw : w = v₀)
  /-- As the first vote on its node. -/
  | next (hnone : votesOn pre e.node = []) (hlater : ¬(pre = [] ∧ e.node = 0))
      (hlbbank : v.lbbank ≠ e.node) (hlabank : w.labank = 0) (hempty : w.bitvotes = [])
      (hstray : w.stray = v.stray)

theorem Counted.entered (put : UInt32 → UInt32 → UInt32) (h : Counted act v₀ pre v)
    (hstart : v₀.lbbank = 0) (hd : Descending (pre ++ [e])) :
    Entered v₀ v pre e (v.enter put e.node) := by
  by_cases hlbbank : v.lbbank = e.node
  · have hw : v.enter put e.node = v := if_pos hlbbank
    rcases List.eq_nil_or_concat pre with rfl | ⟨front, l, rfl⟩
    · have hv := h.start rfl
      rw [hv, hstart] at hlbbank
      exact .first rfl hlbbank.symm hv (hw.trans hv)
    · rw [List.concat_eq_append] at h hd ⊢
      have hl : (front ++ [l]).getLast? = some l := List.getLast?_concat
      have hnode : l.node = e.node := (h.latest l hl).1.symm.trans hlbbank
      exact .same hl hnode hlbbank
        (List.ne_nil_of_mem (mem_votesOn.mpr ⟨List.mem_of_getLast? hl, hnode⟩)) hw
  · have hw : v.enter put e.node = { v.close put with labank := 0 } := if_neg hlbbank
    refine .next ?_ ?_ hlbbank (by rw [hw]) (by rw [hw]; rfl) (by rw [hw]; rfl)
    · by_contra hne
      rcases List.eq_nil_or_concat pre with rfl | ⟨front, l, rfl⟩
      · exact hne rfl
      · rw [List.concat_eq_append] at h hd hne
        have hl : (front ++ [l]).getLast? = some l := List.getLast?_concat
        exact hlbbank ((h.latest l hl).1.trans (hd.last_node hl hne))
    · rintro ⟨rfl, hnode⟩
      rw [h.start rfl, hstart] at hlbbank
      exact hlbbank hnode.symm

theorem addBallot_ne_nil (labank abank : UInt16) (high : UInt8) (ballots : List UInt8) :
    addBallot labank abank high ballots ≠ [] := by
  cases ballots with
  | nil => simp [addBallot]
  | cons b rest =>
      rw [addBallot]
      split <;> simp

/-- The variables after a vote. -/
theorem statusStep_vars (put : UInt32 → UInt32 → UInt32) (v : Votes) (e : Vote) :
    (statusStep put v e).lbbank = e.node ∧ (statusStep put v e).labank = e.voter ∧
      (statusStep put v e).bitvotes =
        (if v.s.isVip e.voter then addBallot (v.enter put e.node).labank e.voter
          (e.2 >>> 24).toUInt8 (v.enter put e.node).bitvotes else (v.enter put e.node).bitvotes) ∧
      (statusStep put v e).stray = ((v.enter put e.node).stray || (v.s.isVip e.voter &&
        (e.voter == (v.enter put e.node).labank && (v.enter put e.node).bitvotes.isEmpty))) ∧
      v.Kept (statusStep put v e) := by
  have hkept := v.enter_kept put e.node
  rw [State.isVip, ← hkept.last, statusStep, ← Vote.voter, ← Vote.node]
  generalize v.enter put e.node = w at hkept
  generalize hs₁ : (if e.voter = e.node then w.s.modifyNode e.node fun nd =>
    { nd with status := put nd.status (e.2 &&& 0xFFF8) } else w.s) = s₁
  have hsame : s₁.last = w.s.last ∧ s₁.srvs.nodes.size = w.s.srvs.nodes.size ∧
      s₁.srvs.vtot = w.s.srvs.vtot := by
    rw [← hs₁]
    split <;> exact ⟨rfl, rfl, rfl⟩
  obtain ⟨hlast, hsize, hvtot⟩ := hsame
  rw [hlast]
  split
  · rename_i hvip
    rw [hvip, Bool.true_and]
    exact ⟨rfl, rfl, rfl, rfl, hsize.trans hkept.size, hlast.trans hkept.last,
      hvtot.trans hkept.vtot⟩
  · rename_i hvip
    rw [Bool.not_eq_true] at hvip
    rw [hvip, Bool.false_and, Bool.or_false]
    exact ⟨rfl, rfl, rfl, rfl, hsize.trans hkept.size, hlast.trans hkept.last,
      hvtot.trans hkept.vtot⟩

theorem Counted.isVip_eq (h : Counted act v₀ pre v) : v.s.isVip = v₀.s.isVip := by
  funext a
  rw [State.isVip, State.isVip, h.last]

/-- The ballots after a vote. -/
theorem Counted.ballots_step (h : Counted act v₀ pre v) (hstart : v₀.lbbank = 0)
    (hd : Descending (pre ++ [e]))
    (hcase : v₀.bitvotes = [] ∨ ∃ e' ∈ pre ++ [e], Vote.node e' ≠ 0) :
    ∃ ballots, (statusStep put v e).bitvotes = ballots.map Prod.snd ∧
      Ballots v₀.s.isVip (pre ++ [e]) e.node ballots ∧
      (v₀.s.isVip e.voter = true → ∃ b rest, ballots = (e.voter, b) :: rest) := by
  obtain ⟨-, -, hbitvotes, -, -⟩ := statusStep_vars put v e
  rw [h.isVip_eq] at hbitvotes
  -- The ballots with which the vote is counted.
  have hentered : ∃ ballots, (v.enter put e.node).bitvotes = ballots.map Prod.snd ∧
      Ballots v₀.s.isVip pre e.node ballots ∧
      (v₀.s.isVip e.voter = true →
        (e.voter ∈ voters v₀.s.isVip pre e.node ∧ (v.enter put e.node).labank = e.voter ∧
          ∃ b rest, ballots = (e.voter, b) :: rest) ∨
        (e.voter ∉ voters v₀.s.isVip pre e.node ∧
          ((v.enter put e.node).labank ≠ e.voter ∨ ballots = []))) := by
    cases h.entered put hstart hd with
    | @same l hl hnode hlbbank hsome hw =>
        obtain ⟨hlb, hla, -⟩ := h.latest l hl
        have hold : v₀.bitvotes = [] ∨ ∃ e' ∈ pre, Vote.node e' ≠ 0 := by
          rcases hcase with hempty | ⟨e', he', hne⟩
          · exact Or.inl hempty
          · refine Or.inr ?_
            rcases List.mem_append.mp he' with he' | he'
            · exact ⟨e', he', hne⟩
            · cases List.mem_singleton.mp he'
              exact ⟨l, List.mem_of_getLast? hl, hnode ▸ hne⟩
        obtain ⟨ballots, hmap, hballots, hhead⟩ := h.ballots hold
        rw [hlbbank] at hballots
        rw [hw]
        refine ⟨ballots, hmap, hballots, fun hvip => ?_⟩
        by_cases hmem : e.voter ∈ voters v₀.s.isVip pre e.node
        · obtain ⟨-, e', he', hvoter⟩ := mem_voters.mp hmem
          have hlv : l.voter = e.voter := hd.last_voter hl he' hvoter
          obtain ⟨b, rest, hballot⟩ := hhead l hl (hlv ▸ hvip)
          exact Or.inl ⟨hmem, hla.trans hlv, b, rest, hlv ▸ hballot⟩
        · refine Or.inr ⟨hmem, Or.inl fun heq => hmem ?_⟩
          exact mem_voters.mpr ⟨hvip, l, mem_votesOn.mpr ⟨List.mem_of_getLast? hl, hnode⟩,
            hla.symm.trans heq⟩
    | first hpre hnode hv hw =>
        have hempty : v₀.bitvotes = [] := by
          rcases hcase with hempty | ⟨e', he', hne⟩
          · exact hempty
          · rw [hpre, List.nil_append] at he'
            cases List.mem_singleton.mp he'
            exact absurd hnode hne
        refine ⟨[], by rw [hw, hempty]; rfl, .nil (by rw [hpre]; rfl),
          fun _ => Or.inr ⟨?_, Or.inr rfl⟩⟩
        rw [hpre, mem_voters]
        rintro ⟨-, e', he', -⟩
        cases he'
    | next hnone _ _ _ hempty _ =>
        refine ⟨[], by rw [hempty]; rfl, .nil hnone, fun _ => Or.inr ⟨?_, Or.inr rfl⟩⟩
        rw [mem_voters, hnone]
        rintro ⟨-, e', he', -⟩
        cases he'
  obtain ⟨ballots, hmap, hballots, hvoter⟩ := hentered
  rw [hmap] at hbitvotes
  by_cases hvip : v₀.s.isVip e.voter = true
  · rw [if_pos hvip] at hbitvotes
    rcases hvoter hvip with ⟨-, hlabank, b, rest, rfl⟩ | ⟨hnew, hother⟩
    · refine ⟨(e.voter, b ||| (e.2 >>> 24).toUInt8) :: rest, ?_, hballots.concat_more rfl rfl,
        fun _ => ⟨_, rest, rfl⟩⟩
      rw [hbitvotes, hlabank]
      simp [addBallot]
    · refine ⟨(e.voter, (e.2 >>> 24).toUInt8) :: ballots, ?_, hballots.concat_new rfl hvip hnew,
        fun _ => ⟨_, ballots, rfl⟩⟩
      rw [hbitvotes]
      cases ballots with
      | nil => rfl
      | cons p rest =>
          have hne := hother.resolve_right (by simp)
          simp [addBallot, Ne.symm hne]
  · rw [if_neg hvip] at hbitvotes
    exact ⟨ballots, hbitvotes, hballots.concat_own (Bool.not_eq_true _ ▸ hvip),
      fun hv => absurd hv hvip⟩

theorem Counted.stray_step (h : Counted act v₀ pre v) (hstart : v₀.lbbank = 0)
    (hd : Descending (pre ++ [e])) :
    (statusStep put v e).stray = true ↔ v₀.stray = true ∨ v₀.Strays (pre ++ [e]) := by
  obtain ⟨-, -, -, hstray, -⟩ := statusStep_vars put v e
  rw [h.isVip_eq] at hstray
  rw [hstray, Bool.or_eq_true, Votes.strays_concat, ← or_assoc, ← h.stray]
  have hsame : (v.enter put e.node).stray = v.stray := by
    rw [Votes.enter]
    split <;> rfl
  rw [hsame]
  refine or_congr_right ?_
  rw [Bool.and_eq_true, Bool.and_eq_true, beq_iff_eq, List.isEmpty_iff, Votes.StrayAt, StrayAt]
  cases h.entered put hstart hd with
  | @same l hl hnode hlbbank hsome hw =>
      obtain ⟨-, hla, hballot⟩ := h.latest l hl
      rw [hw, hla]
      constructor
      · rintro ⟨hvip, hvoter, hempty⟩
        exact absurd hempty (hballot (hvoter ▸ hvip))
      · rintro ⟨hnone, -⟩
        exact absurd hnone hsome
  | first hpre hnode hv hw =>
      rw [hw, if_pos ⟨hpre, hnode⟩, hpre]
      exact ⟨fun hall => ⟨rfl, hall⟩, fun hall => hall.2⟩
  | next hnone hlater hlbbank hlabank hempty _ =>
      rw [hlabank, hempty, if_neg hlater]
      exact ⟨fun hall => ⟨hnone, hall.1, hall.2.1⟩, fun hall => ⟨hall.2.1, hall.2.2, rfl⟩⟩

theorem State.votedBit_of_none (h : votesOn xs n = []) (i : Nat) : s.votedBit xs n i = false := by
  have hnone : voters s.isVip xs n = ∅ := by
    rw [voters, h]
    rfl
  rw [State.votedBit, hnone, Finset.card_empty, tallied, decide_eq_false (Nat.not_lt_zero _),
    Bool.false_and]

theorem State.votedBit_concat_ne (h : e.node ≠ n) (i : Nat) :
    s.votedBit (xs ++ [e]) n i = s.votedBit xs n i := by
  rw [State.votedBit, State.votedBit, voters, voters, askers, askers, votesOn_concat, if_neg h,
    List.append_nil]

theorem Ballots.votedBit {ballots : List (UInt16 × UInt8)} (h : Ballots s.isVip xs n ballots)
    (hi : i < 8) :
    tallied s.halfVotes (ballots.map Prod.snd).length
      ((ballots.map Prod.snd).countP (ballotBit · i)) = s.votedBit xs n i := by
  rw [State.votedBit, List.length_map, h.length_eq, h.countP_eq hi]

/-- The votes on a node are evaluated when those on the next one begin. -/
theorem Counted.closed_step (h : Counted act v₀ pre v) (hstart : v₀.lbbank = 0)
    (hd : Descending (pre ++ [e])) (n : UInt16) (hi : i < 8) :
    (v₀.closedBit pre v.lbbank n i || v.closing e.node n i) =
      v₀.closedBit (pre ++ [e]) e.node n i := by
  rw [Votes.closedBit, Votes.closedBit, Votes.closing]
  have hhalf : v.s.srvs.vtot.toNat / 2 = v₀.s.halfVotes := by
    rw [h.vtot]
    rfl
  rw [hhalf]
  by_cases hn : n = 0
  · subst hn
    rw [if_pos rfl, if_pos rfl, List.any_append]
    rcases List.eq_nil_or_concat pre with rfl | ⟨front, l, rfl⟩
    · -- The ballots in front of the loop are evaluated for node 0.
      rw [h.start rfl, hstart]
      simp [Votes.leftBit, eq_comm]
    · rw [List.concat_eq_append] at h hd ⊢
      have hl : (front ++ [l]).getLast? = some l := List.getLast?_concat
      have hmem := List.mem_of_getLast? hl
      have hle := (hd.node_le hmem).1
      rw [(h.latest l hl).1]
      by_cases hlast : l.node = 0
      · have hnode : e.node = 0 := by
          rw [hlast] at hle
          exact UInt16.le_antisymm hle (UInt16.zero_le)
        simp [hlast, hnode]
      · have hany : ((front ++ [l]).any fun e => e.node ≠ 0) = true :=
          List.any_eq_true.mpr ⟨l, hmem, by simpa using hlast⟩
        rw [hany]
        simp [Ne.symm hlast]
  · rw [if_neg hn, if_neg hn]
    by_cases hnode : e.node = n
    · by_cases hlbbank : v.lbbank = n
      · simp [hnode, hlbbank]
      · have hnone : votesOn pre n = [] := by
          cases h.entered (fun _ mask => mask) hstart hd with
          | same _ _ heq _ _ => exact absurd (heq.trans hnode) hlbbank
          | first _ hzero _ _ => exact absurd (hnode.symm.trans hzero) hn
          | next hnone _ _ _ _ _ => exact hnode ▸ hnone
        simp [State.votedBit_of_none hnone, hnode, Ne.symm hlbbank]
    · rw [State.votedBit_concat_ne hnode]
      by_cases hlbbank : v.lbbank = n
      · have hsome : ∃ e' ∈ pre, Vote.node e' ≠ 0 := by
          rcases List.eq_nil_or_concat pre with rfl | ⟨front, l, rfl⟩
          · rw [h.start rfl, hstart] at hlbbank
            exact absurd hlbbank.symm hn
          · rw [List.concat_eq_append] at h ⊢
            have hl : (front ++ [l]).getLast? = some l := List.getLast?_concat
            refine ⟨l, List.mem_of_getLast? hl, ?_⟩
            rw [← (h.latest l hl).1, hlbbank]
            exact hn
        obtain ⟨ballots, hmap, hballots, -⟩ := h.ballots (Or.inr hsome)
        rw [hlbbank] at hballots
        rw [hmap, hballots.votedBit hi, hlbbank]
        simp [hnode, Ne.symm hnode]
      · simp [hnode, hlbbank, Ne.symm hlbbank]

/-- One vote. -/
theorem Counted.step (hput : BitAction put act) (h : Counted act v₀ pre v) (hstart : v₀.lbbank = 0)
    (hd : Descending (pre ++ [e])) : Counted act v₀ (pre ++ [e]) (statusStep put v e) := by
  obtain ⟨hlbbank, hlabank, hbitvotes, -, hkept⟩ := statusStep_vars put v e
  have hlast {l : Vote} (hl : (pre ++ [e]).getLast? = some l) : l = e :=
    Option.some.inj (hl.symm.trans List.getLast?_concat)
  refine ⟨⟨hkept.size.trans h.size, hkept.last.trans h.last, hkept.vtot.trans h.vtot⟩, by simp,
    ?_, ?_, h.stray_step hstart hd, ?_⟩
  · intro l hl
    cases hlast hl
    refine ⟨hlbbank, hlabank, fun hvip => ?_⟩
    rw [hbitvotes, h.isVip_eq, if_pos hvip]
    exact addBallot_ne_nil _ _ _ _
  · intro hcase
    obtain ⟨ballots, hmap, hballots, hhead⟩ := h.ballots_step hstart hd hcase
    refine ⟨ballots, hmap, hlbbank ▸ hballots, fun l hl hvip => ?_⟩
    cases hlast hl
    exact hhead hvip
  · intro n hn j hj
    rw [statusStep_bit hput v e (by rw [h.size]; exact hn) hj, h.status n hn j hj, hput.act_act,
      askedBit_concat, hlbbank]
    congr 1
    have hvip : hasBit (v.s.last.node e.voter).status serverVip = v₀.s.isVip e.voter :=
      congrFun h.isVip_eq e.voter
    rw [hvip, ← h.closed_step hstart hd n (by omega : j - 24 < 8),
      Bool.and_or_distrib_left (decide (24 ≤ j)) (v₀.closedBit pre v.lbbank n (j - 24))]
    simp only [Bool.and_or_distrib_left]
    ac_rfl

/-- The votes of a block, in the order of the walk. -/
def walked (votes : Map UInt64 UInt32) : List Vote := votes.toList.reverse

theorem descending_walked (votes : Map UInt64 UInt32) : Descending (walked votes) := by
  rw [Descending, walked, List.pairwise_reverse]
  refine (Std.ExtTreeMap.ordered_keys_toList (t := votes)).imp ?_
  intro e e' h
  exact Std.compare_eq_lt.mp h

theorem Counted.init (hput : BitAction put act) : Counted act v₀ [] v₀ := by
  refine ⟨⟨rfl, rfl, rfl⟩, fun _ => rfl, by simp, fun hcase => ?_, ?_, fun n _ j _ => ?_⟩
  · have hempty : v₀.bitvotes = [] := by simpa using hcase
    exact ⟨[], hempty, Ballots.nil rfl, by simp⟩
  · refine (or_iff_left ?_).symm
    rintro ⟨pre, e, post, hsplit, -⟩
    simp at hsplit
  · have hclosed : v₀.closedBit [] v₀.lbbank n (j - 24) = false := by
      rw [Votes.closedBit, State.votedBit_of_none rfl]
      simp
    rw [hclosed, Bool.and_false, Bool.or_false]
    exact (hput.act_false _).symm

theorem Votes.foldl_counted (hput : BitAction put act) (hstart : v₀.lbbank = 0)
    (votes : Map UInt64 UInt32) :
    Counted act v₀ (walked votes) ((walked votes).foldl (statusStep put) v₀) := by
  refine foldl_invariant (Counted act v₀) (Counted.init hput) ?_
  intro pre e post v hsplit h
  have hd := descending_walked votes
  rw [← hsplit, List.append_cons] at hd
  exact h.step hput hstart (List.pairwise_append.mp hd).1

/-- A high bit of a node by a whole loop. -/
def Votes.doneBit (v : Votes) (xs : List Vote) (n : UInt16) (i : Nat) : Bool :=
  if n = 0 then (xs.any fun e => e.node ≠ 0) && v.leftBit i else v.s.votedBit xs n i

/-- The loop that starts with `v₀` behind its last vote. -/
structure Done (act : Bool → Bool → Bool) (v₀ : Votes) (xs : List Vote) (v : Votes) : Prop
    extends v₀.Kept v where
  lbbank : v.lbbank = 0
  labank : v.labank = (xs.getLast?.map Vote.voter).getD v₀.labank
  ballots : v₀.bitvotes = [] →
    ∃ ballots, v.bitvotes = ballots.map Prod.snd ∧ Ballots v₀.s.isVip xs 0 ballots
  stray : v.stray = true ↔ v₀.stray = true ∨ v₀.Strays xs
  status : ∀ n : UInt16, n.toNat < v₀.s.srvs.nodes.size → ∀ j < 32,
    bit (v.s.srvs.node n).status j = act (bit (v₀.s.srvs.node n).status j)
      (askedBit v₀.s.isVip xs n j || (decide (24 ≤ j) && v₀.doneBit xs n (j - 24)))

theorem Counted.labank_eq (h : Counted act v₀ pre v) :
    v.labank = (pre.getLast?.map Vote.voter).getD v₀.labank := by
  cases hl : pre.getLast? with
  | none => rw [h.start (List.getLast?_eq_none_iff.mp hl)]; rfl
  | some e => exact (h.latest e hl).2.1

/-- The last votes are on node 0: they stay open. -/
theorem Counted.done_open (h : Counted act v₀ pre v) (hlbbank : v.lbbank = 0) :
    Done act v₀ pre v := by
  refine ⟨h.toKept, hlbbank, h.labank_eq, fun hempty => ?_, h.stray, fun n hn j hj => ?_⟩
  · obtain ⟨ballots, hmap, hballots, -⟩ := h.ballots (Or.inl hempty)
    exact ⟨ballots, hmap, hlbbank ▸ hballots⟩
  · rw [h.status n hn j hj, hlbbank, Votes.closedBit, Votes.doneBit]
    by_cases hn0 : n = 0
    · simp [hn0]
    · simp [hn0, Ne.symm hn0]

/-- The last votes are on another node: they are evaluated behind the loop. -/
theorem Counted.done_close (hput : BitAction put act) (h : Counted act v₀ pre v)
    (hd : Descending pre) (hstart : v₀.lbbank = 0) (hlbbank : v.lbbank ≠ 0) :
    Done act v₀ pre { v.close put with lbbank := 0 } := by
  obtain ⟨l, hl⟩ : ∃ l, pre.getLast? = some l := by
    refine Option.ne_none_iff_exists'.mp fun hnone => hlbbank ?_
    rw [h.start (List.getLast?_eq_none_iff.mp hnone), hstart]
  have hnode := (h.latest l hl).1
  have hsome : ∃ e ∈ pre, Vote.node e ≠ 0 :=
    ⟨l, List.mem_of_getLast? hl, hnode ▸ hlbbank⟩
  refine ⟨⟨?_, ?_, ?_⟩, rfl, h.labank_eq, fun _ => ?_, h.stray, fun n hn j hj => ?_⟩
  · exact h.size
  · exact h.last
  · exact h.vtot
  · refine ⟨[], rfl, Ballots.nil ?_⟩
    refine List.eq_nil_iff_forall_not_mem.mpr fun e he => hlbbank ?_
    obtain ⟨hmem, hzero⟩ := mem_votesOn.mp he
    have hle := (hd.last_le hl hmem).1
    rw [hzero] at hle
    rw [hnode]
    exact UInt16.le_antisymm hle UInt16.zero_le
  · have hclose := v.close_bit hput (by rw [h.size]; exact hn) hj
    refine hclose.trans ?_
    obtain ⟨ballots, hmap, hballots, -⟩ := h.ballots (Or.inr hsome)
    have hhalf : v.s.srvs.vtot.toNat / 2 = v₀.s.halfVotes := by
      rw [h.vtot]
      rfl
    rw [h.status n hn j hj, hput.act_act, hmap, hhalf, hballots.votedBit (by omega),
      Votes.closedBit, Votes.doneBit]
    congr 1
    by_cases hn0 : n = 0
    · simp [hn0, Ne.symm hlbbank]
    · by_cases hlast : v.lbbank = n
      · simp [hn0, hlast]
      · simp [hn0, hlast, Ne.symm hlast]

theorem Votes.count_done (hput : BitAction put act) (hstart : v₀.lbbank = 0)
    (votes : Map UInt64 UInt32) : Done act v₀ (walked votes) (v₀.count put votes) := by
  have h := Votes.foldl_counted hput hstart votes
  rw [Votes.count, ← walked]
  generalize (walked votes).foldl (statusStep put) v₀ = v at h
  dsimp only
  split
  · rename_i hlbbank
    exact h.done_open hlbbank
  · rename_i hlbbank
    exact h.done_close hput (descending_walked votes) hstart hlbbank

end Loop

namespace State

variable (s : State)

/-- The requests to set bits, in the order of the walk. -/
def sets : List Vote := walked s.blk.sbs

/-- The requests to clear bits. -/
def clears : List Vote := walked s.blk.ubs

/-- More than half of the eligible voters ask for the high bit `i`. -/
def Majority (xs : List Vote) (n : UInt16) (i : Nat) : Prop :=
  s.halfVotes < (askers s.isVip xs n (24 + i)).card

/-- The requests `xs` have the votes to change the bit. -/
def Wanted (xs : List Vote) (n : UInt16) (j : Nat) : Prop :=
  3 ≤ j ∧ j < 16 ∧ (∃ e ∈ votesOn xs n, e.voter = n ∧ bit e.2 j = true) ∨
    16 ≤ j ∧ j < 24 ∧ (∃ e ∈ votesOn xs n, s.isVip e.voter = true ∧ bit e.2 j = true) ∨
      24 ≤ j ∧ s.Majority xs n (j - 24)

instance (xs : List Vote) (n : UInt16) (j : Nat) : Decidable (s.Wanted xs n j) :=
  inferInstanceAs (Decidable ((_ ∧ _ ∧ _) ∨ (_ ∧ _ ∧ _) ∨ (_ ∧ _ < _)))

/-- The status votes of a block do what they are for. -/
structure StatusVoted : Prop where
  defined : (countVotes s).stray = false
  status : ∀ n : UInt16, n.toNat < s.srvs.nodes.size → ∀ j < 32,
    bit ((commitStatus s).srvs.node n).status j = true ↔
      (bit (s.srvs.node n).status j = true ∨ s.Wanted s.sets n j) ∧ ¬s.Wanted s.clears n j

/-- The majority in bytes. -/
def ByteMajority (xs : List Vote) (n : UInt16) (i : Nat) : Prop :=
  s.halfVotes % 256 < (voters s.isVip xs n).card ∧
    s.halfVotes % 256 < (askers s.isVip xs n (24 + i)).card % 256

/-- Votes to set bits of node 0 are not evaluated. -/
def SetCounted (n : UInt16) (i : Nat) : Prop := n ≠ 0 ∧ s.ByteMajority s.sets n i

/-- Instead they clear the bits if there are votes to clear bits of another node. -/
def ClearCounted (n : UInt16) (i : Nat) : Prop :=
  if n = 0 then (∃ e ∈ s.clears, e.node ≠ 0) ∧ s.ByteMajority s.sets 0 i
  else s.ByteMajority s.clears n i

/-- The count of a high bit is right where it makes a difference. -/
structure CountsMatch (n : UInt16) (i : Nat) : Prop where
  lost : s.Majority s.clears n i → ¬s.ClearCounted n i →
    ¬bit (s.srvs.node n).status (24 + i) = true ∧ ¬s.SetCounted n i
  feigned : ¬s.Majority s.clears n i → s.ClearCounted n i →
    ¬bit (s.srvs.node n).status (24 + i) = true ∧ ¬s.Majority s.sets n i
  set : ¬s.Majority s.clears n i → ¬s.ClearCounted n i →
    bit (s.srvs.node n).status (24 + i) = true ∨ (s.Majority s.sets n i ↔ s.SetCounted n i)

/-- The votes for which the loops are right. -/
structure VotesCount : Prop where
  sets : ¬Strays s.isVip 0 True s.sets
  clears : ¬Strays s.isVip ((s.sets.getLast?.map Vote.voter).getD 0)
    (voters s.isVip s.sets 0 = ∅) s.clears
  high : ∀ n : UInt16, n.toNat < s.srvs.nodes.size → ∀ i < 8, s.CountsMatch n i

theorem votedBit_iff (xs : List Vote) (n : UInt16) (i : Nat) :
    s.votedBit xs n i = true ↔ s.ByteMajority xs n i := by
  rw [votedBit, tallied, Bool.and_eq_true, decide_eq_true_iff, decide_eq_true_iff, ByteMajority]

end State

theorem askedBit_iff :
    askedBit vip xs n j = true ↔
      3 ≤ j ∧ j < 16 ∧ (∃ e ∈ votesOn xs n, e.voter = n ∧ bit e.2 j = true) ∨
        16 ≤ j ∧ j < 24 ∧ ∃ e ∈ votesOn xs n, vip e.voter = true ∧ bit e.2 j = true := by
  simp only [askedBit, List.any_eq_true, Bool.or_eq_true, Bool.and_eq_true, decide_eq_true_iff]
  constructor
  · rintro ⟨e, he, ⟨hvoter, ⟨hlow, hhigh⟩, hbit⟩ | ⟨hvip, ⟨hlow, hhigh⟩, hbit⟩⟩
    · exact Or.inl ⟨hlow, hhigh, e, he, hvoter, hbit⟩
    · exact Or.inr ⟨hlow, hhigh, e, he, hvip, hbit⟩
  · rintro (⟨hlow, hhigh, e, he, hvoter, hbit⟩ | ⟨hlow, hhigh, e, he, hvip, hbit⟩)
    · exact ⟨e, he, Or.inl ⟨hvoter, ⟨hlow, hhigh⟩, hbit⟩⟩
    · exact ⟨e, he, Or.inr ⟨hvip, ⟨hlow, hhigh⟩, hbit⟩⟩

/-- Below the high bits the loops are right. -/
theorem State.wanted_low (s : State) (xs : List Vote) (n : UInt16) (hj : j < 24) :
    s.Wanted xs n j ↔ askedBit s.isVip xs n j = true := by
  rw [Wanted, askedBit_iff, ← or_assoc]
  exact or_iff_left fun h => absurd h.1 (by omega)

theorem State.wanted_high (s : State) (xs : List Vote) (n : UInt16) (i : Nat) :
    s.Wanted xs n (24 + i) ↔ s.Majority xs n i := by
  rw [Wanted, Nat.add_sub_cancel_left]
  constructor
  · rintro (⟨-, hlt, -⟩ | ⟨-, hlt, -⟩ | ⟨-, hmajority⟩)
    · omega
    · omega
    · exact hmajority
  · intro hmajority
    exact Or.inr (Or.inr ⟨by omega, hmajority⟩)

theorem askedBit_high : askedBit vip xs n (24 + i) = false := by
  rw [← Bool.not_eq_true, askedBit_iff]
  rintro (⟨-, hlt, -⟩ | ⟨-, hlt, -⟩) <;> omega

section Block

variable (s : State)

/-- The variables between the two loops. -/
def votesBetween : Votes := ({ s := s } : Votes).count (· ||| ·) s.blk.sbs

theorem sets_done : Done (· || ·) { s := s } s.sets (votesBetween s) :=
  Votes.count_done bitAction_or rfl s.blk.sbs

theorem clears_done : Done (fun x a => x && !a) (votesBetween s) s.clears (countVotes s) :=
  Votes.count_done bitAction_andNot (sets_done s).lbbank s.blk.ubs

theorem votesBetween_isVip : (votesBetween s).s.isVip = s.isVip := by
  funext a
  rw [State.isVip, (sets_done s).last]
  rfl

theorem votesBetween_halfVotes : (votesBetween s).s.halfVotes = s.halfVotes := by
  rw [State.halfVotes, (sets_done s).vtot]
  rfl

/-- The ballots left for the second loop are those to set bits of node 0. -/
theorem votesBetween_ballots : ∃ ballots, (votesBetween s).bitvotes = ballots.map Prod.snd ∧
    Ballots s.isVip s.sets 0 ballots :=
  (sets_done s).ballots rfl

theorem votesBetween_bitvotes_nil :
    (votesBetween s).bitvotes = [] ↔ voters s.isVip s.sets 0 = ∅ := by
  obtain ⟨ballots, hmap, hballots⟩ := votesBetween_ballots s
  rw [hmap, List.map_eq_nil_iff, ← List.length_eq_zero_iff, hballots.length_eq,
    Finset.card_eq_zero]

theorem votesBetween_leftBit (hi : i < 8) : (votesBetween s).leftBit i = s.votedBit s.sets 0 i := by
  obtain ⟨ballots, hmap, hballots⟩ := votesBetween_ballots s
  rw [Votes.leftBit, hmap, votesBetween_halfVotes, hballots.votedBit hi]

theorem countVotes_stray : (countVotes s).stray = true ↔
    Strays s.isVip 0 True s.sets ∨ Strays s.isVip ((s.sets.getLast?.map Vote.voter).getD 0)
      (voters s.isVip s.sets 0 = ∅) s.clears := by
  rw [(clears_done s).stray, (sets_done s).stray, Votes.Strays, Votes.Strays, votesBetween_isVip,
    votesBetween_bitvotes_nil, (sets_done s).labank]
  simp

theorem sets_doneBit (n : UInt16) (i : Nat) :
    ({ s := s } : Votes).doneBit s.sets n i = true ↔ s.SetCounted n i := by
  rw [Votes.doneBit, State.SetCounted]
  split
  · rename_i hn
    have hnone : ({ s := s } : Votes).leftBit i = false := by simp [Votes.leftBit, tallied]
    simp [hn, hnone]
  · rename_i hn
    exact (s.votedBit_iff _ _ _).trans (and_iff_right hn).symm

theorem clears_doneBit (n : UInt16) (hi : i < 8) :
    (votesBetween s).doneBit s.clears n i = true ↔ s.ClearCounted n i := by
  rw [Votes.doneBit, State.ClearCounted]
  split
  · rename_i hn
    rw [Bool.and_eq_true, votesBetween_leftBit s hi, s.votedBit_iff, List.any_eq_true]
    simp
  · rw [← s.votedBit_iff, State.votedBit, State.votedBit, votesBetween_isVip,
      votesBetween_halfVotes]

/-- A status bit after the votes of a block. -/
theorem commitStatus_bit (hn : n.toNat < s.srvs.nodes.size) (hj : j < 32) :
    bit ((commitStatus s).srvs.node n).status j = true ↔
      (bit (s.srvs.node n).status j = true ∨ askedBit s.isVip s.sets n j = true ∨
          24 ≤ j ∧ s.SetCounted n (j - 24)) ∧
        ¬(askedBit s.isVip s.clears n j = true ∨ 24 ≤ j ∧ s.ClearCounted n (j - 24)) := by
  have hsets := sets_done s
  have hset := hsets.status n hn j hj
  have hclear := (clears_done s).status n (by rw [hsets.size]; exact hn) j hj
  rw [commitStatus, hclear, hset, votesBetween_isVip, Bool.and_eq_true, Bool.not_eq_true',
    ← Bool.not_eq_true, Bool.or_eq_true, Bool.or_eq_true, Bool.or_eq_true, Bool.and_eq_true,
    Bool.and_eq_true, decide_eq_true_iff, sets_doneBit s n,
    clears_doneBit s n (by omega)]

theorem countsMatch_iff (n : UInt16) (i : Nat) : s.CountsMatch n i ↔
    ((bit (s.srvs.node n).status (24 + i) = true ∨ s.SetCounted n i) ∧ ¬s.ClearCounted n i ↔
      (bit (s.srvs.node n).status (24 + i) = true ∨ s.Majority s.sets n i) ∧
        ¬s.Majority s.clears n i) := by
  constructor
  · rintro ⟨hlost, hfeigned, hset⟩
    tauto
  · intro h
    exact ⟨by tauto, by tauto, by tauto⟩

/-- The requests to set and to clear status bits are counted right for exactly these votes. -/
theorem statusVoted_iff : s.StatusVoted ↔ s.VotesCount := by
  have hstray := countVotes_stray s
  constructor
  · rintro ⟨hdefined, hstatus⟩
    rw [hdefined] at hstray
    obtain ⟨hsets, hclears⟩ := not_or.mp (hstray.not.mp Bool.false_ne_true)
    refine ⟨hsets, hclears, fun n hn i hi => (countsMatch_iff s n i).mpr ?_⟩
    have hbit := hstatus n hn (24 + i) (by omega)
    rw [commitStatus_bit s hn (by omega), s.wanted_high, s.wanted_high, askedBit_high,
      askedBit_high, Nat.add_sub_cancel_left] at hbit
    simpa using hbit
  · rintro ⟨hsets, hclears, hhigh⟩
    refine ⟨Bool.not_eq_true _ ▸ hstray.not.mpr (not_or.mpr ⟨hsets, hclears⟩), ?_⟩
    intro n hn j hj
    rw [commitStatus_bit s hn hj]
    by_cases hlow : j < 24
    · rw [s.wanted_low _ _ hlow, s.wanted_low _ _ hlow]
      simp [Nat.not_le.mpr hlow]
    · obtain ⟨i, rfl⟩ := Nat.exists_eq_add_of_le (Nat.not_lt.mp hlow)
      have hmatch := (countsMatch_iff s n i).mp (hhigh n hn i (by omega))
      rw [s.wanted_high, s.wanted_high, askedBit_high, askedBit_high, Nat.add_sub_cancel_left]
      simpa using hmatch

end Block

namespace Sample

/-- Node 1 is the only VIP node. It asks for the high bit that node 0 has already, and to
clear one of node 2. -/
def voteState : State where
  srvs := { vtot := 1, nodes := .ofList [{ status := 0x1000000 }, { status := 2 }, {}] }
  last := { vtot := 1, nodes := .ofList [{ status := 0x1000000 }, { status := 2 }, {}] }
  usr _ := .empty
  blk :=
    { sbs := (∅ : Map UInt64 UInt32).insert (makePpi 1 0 1 1 0) 0x1000000
      ubs := (∅ : Map UInt64 UInt32).insert (makePpi 2 0 1 1 2) 0x1000000 }

end Sample

/-- The vote to set the bit of node 0 clears it. -/
theorem commitStatus_clears_set :
    bit ((commitStatus Sample.voteState).srvs.node 0).status 24 = false ∧
      ¬Sample.voteState.StatusVoted := by
  have hbit : bit ((commitStatus Sample.voteState).srvs.node 0).status 24 = false := by
    decide +kernel
  refine ⟨hbit, fun h => ?_⟩
  have hold : bit (Sample.voteState.srvs.node 0).status 24 = true := by decide +kernel
  have hkept : ¬Sample.voteState.Wanted Sample.voteState.clears 0 24 := by decide +kernel
  have hnew := (h.status 0 (by decide +kernel) 24 (by decide)).mpr ⟨Or.inl hold, hkept⟩
  rw [hbit] at hnew
  cases hnew

theorem voters_subset (xs : List Vote) (n : UInt16) :
    voters s.isVip xs n ⊆ Finset.univ.filter fun a => s.isVip a = true := by
  intro a ha
  exact Finset.mem_filter.mpr ⟨Finset.mem_univ a, (mem_voters.mp ha).1⟩

/-- With less than 256 VIP nodes the bytes are wide enough. -/
theorem State.byteMajority_iff (hhalf : s.srvs.vtot.toNat < 512)
    (hfew : (Finset.univ.filter fun a => s.isVip a = true).card < 256) (xs : List Vote)
    (n : UInt16) (i : Nat) : s.ByteMajority xs n i ↔ s.Majority xs n i := by
  have hvoters := Finset.card_le_card (voters_subset (s := s) xs n)
  have haskers := Finset.card_le_card (@askers_subset_voters n s.isVip xs (24 + i))
  rw [ByteMajority, Majority, halfVotes]
  omega

theorem State.not_majority_of_none (h : voters s.isVip xs n = ∅) : ¬s.Majority xs n i := by
  have haskers := @askers_subset_voters n s.isVip xs (24 + i)
  rw [h, Finset.subset_empty] at haskers
  rw [Majority, haskers, Finset.card_empty]
  exact Nat.not_lt_zero _

theorem voters_eq_empty (h : ∀ e ∈ xs, e.node = n → vip e.voter = false) : voters vip xs n = ∅ := by
  refine Finset.eq_empty_of_forall_notMem fun a ha => ?_
  obtain ⟨hvip, e, he, rfl⟩ := mem_voters.mp ha
  obtain ⟨hmem, hnode⟩ := mem_votesOn.mp he
  rw [h e hmem hnode] at hvip
  cases hvip

theorem not_strays {labank : UInt16} {empty : Prop} (hzero : vip 0 = false)
    (h : ∀ e ∈ xs, e.node = 0 → vip e.voter = false) :
    ¬Strays vip labank empty xs := by
  rintro ⟨pre, e, post, rfl, -, hvip, hstray⟩
  split at hstray
  · rename_i hfirst
    rw [h e (by simp) hfirst.2] at hvip
    cases hvip
  · rw [hstray, hzero] at hvip
    cases hvip

/-- The loops are right for the network as it is set up: with few VIP nodes, none of them
node 0, and no VIP votes on node 0. -/
theorem State.votesCount_of_few (hhalf : s.srvs.vtot.toNat < 512)
    (hfew : (Finset.univ.filter fun a => s.isVip a = true).card < 256) (hvip : s.isVip 0 = false)
    (hsets : ∀ e ∈ s.sets, e.node = 0 → s.isVip e.voter = false)
    (hclears : ∀ e ∈ s.clears, e.node = 0 → s.isVip e.voter = false) : s.VotesCount := by
  refine ⟨not_strays hvip hsets, not_strays hvip hclears, fun n _ i _ => ?_⟩
  have hbyte := State.byteMajority_iff hhalf hfew
  rw [countsMatch_iff, SetCounted, ClearCounted]
  by_cases hn : n = 0
  · subst hn
    have hset := State.not_majority_of_none (i := i) (voters_eq_empty hsets)
    have hclear := State.not_majority_of_none (i := i) (voters_eq_empty hclears)
    simp [hbyte, hset, hclear]
  · simp [hn, hbyte]

end Esc
