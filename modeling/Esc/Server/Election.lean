import Esc.Lib.Loop
import Esc.Lib.Map
import Esc.Lib.Word
import Esc.Servers

/-!
# The election of a block

The nodes that signed the last block are the electors of the next one. The vote of an elector adds
its weight to the score of a candidate, once, and a candidate is elected when the second one could
not catch up with all votes that are still open.

Two nodes see the votes in different orders, and some of them not at all. As long as they have the
same electors, and each elector votes for one candidate, they elect the same one.
-/

namespace Esc

open Lib

/-- What `prepare_poll` reads of a `BLK` message. -/
structure BlkMsg where
  svid : UInt16
  msid : UInt32
  /-- `MSGSTAT_VAL`. -/
  valid : Bool

/-- The fields of `candidate` that an election reads. -/
structure Contender where
  now : UInt32
  score : UInt64 := 0

structure Poll where
  /-- The time of the block. -/
  now : UInt32
  electors : Map UInt16 UInt64 := ∅
  votesMax : UInt64 := 0
  candidates : Map Hash Contender := ∅

/-- `get_vipuno`. -/
def Servers.vipuno (v : Servers) : UInt16 :=
  ((List.range v.nodes.size).tail.find? fun i => hasBit (v.nodes.get i).status serverUno).elim 0
    UInt16.ofNat

/-- The nodes that signed the last block; `dbl` is `known_dbl`. -/
def signers (last : Servers) (now : UInt32) (dbl : UInt16 → Bool) (blk : List BlkMsg) :
    Map UInt16 Unit :=
  let rset := blk.foldl (fun (rset : Map UInt16 Unit) m =>
    if m.svid.toNat < last.nodes.size ∧
        ¬ (hasBit (last.node m.svid).status serverDbl ∨ dbl m.svid) ∧
        m.msid = now - blockSec ∧ m.valid then rset.insert m.svid () else rset) ∅
  if rset.isEmpty ∧ last.now = (last.node 0).mtim then rset.insert last.vipuno () else rset

/-- The weight of a vote. -/
def electorScore (weight : Int64) : UInt64 := ((weight + totalMass) / 64).toUInt64

/-- The first electors by their weight. -/
def ranked (last : Servers) (rset : Map UInt16 Unit) : List UInt16 :=
  (rset.keys.insertionSort fun i j => (last.node j).weight ≤ (last.node i).weight).take vipMax

/-- `prepare_poll`, without the node's own turn to vote. -/
def preparePoll (last : Servers) (now : UInt32) (dbl : UInt16 → Bool) (blk : List BlkMsg)
    (candidates : Map Hash Contender) : Poll :=
  let rank := ranked last (signers last now dbl blk)
  { now
    electors := rank.foldl (fun m svid => m.insert svid (electorScore (last.node svid).weight)) ∅
    votesMax := rank.foldl (fun sum svid => sum + electorScore (last.node svid).weight) 0
    candidates := candidates.filter fun _ c => now ≤ c.now }

inductive PollEvent where
  /-- `save_candidate`. -/
  | save (cand : Hash) (blk : UInt32)
  /-- `cnd_validate`. -/
  | vote (svid : UInt16) (msid : UInt32) (cand : Hash)

/-- The vote of each elector is the one of `choice`. -/
def PollEvent.Follows (choice : UInt16 → Hash) : PollEvent → Prop
  | .save _ _ => True
  | .vote svid _ cand => choice svid = cand

namespace Poll

def step (p : Poll) : PollEvent → Poll
  | .save cand blk =>
    match p.candidates[cand]? with
    | none => { p with candidates := p.candidates.insert cand { now := blk } }
    | some _ => p
  | .vote svid msid cand =>
    if msid < p.now then p
    else
      match p.electors[svid]?, p.candidates[cand]? with
      | some weight, some c =>
        if weight = 0 then p
        else { p with
          candidates := p.candidates.insert cand { c with score := c.score + weight }
          electors := p.electors.insert svid 0 }
      | _, _ => p

def run (p : Poll) (events : List PollEvent) : Poll := events.foldl step p

end Poll

/-- The variables of the loop in `count_votes`. -/
structure Tally where
  best : Option (Hash × UInt64) := none
  second : Option UInt64 := none
  counted : UInt64 := 0

def Tally.add (t : Tally) (cand : Hash) (score : UInt64) : Tally :=
  let t := { t with counted := t.counted + score }
  if t.best.all fun b => b.2 < score then
    { t with best := some (cand, score), second := t.best.map Prod.snd }
  else if t.second.all (· < score) then { t with second := some score }
  else t

namespace Poll

def tally (p : Poll) : Tally :=
  p.candidates.toList.foldl (fun t q => t.add q.1 q.2.score) {}

/-- The candidate that `count_votes` elects before the timeout. -/
def elected (p : Poll) : Option Hash :=
  p.tally.best.bind fun b =>
    if p.tally.second.getD 0 + (p.votesMax - p.tally.counted) < b.2 then some b.1 else none

end Poll

/-! ## Accounting -/

namespace Poll

/-- The votes of the electors in `who` that are still open. -/
def openOf (p : Poll) (who : UInt16 → Bool) : ℤ :=
  p.electors.total fun svid weight => if who svid then weight.toNat else 0

/-- The weight of the votes that are still open. -/
def openVotes (p : Poll) : ℤ := p.openOf fun _ => true

def score (p : Poll) (cand : Hash) : ℕ := p.candidates[cand]?.elim 0 fun c => c.score.toNat

/-- The sum of all scores. -/
def castVotes (p : Poll) : ℤ := p.candidates.total fun _ c => c.score.toNat

/-- No vote is lost, and none is counted twice. -/
def Accounted (p : Poll) : Prop := p.castVotes + p.openVotes = p.votesMax.toNat

variable {p : Poll}

theorem openOf_nonneg (who : UInt16 → Bool) : 0 ≤ p.openOf who :=
  Map.total_nonneg fun _ _ _ => by split <;> omega

theorem openVotes_nonneg : 0 ≤ p.openVotes := openOf_nonneg _

/-- What an event can do. -/
theorem step_cases (p : Poll) (e : PollEvent) : p.step e = p ∨
    (∃ cand blk, p.candidates[cand]? = none ∧
      p.step e = { p with candidates := p.candidates.insert cand { now := blk } }) ∨
    ∃ svid msid cand weight c, e = .vote svid msid cand ∧ p.electors[svid]? = some weight ∧
      p.candidates[cand]? = some c ∧ p.step e = { p with
        candidates := p.candidates.insert cand { c with score := c.score + weight }
        electors := p.electors.insert svid 0 } := by
  cases e with
  | save cand blk =>
    rw [step]
    split
    · rename_i hnone
      exact .inr (.inl ⟨cand, blk, hnone, rfl⟩)
    · exact .inl rfl
  | vote svid msid cand =>
    rw [step]
    split
    · exact .inl rfl
    split
    · rename_i weight c hweight hc
      split
      · exact .inl rfl
      · exact .inr (.inr ⟨svid, msid, cand, weight, c, rfl, hweight, hc, rfl⟩)
    · exact .inl rfl

theorem score_of_getElem? {cand : Hash} {c : Contender} (h : p.candidates[cand]? = some c) :
    p.score cand = c.score.toNat := by
  rw [score, h]
  rfl

theorem score_le_castVotes (cand : Hash) : p.score cand ≤ p.castVotes := by
  cases h : p.candidates[cand]? with
  | none =>
    rw [score, h]
    exact Map.total_nonneg fun _ _ _ => Int.natCast_nonneg _
  | some c =>
    rw [score_of_getElem? h]
    exact Map.le_total (f := fun _ (c : Contender) => (c.score.toNat : ℤ))
      (fun _ _ _ => Int.natCast_nonneg _) h

/-- A vote that is counted does not make the score wrap. -/
theorem Accounted.toNat_add (h : p.Accounted) {svid : UInt16} {weight : UInt64} {cand : Hash}
    {c : Contender} (hweight : p.electors[svid]? = some weight)
    (hc : p.candidates[cand]? = some c) :
    (c.score + weight).toNat = c.score.toNat + weight.toNat := by
  have hscore := p.score_le_castVotes cand
  rw [score_of_getElem? hc] at hscore
  have hopen : (weight.toNat : ℤ) ≤ p.openVotes :=
    Map.le_total (f := fun _ (w : UInt64) => (w.toNat : ℤ)) (fun _ _ _ => Int.natCast_nonneg _)
      hweight
  have hmax := p.votesMax.toNat_lt
  rw [Accounted] at h
  rw [UInt64.toNat_add]
  omega

/-- An event moves the weight of at most one elector to the score of one candidate. -/
theorem Accounted.step_moves (h : p.Accounted) (e : PollEvent) : ∃ svid cand, ∃ weight : ℕ,
    (weight ≠ 0 → ∃ msid, e = .vote svid msid cand) ∧ (p.step e).votesMax = p.votesMax ∧
    (p.step e).castVotes = p.castVotes + weight ∧
    (∀ who, (p.step e).openOf who = p.openOf who - if who svid then (weight : ℤ) else 0) ∧
    ∀ other, (p.step e).score other = p.score other + if other = cand then weight else 0 := by
  obtain heq | ⟨cand, blk, hnone, heq⟩ | ⟨svid, msid, cand, weight, c, he, hweight, hc, heq⟩ :=
    p.step_cases e
  · exact ⟨0, 0, 0, by simp [heq]⟩
  · refine ⟨0, 0, 0, by simp, by rw [heq], ?_, by simp [heq, openOf], fun other => ?_⟩
    · rw [heq, castVotes, Map.total_insert, hnone]
      simp [castVotes]
    · rw [heq, score, score, Map.getElem?_insert]
      split
      · rename_i hother
        subst hother
        simp [hnone]
      · simp
  · have hadd := h.toNat_add hweight hc
    refine ⟨svid, cand, weight.toNat, fun _ => ⟨msid, he⟩, by rw [heq], ?_, fun who => ?_,
      fun other => ?_⟩
    · rw [heq, castVotes, Map.total_insert, hc, Option.elim_some, hadd]
      simp only [castVotes]
      omega
    · rw [heq, openOf, Map.total_insert, hweight]
      simp [openOf]
    · rw [heq, score, score, Map.getElem?_insert]
      split
      · rename_i hother
        subst hother
        simp [hc, hadd]
      · simp

theorem Accounted.step (h : p.Accounted) (e : PollEvent) : (p.step e).Accounted := by
  obtain ⟨_, _, weight, -, hmax, hcast, hopen, -⟩ := h.step_moves e
  rw [Accounted, openVotes] at h ⊢
  rw [hmax, hcast, hopen, if_pos rfl]
  omega

theorem Accounted.run (h : p.Accounted) (events : List PollEvent) : (p.run events).Accounted := by
  induction events generalizing p with
  | nil => exact h
  | cons e events ih => exact ih (h.step e)

end Poll

/-- An elector has at most one part in 64 of the range. -/
theorem toNat_electorScore_lt {weight : Int64} (h : 0 ≤ (weight + totalMass).toInt) :
    (electorScore weight).toNat < 2 ^ 57 := by
  have hlt := (fits_toInt (weight + totalMass)).2
  have hdiv : ((weight + totalMass) / 64).toInt = (weight + totalMass).toInt / 64 :=
    toInt_div h (by decide)
  have hcast : (electorScore weight).toNat = ((weight + totalMass) / 64).toInt.toNat := by
    refine Int64.toNat_toUInt64_of_le (Int64.le_iff_toInt_le.mpr ?_)
    rw [hdiv]
    exact Int.ediv_nonneg h (by decide)
  rw [hcast, hdiv]
  omega

theorem nodup_ranked (last : Servers) (rset : Map UInt16 Unit) : (ranked last rset).Nodup := by
  have hkeys : rset.keys.Nodup := by
    rw [← Std.ExtTreeMap.map_fst_toList_eq_keys]
    exact Map.nodup_keys rset
  exact ((List.perm_insertionSort _ _).nodup_iff.mpr hkeys).sublist (List.take_sublist _ _)

section Electors

variable {score : UInt16 → UInt64}

theorem openVotes_electors {rank : List UInt16} (h : rank.Nodup) :
    Map.total (fun _ weight => (weight.toNat : ℤ))
      (rank.foldl (fun m svid => m.insert svid (score svid)) ∅) =
      (rank.map fun svid => ((score svid).toNat : ℤ)).sum := by
  refine (foldl_invariant (fun pre (m : Map UInt16 UInt64) =>
    Map.total (fun _ weight => (weight.toNat : ℤ)) m =
      (pre.map fun svid => ((score svid).toNat : ℤ)).sum ∧ ∀ svid, svid ∉ pre → m[svid]? = none)
    ⟨Map.total_empty _, fun _ _ => Std.ExtTreeMap.getElem?_empty⟩ ?_).1
  rintro pre svid post m hsplit ⟨hsum, hnone⟩
  have hnew : svid ∉ pre := by
    rw [← hsplit] at h
    exact fun hmem => (List.nodup_append.mp h).2.2 svid hmem svid List.mem_cons_self rfl
  refine ⟨?_, fun other hother => ?_⟩
  · rw [Map.total_insert, hnone svid hnew, hsum]
    simp
  · rw [List.mem_append, List.mem_singleton, not_or] at hother
    rw [Map.getElem?_insert, if_neg hother.2]
    exact hnone other hother.1

theorem toNat_votesMax {rank : List UInt16} (hlength : rank.length ≤ vipMax)
    (hscore : ∀ svid, (score svid).toNat < 2 ^ 57) :
    ((rank.foldl (fun sum svid => sum + score svid) 0).toNat : ℤ) =
      (rank.map fun svid => ((score svid).toNat : ℤ)).sum := by
  refine (foldl_invariant (fun pre (sum : UInt64) =>
    (sum.toNat : ℤ) = (pre.map fun svid => ((score svid).toNat : ℤ)).sum ∧
      sum.toNat ≤ pre.length * 2 ^ 57) ⟨rfl, Nat.zero_le _⟩ ?_).1
  rintro pre svid post sum hsplit ⟨hsum, hle⟩
  have hlt := hscore svid
  have hpre : pre.length + 1 ≤ vipMax := by
    rw [← hsplit, List.length_append, List.length_cons] at hlength
    omega
  rw [vipMax] at hpre
  have hadd : (sum + score svid).toNat = sum.toNat + (score svid).toNat := by
    rw [UInt64.toNat_add]
    omega
  rw [hadd]
  refine ⟨?_, ?_⟩
  · simp [hsum]
  · rw [List.length_append, List.length_singleton]
    omega

end Electors

/-- The candidates that `prepare_poll` keeps have no votes yet. -/
def Fresh (now : UInt32) (candidates : Map Hash Contender) : Prop :=
  ∀ (cand : Hash) (c : Contender), candidates[cand]? = some c → now ≤ c.now → c.score = 0

/-- The vote of a node does not wrap. -/
def Servers.Weighted (last : Servers) : Prop :=
  ∀ svid, 0 ≤ ((last.node svid).weight + totalMass).toInt

section PreparePoll

variable {last : Servers} {now : UInt32} {candidates : Map Hash Contender}

theorem score_preparePoll {dbl : UInt16 → Bool} {blk : List BlkMsg} (h : Fresh now candidates)
    (cand : Hash) : (preparePoll last now dbl blk candidates).score cand = 0 := by
  cases hget : (preparePoll last now dbl blk candidates).candidates[cand]? with
  | none => rw [Poll.score, hget]; rfl
  | some c =>
    rw [Poll.score_of_getElem? hget]
    rw [preparePoll, Std.ExtTreeMap.getElem?_filter', Option.filter_eq_some_iff] at hget
    rw [h cand c hget.1 (of_decide_eq_true hget.2)]
    rfl

/-- The poll starts with all votes open. -/
theorem accounted_preparePoll (hweight : last.Weighted) (hfresh : Fresh now candidates)
    (dbl : UInt16 → Bool) (blk : List BlkMsg) :
    (preparePoll last now dbl blk candidates).Accounted := by
  have hlength : (ranked last (signers last now dbl blk)).length ≤ vipMax :=
    List.length_take_le vipMax _
  have hmax := toNat_votesMax hlength fun svid => toNat_electorScore_lt (hweight svid)
  have hcast : (preparePoll last now dbl blk candidates).castVotes = 0 := by
    refine List.sum_eq_zero fun x hx => ?_
    obtain ⟨q, hq, rfl⟩ := List.mem_map.mp hx
    rw [Int.natCast_eq_zero, ← Poll.score_of_getElem? (Map.mem_toList.mp hq)]
    exact score_preparePoll hfresh q.1
  rw [Poll.Accounted, hcast, zero_add]
  exact (openVotes_electors (nodup_ranked _ _)).trans hmax.symm

end PreparePoll

/-! ## Elected candidates -/

namespace Poll

variable {p : Poll}

/-- The votes that are still open do not suffice for another candidate. -/
def Leads (p : Poll) (cand : Hash) : Prop :=
  ∀ other, other ≠ cand → p.score other + p.openVotes < p.score cand

end Poll

/-- `cand` is the best candidate that the loop of `count_votes` has seen. -/
structure Tally.Leader (seen : List (Hash × Contender)) (t : Tally) (cand : Hash) (c : Contender) :
    Prop where
  best : t.best = some (cand, c.score)
  mem : (cand, c) ∈ seen
  le_best : ∀ q ∈ seen, q.2.score ≤ c.score
  le_second : ∀ q ∈ seen, q.1 ≠ cand → q.2.score ≤ t.second.getD 0
  second : t.second.getD 0 = 0 ∨ ∃ q ∈ seen, q.1 ≠ cand ∧ t.second.getD 0 = q.2.score

/-- The larger one of the second score and the new one stays. -/
theorem Tally.second_add {t : Tally} {score : UInt64} (cand : Hash)
    (h : ¬ t.best.all fun b => b.2 < score) : (t.add cand score).best = t.best ∧
      (t.second.getD 0 ≤ score ∧ (t.add cand score).second = some score ∨
        score ≤ t.second.getD 0 ∧ (t.add cand score).second = t.second) := by
  rw [add, if_neg h]
  cases hsecond : t.second with
  | none => exact ⟨rfl, .inl ⟨UInt64.zero_le, rfl⟩⟩
  | some y =>
    by_cases hy : y < score
    · rw [if_pos (by simpa using hy)]
      exact ⟨rfl, .inl ⟨UInt64.le_of_lt hy, rfl⟩⟩
    · rw [if_neg (by simpa using hy)]
      exact ⟨rfl, .inr ⟨UInt64.not_lt.mp hy, rfl⟩⟩

namespace Tally.Leader

variable {seen : List (Hash × Contender)} {t : Tally} {cand : Hash} {c : Contender}
  {q : Hash × Contender}

/-- The new candidate has more votes than the best one. -/
theorem overtake (h : t.Leader seen cand c) (hnew : q.1 ∉ seen.map Prod.fst)
    (hlt : c.score < q.2.score) : (t.add q.1 q.2.score).Leader (seen ++ [q]) q.1 q.2 := by
  have hadd : t.add q.1 q.2.score =
      { best := some (q.1, q.2.score), second := some c.score,
        counted := t.counted + q.2.score } := by
    simp [add, h.best, hlt]
  have hother : cand ≠ q.1 := fun heq => hnew (heq ▸ List.mem_map_of_mem h.mem)
  have hle : ∀ r ∈ seen, r.2.score ≤ q.2.score :=
    fun r hr => UInt64.le_trans (h.le_best r hr) (UInt64.le_of_lt hlt)
  rw [hadd]
  exact ⟨rfl, by simp, List.forall_mem_append.mpr ⟨hle, by simp⟩,
    List.forall_mem_append.mpr ⟨fun r hr _ => h.le_best r hr, by simp⟩,
    .inr ⟨(cand, c), by simp [h.mem], hother, rfl⟩⟩

/-- The best candidate stays; the new one may become the second. -/
theorem follow (h : t.Leader seen cand c) (hnew : q.1 ∉ seen.map Prod.fst)
    (hle : q.2.score ≤ c.score) : (t.add q.1 q.2.score).Leader (seen ++ [q]) cand c := by
  have hother : q.1 ≠ cand := fun heq => hnew (heq ▸ List.mem_map_of_mem h.mem)
  obtain ⟨hbest, hsecond⟩ := t.second_add q.1 (by simpa [h.best] using hle)
  have hmem : (cand, c) ∈ seen ++ [q] := List.mem_append_left _ h.mem
  have hbound : ∀ r ∈ seen ++ [q], r.2.score ≤ c.score :=
    List.forall_mem_append.mpr ⟨h.le_best, by simpa using hle⟩
  obtain ⟨hge, heq⟩ | ⟨hge, heq⟩ := hsecond
  · refine ⟨hbest.trans h.best, hmem, hbound, ?_, .inr ⟨q, by simp, hother, by rw [heq]; rfl⟩⟩
    rw [heq]
    exact List.forall_mem_append.mpr
      ⟨fun r hr hne => UInt64.le_trans (h.le_second r hr hne) hge, by simp⟩
  · refine ⟨hbest.trans h.best, hmem, hbound, ?_, ?_⟩
    · rw [heq]
      exact List.forall_mem_append.mpr ⟨h.le_second, by simpa using fun _ => hge⟩
    · rw [heq]
      refine h.second.imp_right fun hq => ?_
      obtain ⟨r, hr, hsome⟩ := hq
      exact ⟨r, List.mem_append_left _ hr, hsome⟩

end Tally.Leader

theorem Tally.counted_add (t : Tally) (cand : Hash) (score : UInt64) :
    (t.add cand score).counted = t.counted + score := by
  rw [add]
  split
  · rfl
  · split <;> rfl

namespace Poll

variable {p : Poll} {cand : Hash}

/-- The loop of `count_votes` ends with the sum of all scores and the best two of them. -/
theorem Accounted.tally (h : p.Accounted) : (p.tally.counted.toNat : ℤ) = p.castVotes ∧
    (p.candidates.toList = [] ∧ p.tally = {} ∨
      ∃ cand c, p.tally.Leader p.candidates.toList cand c) := by
  refine foldl_invariant (fun pre (t : Tally) =>
    (t.counted.toNat : ℤ) = (pre.map fun q => (q.2.score.toNat : ℤ)).sum ∧
      (pre = [] ∧ t = {} ∨ ∃ cand c, t.Leader pre cand c)) ⟨rfl, .inl ⟨rfl, rfl⟩⟩ ?_
  rintro pre q post t hsplit ⟨hcounted, hbest⟩
  have hnew : q.1 ∉ pre.map Prod.fst := by
    have hkeys := Map.nodup_keys p.candidates
    rw [← hsplit, List.map_append] at hkeys
    exact fun hmem => (List.nodup_append.mp hkeys).2.2 q.1 hmem q.1 (by simp) rfl
  refine ⟨?_, .inr ?_⟩
  · have hpost : 0 ≤ (post.map fun q => (q.2.score.toNat : ℤ)).sum := by
      refine List.sum_nonneg fun x hx => ?_
      obtain ⟨r, -, rfl⟩ := List.mem_map.mp hx
      exact Int.natCast_nonneg _
    have hsum : p.castVotes = (pre.map fun q => (q.2.score.toNat : ℤ)).sum +
        (q.2.score.toNat + (post.map fun q => (q.2.score.toNat : ℤ)).sum) := by
      rw [castVotes, Map.total, ← hsplit]
      simp
    have hopen := p.openVotes_nonneg
    have hmax := p.votesMax.toNat_lt
    rw [Accounted] at h
    rw [Tally.counted_add, UInt64.toNat_add, Nat.mod_eq_of_lt (by omega)]
    simp [hcounted]
  · obtain ⟨rfl, rfl⟩ | ⟨cand, c, hlead⟩ := hbest
    · exact ⟨q.1, q.2, rfl, by simp, by simp, by simp, .inl rfl⟩
    · by_cases hlt : c.score < q.2.score
      · exact ⟨q.1, q.2, hlead.overtake hnew hlt⟩
      · exact ⟨cand, c, hlead.follow hnew (UInt64.not_lt.mp hlt)⟩

theorem score_of_mem {c : Contender} (h : (cand, c) ∈ p.candidates.toList) :
    p.score cand = c.score.toNat :=
  score_of_getElem? (Map.mem_toList.mp h)

/-- Only a candidate can lead. -/
theorem Leads.mem (h : p.Leads cand) : ∃ c, (cand, c) ∈ p.candidates.toList := by
  have hlt := h (cand + 1) (by simp)
  have hopen := p.openVotes_nonneg
  cases hget : p.candidates[cand]? with
  | none =>
    rw [score.eq_def p cand, hget, Option.elim_none] at hlt
    omega
  | some c => exact ⟨c, Map.mem_toList.mpr hget⟩

/-- The second score of a tally belongs to a candidate that is not the best one. -/
theorem toNat_second {c : Contender} (h : p.tally.Leader p.candidates.toList cand c) :
    ∃ other, other ≠ cand ∧ (p.tally.second.getD 0).toNat ≤ p.score other := by
  obtain hzero | ⟨q, hq, hne, heq⟩ := h.second
  · rw [hzero]
    exact ⟨cand + 1, by simp, Nat.zero_le _⟩
  · rw [heq]
    exact ⟨q.1, hne, (score_of_mem hq).ge⟩

theorem score_le_second {c : Contender} (h : p.tally.Leader p.candidates.toList cand c)
    {other : Hash} (hne : other ≠ cand) : p.score other ≤ (p.tally.second.getD 0).toNat := by
  cases hget : p.candidates[other]? with
  | none => simp [score, hget]
  | some d =>
    have hle := h.le_second (other, d) (Map.mem_toList.mpr hget) hne
    rw [score_of_getElem? hget]
    exact UInt64.le_iff_toNat_le.mp hle

/-- The votes that are not counted yet are the open ones. -/
theorem Accounted.toNat_sub (h : p.Accounted) :
    ((p.votesMax - p.tally.counted).toNat : ℤ) = p.openVotes := by
  have hcounted := h.tally.1
  have hopen := p.openVotes_nonneg
  rw [Accounted] at h
  rw [UInt64.toNat_sub_of_le _ _ (UInt64.le_iff_toNat_le.mpr (by omega))]
  omega

/-- The second score and the open votes do not wrap. -/
theorem Accounted.toNat_second_add {c : Contender} (h : p.Accounted)
    (hlead : p.tally.Leader p.candidates.toList cand c) :
    ((p.tally.second.getD 0 + (p.votesMax - p.tally.counted)).toNat : ℤ) =
      (p.tally.second.getD 0).toNat + p.openVotes := by
  obtain ⟨other, -, hother⟩ := toNat_second hlead
  have hscore := p.score_le_castVotes other
  have hsub := h.toNat_sub
  have hmax := p.votesMax.toNat_lt
  rw [Accounted] at h
  rw [UInt64.toNat_add, Nat.mod_eq_of_lt (by omega)]
  omega

/-- `count_votes` elects the candidate that no other one can reach. -/
theorem Accounted.elected_iff (h : p.Accounted) : p.elected = some cand ↔ p.Leads cand := by
  obtain ⟨hempty, htally⟩ | ⟨best, c, hlead⟩ := h.tally.2
  · refine ⟨fun helected => ?_, fun hleads => ?_⟩
    · simp [elected, htally] at helected
    · obtain ⟨c, hc⟩ := hleads.mem
      simp [hempty] at hc
  · have hsum := h.toNat_second_add hlead
    have hbest := score_of_mem hlead.mem
    have helected : p.elected = some cand ↔
        p.tally.second.getD 0 + (p.votesMax - p.tally.counted) < c.score ∧ best = cand := by
      rw [elected, hlead.best, Option.bind_some]
      simp
    rw [helected, UInt64.lt_iff_toNat_lt]
    constructor
    · rintro ⟨hlt, rfl⟩ other hne
      have hother := score_le_second hlead hne
      omega
    · intro hleads
      have heq : best = cand := by
        by_contra hne
        have hlt := hleads best hne
        have hopen := p.openVotes_nonneg
        obtain ⟨d, hd⟩ := hleads.mem
        have hle : d.score.toNat ≤ c.score.toNat :=
          UInt64.le_iff_toNat_le.mp (hlead.le_best (cand, d) hd)
        have hcand := score_of_mem hd
        omega
      subst heq
      obtain ⟨other, hne, hother⟩ := toNat_second hlead
      have hlt := hleads other hne
      exact ⟨by omega, rfl⟩

/-! ## One vote for each elector -/

theorem openOf_le (who : UInt16 → Bool) : p.openOf who ≤ p.openVotes := by
  refine List.sum_le_sum fun q _ => ?_
  dsimp only
  rw [if_pos rfl]
  split <;> omega

/-- Whatever happens next, no other candidate can reach the one that leads. -/
theorem Leads.step (hacc : p.Accounted) (h : p.Leads cand) (e : PollEvent) :
    (p.step e).Leads cand := by
  obtain ⟨svid, voted, weight, -, -, -, hopen, hscore⟩ := hacc.step_moves e
  intro other hne
  have hlt := h other hne
  rw [openVotes] at hlt ⊢
  rw [hscore, hscore, hopen, if_pos rfl]
  split <;> split <;> omega

theorem Leads.run (hacc : p.Accounted) (h : p.Leads cand) (events : List PollEvent) :
    (p.run events).Leads cand := by
  induction events generalizing p with
  | nil => exact h
  | cons e events ih => exact ih (hacc.step e) (h.step hacc e)

/-- The votes for a candidate, counted and open ones, when each elector has one choice. -/
def backing (p : Poll) (choice : UInt16 → Hash) (cand : Hash) : ℤ :=
  p.score cand + p.openOf fun svid => choice svid = cand

variable {choice : UInt16 → Hash} {events : List PollEvent}

theorem Accounted.backing_step (h : p.Accounted) {e : PollEvent} (hfollow : e.Follows choice) :
    (p.step e).backing choice cand = p.backing choice cand := by
  obtain ⟨svid, voted, weight, hvote, -, -, hopen, hscore⟩ := h.step_moves e
  rw [backing, backing, hscore, hopen]
  by_cases hzero : weight = 0
  · simp [hzero]
  · obtain ⟨msid, rfl⟩ := hvote hzero
    have hchoice : choice svid = voted := hfollow
    by_cases hcand : cand = voted
    · simp [hchoice, hcand]
    · simp [hchoice, hcand, Ne.symm hcand]

theorem Accounted.backing_run (h : p.Accounted) (hfollow : ∀ e ∈ events, e.Follows choice) :
    (p.run events).backing choice cand = p.backing choice cand := by
  induction events generalizing p with
  | nil => rfl
  | cons e events ih =>
    have hrest := ih (h.step e) fun e he => hfollow e (List.mem_cons_of_mem _ he)
    exact hrest.trans (h.backing_step (hfollow e List.mem_cons_self))

/-- The candidate that leads has more votes behind it than any other one. -/
theorem Leads.backing_lt (h : p.Leads cand) (choice : UInt16 → Hash) {other : Hash}
    (hne : other ≠ cand) :
    p.backing choice other < p.backing choice cand := by
  have hlt := h other hne
  have hother := p.openOf_le fun svid => choice svid = other
  have hcand := p.openOf_nonneg fun svid => choice svid = cand
  rw [backing, backing]
  omega

end Poll

section Agreement

variable {last : Servers} {now : UInt32} {dbl : UInt16 → Bool} {blk : List BlkMsg}
  {candidates candidates' : Map Hash Contender} {events events' : List PollEvent} {a b : Hash}

/-- After any events the scores and the open votes are all votes, and `count_votes` computes the sum
of the scores and of the open votes. -/
theorem tally_run (hweight : last.Weighted) (hfresh : Fresh now candidates) {p : Poll}
    (h : p = (preparePoll last now dbl blk candidates).run events) :
    p.castVotes + p.openVotes = p.votesMax.toNat ∧ (p.tally.counted.toNat : ℤ) = p.castVotes ∧
      ((p.votesMax - p.tally.counted).toNat : ℤ) = p.openVotes := by
  have hacc : p.Accounted := h ▸ (accounted_preparePoll hweight hfresh dbl blk).run events
  exact ⟨hacc, hacc.tally.1, hacc.toNat_sub⟩

namespace Sample

/-- Three nodes signed the last block. -/
def signed : Servers where
  nodes := .ofList [{}, { weight := 300 }, { weight := 200 }, { weight := 100 }]

def signatures : List BlkMsg := [⟨1, 0, true⟩, ⟨2, 0, true⟩, ⟨3, 0, true⟩]

/-- Two of them vote for the same candidate, before the third one. -/
def twoVotes : List PollEvent :=
  [.save 7 blockSec, .vote 1 (blockSec + 1) 7, .save 8 blockSec, .vote 2 (blockSec + 1) 7]

/-- Another node knows the vote of the third one. -/
def lateVotes : List PollEvent :=
  [.save 8 blockSec, .save 7 blockSec, .vote 3 (blockSec + 2) 7, .vote 1 (blockSec + 1) 7]

theorem weighted_signed : signed.Weighted := by
  intro svid
  rw [Servers.node]
  obtain hlt | hge := Nat.lt_or_ge svid.toNat 4
  · have hnodes : ∀ i < 4, 0 ≤ ((signed.nodes.get i).weight + totalMass).toInt := by decide
    exact hnodes _ hlt
  · rw [signed.nodes.beyond _ hge]
    decide

theorem fresh_empty : Fresh blockSec ∅ := by
  intro cand c h
  simp at h

def poll : Poll := preparePoll signed blockSec (fun _ => false) signatures ∅

theorem elected_twoVotes : (poll.run twoVotes).elected = some 7 := by decide +kernel

theorem elected_lateVotes : (poll.run lateVotes).elected.isSome = true := by decide +kernel

end Sample

theorem tally_run_twoVotes : ((Sample.poll.run Sample.twoVotes).tally.counted.toNat : ℤ) =
    (Sample.poll.run Sample.twoVotes).castVotes :=
  (tally_run Sample.weighted_signed Sample.fresh_empty rfl).2.1

/-- An elected candidate stays elected: whatever votes and candidates arrive later, from whichever
electors and in whichever order, `count_votes` elects the same one. -/
theorem elected_run_append (hweight : last.Weighted) (hfresh : Fresh now candidates)
    (h : ((preparePoll last now dbl blk candidates).run events).elected = some a)
    (later : List PollEvent) :
    ((preparePoll last now dbl blk candidates).run (events ++ later)).elected = some a := by
  have hacc := (accounted_preparePoll hweight hfresh dbl blk).run events
  have hleads := hacc.elected_iff.mp h
  rw [Poll.run, List.foldl_append]
  exact (hacc.run later).elected_iff.mpr (hleads.run hacc later)

theorem elected_run_append_twoVotes :
    (Sample.poll.run (Sample.twoVotes ++ [.vote 3 (blockSec + 2) 8])).elected = some 7 :=
  elected_run_append Sample.weighted_signed Sample.fresh_empty Sample.elected_twoVotes _

/-- Two nodes with the same electors that both elect a candidate elect the same one, as long as no
elector votes for two candidates: they may have seen different votes, in different orders. -/
theorem elected_agree (hweight : last.Weighted) (hfresh : Fresh now candidates)
    (hfresh' : Fresh now candidates') (choice : UInt16 → Hash)
    (hfollow : ∀ e ∈ events, e.Follows choice) (hfollow' : ∀ e ∈ events', e.Follows choice)
    (ha : ((preparePoll last now dbl blk candidates).run events).elected = some a)
    (hb : ((preparePoll last now dbl blk candidates').run events').elected = some b) : a = b := by
  have hacc := accounted_preparePoll hweight hfresh dbl blk
  have hacc' := accounted_preparePoll hweight hfresh' dbl blk
  have hsame (cand : Hash) : (preparePoll last now dbl blk candidates).backing choice cand =
      (preparePoll last now dbl blk candidates').backing choice cand := by
    rw [Poll.backing, Poll.backing, score_preparePoll hfresh, score_preparePoll hfresh']
    rfl
  by_contra hne
  have hlt := ((hacc.run events).elected_iff.mp ha).backing_lt choice (Ne.symm hne)
  have hlt' := ((hacc'.run events').elected_iff.mp hb).backing_lt choice hne
  rw [hacc.backing_run hfollow, hacc.backing_run hfollow] at hlt
  rw [hacc'.backing_run hfollow', hacc'.backing_run hfollow', ← hsame, ← hsame] at hlt'
  omega

/-- The two runs of the sample elect the same candidate. -/
theorem elected_agree_lateVotes :
    (Sample.poll.run Sample.twoVotes).elected = some 7 ∧
      (Sample.poll.run Sample.lateVotes).elected = some 7 := by
  obtain ⟨b, hb⟩ := Option.isSome_iff_exists.mp Sample.elected_lateVotes
  have hagree := elected_agree Sample.weighted_signed Sample.fresh_empty Sample.fresh_empty
    (fun _ => 7) (by simp [Sample.twoVotes, PollEvent.Follows])
    (by simp [Sample.lateVotes, PollEvent.Follows]) Sample.elected_twoVotes hb
  exact ⟨Sample.elected_twoVotes, hagree ▸ hb⟩

end Agreement

end Esc
