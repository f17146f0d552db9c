import Esc.Server.BankBooks

/-!
# The sweep over the accounts

In the second half of a dividend period `commit_dividends` goes through a part of the
accounts of every bank in each block: one segment of 32 accounts in every 1024. The loop
seeks at the start of a segment only; within it the position in the account file follows
from the reads and from the writes, which step back into the record just read.

`sweepDividends` is this loop, with its jumps and with the position in the file.
`commitDividends` visits the accounts whose turn it is, each at its own record.
-/

namespace Esc

open Lib

variable {env : Env} {b : UInt16} {p : Pass} {i k q turn : Nat}

/-- The accounts of a segment, and the segments of a stride. -/
def sweepSegment : Nat := 32

def sweepPeriod : Nat := 1024

/-- The inner loop, with the file at record `pos`: a read moves on unless the file has
ended. `none` is the exit, no next account the jump to the next bank. The position does not
run ahead of the account, so it has 32 bits as well. -/
def visitSegment (env : Env) (svid : UInt16) (uend : UInt32) :
    Nat → Pass → UInt32 → UInt32 → Option (Pass × Option UInt32)
  | 0, p, user, _ => some (p, some user)
  | n + 1, p, user, pos =>
      if uend ≤ user then some (p, none)
      else
        match dividendUserAt env svid p user pos with
        | none => none
        | some p' =>
            visitSegment env svid uend n p' (user + 1)
              (if pos.toNat < (p.s.usr svid).size then pos + 1 else pos)

/-- The outer loop; the outer `none` is a lack of fuel. -/
def visitFrom (env : Env) (svid : UInt16) (uend : UInt32) :
    Nat → Pass → UInt32 → Option (Option Pass)
  | 0, _, _ => none
  | fuel + 1, p, user =>
      match visitSegment env svid uend sweepSegment p user user with
      | none => some none
      | some (p, none) => some (some p)
      | some (p, some user) =>
          visitFrom env svid uend fuel p
            (user + UInt32.ofNat (sweepSegment * (sweepPeriod - 1)))

/-- The visits to one bank. -/
def visitBank (env : Env) (fuel : Nat) (acc : State × User) (svid : UInt16) :
    Option (Option (State × User)) :=
  let (s, u) := acc
  let user := UInt32.ofNat
    (sweepSegment * (((s.srvs.now / blockSec).toNat + svid.toNat) % sweepPeriod))
  let uend := (s.srvs.node svid).users
  if uend ≤ user then some (some (s, u))
  else
    (visitFrom env svid uend fuel { s := s, u := u } user).map
      (·.map fun p => (p.s.saveUndo svid p.undo 0, p.u))

/-- The visits to a list of banks. -/
def visitBanks (env : Env) (fuel : Nat) :
    List UInt16 → State × User → Option (Option (State × User))
  | [], acc => some (some acc)
  | svid :: banks, acc =>
      match visitBank env fuel acc svid with
      | none => none
      | some none => some none
      | some (some acc) => visitBanks env fuel banks acc

/-- `commit_dividends` with its loops. -/
def sweepDividends (env : Env) (fuel : Nat) (s : State) : Option (Option State) :=
  if s.srvs.now / blockSec % blockDiv < blockDiv / 2 then some (some s)
  else (visitBanks env fuel s.banks (s, env.junk)).map (·.map Prod.fst)

theorem toNat_ofNat_of_lt (h : i < 2 ^ 32) : (UInt32.ofNat i).toNat = i :=
  UInt32.toNat_ofNat_of_lt' h

section Visits

variable {s s' : State} {uid : UInt32}

theorem Visited.shape (h : Visited env s s' b uid) : SameShape s s' := by
  cases h with
  | idle _ _ h => exact h ▸ (s.addFee_same b _).toSameAccounts.shape
  | post _ h _ _ => exact h.shape

theorem Visited.record_ne (h : Visited env s s' b uid) {b' : UInt16} {uid' : UInt32}
    (hne : b' ≠ b ∨ uid' ≠ uid) : s'.record b' uid' = s.record b' uid' := by
  cases h with
  | idle _ _ h => rw [h]; rfl
  | post _ h _ _ =>
      refine h.record_ne fun hand => ?_
      exact hne.elim (· hand.1) (· (UInt32.toNat_inj.mp hand.2))

/-- The visits to accounts on file keep the nodes and the sizes of the files. -/
theorem visits_shape {p' : Pass} {users : List UInt32} (hbank : b.toNat < p.s.srvs.nodes.size)
    (hfile : ∀ uid ∈ users, p.s.onFile b uid) (h : users.foldlM (dividendUser env b) p = some p') :
    SameShape p.s p'.s := by
  induction users generalizing p with
  | nil =>
      cases h
      exact .refl _
  | cons uid users ih =>
      obtain ⟨p₁, hfirst, hrest⟩ := Option.bind_eq_some_iff.mp h
      have hvisit := (dividendUser_visited hbank (hfile uid List.mem_cons_self) hfirst).shape
      exact hvisit.trans (ih (by rwa [hvisit.size])
        (fun uid' hmem => hvisit.onFile (hfile uid' (List.mem_cons_of_mem uid hmem))) hrest)

/-- Within a segment the loop visits account after account, each at its record. -/
theorem visitSegment_eq {uend : UInt32} (hbank : b.toNat < p.s.srvs.nodes.size)
    (hsize : uend.toNat ≤ (p.s.usr b).size) (n i : Nat) (hroom : i + n ≤ 2 ^ 32) :
    visitSegment env b uend n p (UInt32.ofNat i) (UInt32.ofNat i) =
      (((List.range' i (min n (uend.toNat - i))).map UInt32.ofNat).foldlM
        (dividendUser env b) p).map fun p =>
          (p, if i + n ≤ max i uend.toNat then some (UInt32.ofNat (i + n)) else none) := by
  induction n generalizing i p with
  | zero => simp [visitSegment]
  | succ n ih =>
      have hi : (UInt32.ofNat i).toNat = i := toNat_ofNat_of_lt (by omega)
      rw [visitSegment]
      by_cases hend : uend ≤ UInt32.ofNat i
      · have hle := UInt32.le_iff_toNat_le.mp hend
        rw [hi] at hle
        rw [if_pos hend, if_neg (by omega), Nat.sub_eq_zero_of_le hle, Nat.min_zero]
        rfl
      · have hlt := UInt32.lt_iff_toNat_lt.mp (UInt32.not_le.mp hend)
        rw [hi] at hlt
        have hpos : (UInt32.ofNat i).toNat < (p.s.usr b).size := by omega
        have hnext : UInt32.ofNat i + 1 = UInt32.ofNat (i + 1) := (UInt32.ofNat_add i 1).symm
        have hcount : min (n + 1) (uend.toNat - i) = min n (uend.toNat - (i + 1)) + 1 := by omega
        rw [if_neg hend, if_pos hpos, hnext, hcount, List.range'_succ, List.map_cons,
          List.foldlM_cons]
        have hat : dividendUserAt env b p (UInt32.ofNat i) (UInt32.ofNat i) =
            dividendUser env b p (UInt32.ofNat i) := rfl
        rw [hat]
        cases hvisit : dividendUser env b p (UInt32.ofNat i) with
        | none => rfl
        | some p' =>
            have hshape := (dividendUser_visited hbank hpos hvisit).shape
            have hmax : max (i + 1) uend.toNat = max i uend.toNat := by omega
            dsimp only
            rw [ih (by rwa [hshape.size]) (by rwa [hshape.files]) (i + 1) (by omega)]
            simp only [hmax, show i + 1 + n = i + (n + 1) by omega]
            rfl

end Visits

/-- The accounts from `i` on that are in the segments of one turn. -/
def turnFrom (turn i uend : Nat) : List Nat :=
  (List.range' i (uend - i)).filter fun j => j / sweepSegment % sweepPeriod = turn

theorem turnFrom_append {uend : Nat} (hik : i ≤ k) (hk : k ≤ uend) :
    turnFrom turn i uend = turnFrom turn i k ++ turnFrom turn k uend := by
  have hrange : List.range' i (uend - i) = List.range' i (k - i) ++ List.range' k (uend - k) := by
    have happend := @List.range'_append i (k - i) (uend - k) 1
    rw [Nat.one_mul, Nat.add_sub_cancel' hik,
      show k - i + (uend - k) = uend - i by omega] at happend
    exact happend.symm
  rw [turnFrom, turnFrom, turnFrom, hrange, List.filter_append]

/-- A segment of the turn. -/
theorem turnFrom_of_segment (hq : q % sweepPeriod = turn)
    (hk : k ≤ sweepSegment * q + sweepSegment) :
    turnFrom turn (sweepSegment * q) k = List.range' (sweepSegment * q) (k - sweepSegment * q) := by
  refine List.filter_eq_self.mpr fun j hj => ?_
  obtain ⟨hle, hlt⟩ := List.mem_range'_1.mp hj
  have hdiv : j / sweepSegment = q := by
    rw [sweepSegment] at *
    omega
  simp [hdiv, hq]

/-- The segments between two turns. -/
theorem turnFrom_between (hq : q % sweepPeriod = turn) (hk : k ≤ sweepSegment * (q + sweepPeriod)) :
    turnFrom turn (sweepSegment * (q + 1)) k = [] := by
  refine List.filter_eq_nil_iff.mpr fun j hj hturn => ?_
  obtain ⟨hle, hlt⟩ := List.mem_range'_1.mp hj
  have hmod := of_decide_eq_true hturn
  simp only [sweepSegment, sweepPeriod] at *
  omega

theorem turnFrom_of_le {uend : Nat} (h : uend ≤ i) : turnFrom turn i uend = [] := by
  rw [turnFrom, Nat.sub_eq_zero_of_le h]
  rfl

/-- One segment, and the next one of the turn. -/
theorem turnFrom_step (hq : q % sweepPeriod = turn) (uend : Nat) :
    turnFrom turn (sweepSegment * q) uend =
      List.range' (sweepSegment * q) (min sweepSegment (uend - sweepSegment * q)) ++
        turnFrom turn (sweepSegment * (q + sweepPeriod)) uend := by
  have hstride : sweepSegment * (q + 1) ≤ sweepSegment * (q + sweepPeriod) :=
    Nat.mul_le_mul_left _ (Nat.add_le_add_left (by decide) q)
  by_cases hend : uend ≤ sweepSegment * (q + 1)
  · rw [turnFrom_of_segment hq hend, turnFrom_of_le (hend.trans hstride), List.append_nil,
      Nat.min_eq_right (by rw [Nat.mul_succ] at hend; omega)]
  · have hlt := Nat.not_le.mp hend
    have hfirst := turnFrom_of_segment hq (Nat.le_refl (sweepSegment * (q + 1)))
    have hrest : turnFrom turn (sweepSegment * (q + 1)) uend =
        turnFrom turn (sweepSegment * (q + sweepPeriod)) uend := by
      by_cases hnext : uend ≤ sweepSegment * (q + sweepPeriod)
      · rw [turnFrom_between hq hnext, turnFrom_of_le hnext]
      · rw [turnFrom_append hstride (Nat.not_le.mp hnext).le, turnFrom_between hq le_rfl,
          List.nil_append]
    rw [turnFrom_append (Nat.mul_le_mul_left _ (Nat.le_succ q)) hlt.le, hfirst, hrest,
      Nat.min_eq_left (by rw [Nat.mul_succ] at hlt; omega),
      show sweepSegment * (q + 1) - sweepSegment * q = sweepSegment by rw [Nat.mul_succ]; omega]

/-- The outer loop makes the visits of the turn. -/
theorem visitFrom_eq {uend : UInt32} (hbank : b.toNat < p.s.srvs.nodes.size)
    (hsize : uend.toNat ≤ (p.s.usr b).size) (hend : uend.toNat ≤ 2 ^ 32 - 2 ^ 15) {fuel : Nat}
    (hq : q % sweepPeriod = turn) (hstart : sweepSegment * q + sweepSegment ≤ 2 ^ 32)
    (hfuel : uend.toNat ≤ sweepSegment * q + sweepSegment * sweepPeriod * fuel) :
    visitFrom env b uend (fuel + 1) p (UInt32.ofNat (sweepSegment * q)) =
      some (((turnFrom turn (sweepSegment * q) uend.toNat).map UInt32.ofNat).foldlM
        (dividendUser env b) p) := by
  induction fuel generalizing q p with
  | zero =>
      have hnone : ¬ sweepSegment * q + sweepSegment ≤ max (sweepSegment * q) uend.toNat := by
        rw [sweepSegment] at *
        omega
      rw [visitFrom, visitSegment_eq hbank hsize _ _ hstart, if_neg hnone,
        turnFrom_of_le (by simpa using hfuel), Nat.sub_eq_zero_of_le (by simpa using hfuel),
        Nat.min_zero]
      rfl
  | succ fuel ih =>
      rw [visitFrom, visitSegment_eq hbank hsize _ _ hstart, turnFrom_step hq, List.map_append,
        List.foldlM_append]
      cases hvisits : ((List.range' (sweepSegment * q)
          (min sweepSegment (uend.toNat - sweepSegment * q))).map UInt32.ofNat).foldlM
            (dividendUser env b) p with
      | none => simp only [Option.map_none, Option.bind_eq_bind, Option.bind_none]
      | some p' =>
          have hshape : SameShape p.s p'.s := by
            refine visits_shape hbank (fun uid hmem => ?_) hvisits
            obtain ⟨j, hj, rfl⟩ := List.mem_map.mp hmem
            obtain ⟨hle, hlt⟩ := List.mem_range'_1.mp hj
            rw [State.onFile, toNat_ofNat_of_lt (by omega)]
            omega
          by_cases hmore : sweepSegment * q + sweepSegment ≤ max (sweepSegment * q) uend.toNat
          · have hnext : UInt32.ofNat (sweepSegment * q + sweepSegment) +
                UInt32.ofNat (sweepSegment * (sweepPeriod - 1)) =
                  UInt32.ofNat (sweepSegment * (q + sweepPeriod)) := by
              have hsum : sweepSegment * q + sweepSegment + sweepSegment * (sweepPeriod - 1) =
                  sweepSegment * (q + sweepPeriod) := by
                simp only [sweepSegment, sweepPeriod]
                omega
              rw [← UInt32.ofNat_add, hsum]
            have hrest := ih (p := p') (by rwa [hshape.size]) (by rwa [hshape.files])
              (q := q + sweepPeriod) (by rw [Nat.add_mod_right, hq])
              (by simp only [sweepSegment, sweepPeriod] at *; omega)
              (by simp only [sweepSegment, sweepPeriod] at *; omega)
            rw [Option.map_some, if_pos hmore, Option.bind_eq_bind, Option.bind_some, ← hrest,
              ← hnext]
          · have hle : uend.toNat ≤ sweepSegment * (q + sweepPeriod) := by
              simp only [sweepSegment, sweepPeriod] at hmore ⊢
              omega
            simp only [Option.map_some, if_neg hmore, turnFrom_of_le hle, List.map_nil,
              List.foldlM_nil, Option.bind_eq_bind, Option.bind_some, Option.pure_def]

/-- The accounts whose turn it is, in the segments of the loop. -/
theorem dividendUsers_eq (now : UInt32) (svid : UInt16) (users : UInt32) :
    dividendUsers now svid users =
      (turnFrom (((now / blockSec).toNat + svid.toNat) % sweepPeriod) 0 users.toNat).map
        UInt32.ofNat := by
  rw [dividendUsers, turnFrom, Nat.sub_zero, List.range_eq_range']
  rfl

/-- The first segment of a turn. -/
theorem turnFrom_zero (hturn : turn < sweepPeriod) (uend : Nat) :
    turnFrom turn 0 uend = turnFrom turn (sweepSegment * turn) uend := by
  have hbefore : ∀ k, k ≤ sweepSegment * turn → turnFrom turn 0 k = [] := by
    intro k hk
    refine List.filter_eq_nil_iff.mpr fun j hj hmem => ?_
    obtain ⟨-, hlt⟩ := List.mem_range'_1.mp hj
    have hmod := of_decide_eq_true hmem
    simp only [sweepSegment, sweepPeriod] at *
    omega
  by_cases hend : uend ≤ sweepSegment * turn
  · rw [hbefore uend hend, turnFrom_of_le hend]
  · rw [turnFrom_append (Nat.zero_le _) (Nat.not_le.mp hend).le, hbefore _ le_rfl, List.nil_append]

/-- The blocks of the second half of a dividend period. -/
def payingBlock (period k : Nat) : UInt32 :=
  UInt32.ofNat ((2 * sweepPeriod * period + sweepPeriod + k) * 512)

section Period

variable {period : Nat}

theorem payingBlock_number (hperiod : period < 2 ^ 12) (hk : k < sweepPeriod) :
    (payingBlock period k / blockSec).toNat = 2 * sweepPeriod * period + sweepPeriod + k := by
  rw [sweepPeriod] at hk
  rw [payingBlock, UInt32.toNat_div, toNat_ofNat_of_lt (by rw [sweepPeriod]; omega),
    show blockSec.toNat = 512 from rfl, Nat.mul_div_cancel _ (by decide)]

theorem not_lt_half (hperiod : period < 2 ^ 12) (hk : k < sweepPeriod) :
    ¬ payingBlock period k / blockSec % blockDiv < blockDiv / 2 := by
  have hnumber := payingBlock_number hperiod hk
  have hdiv : blockDiv.toNat = 2048 := rfl
  have hhalf : (blockDiv / 2).toNat = 1024 := rfl
  rw [UInt32.lt_iff_toNat_lt, UInt32.toNat_mod, hnumber, hdiv, hhalf]
  rw [sweepPeriod] at hk ⊢
  omega

/-- The turn of a bank in a block. -/
theorem turn_eq (hperiod : period < 2 ^ 12) (hk : k < sweepPeriod) (svid : UInt16) :
    ((payingBlock period k / blockSec).toNat + svid.toNat) % sweepPeriod =
      (k + svid.toNat) % sweepPeriod := by
  rw [payingBlock_number hperiod hk]
  rw [sweepPeriod] at hk ⊢
  omega

theorem mem_dividendUsers (hperiod : period < 2 ^ 12) (hk : k < sweepPeriod) {svid : UInt16}
    {users user : UInt32} :
    user ∈ dividendUsers (payingBlock period k) svid users ↔
      user < users ∧ user.toNat / sweepSegment % sweepPeriod = (k + svid.toNat) % sweepPeriod := by
  rw [dividendUsers_eq, turn_eq hperiod hk, List.mem_map]
  constructor
  · rintro ⟨i, hi, rfl⟩
    obtain ⟨hmem, hturn⟩ := List.mem_filter.mp hi
    obtain ⟨-, hlt⟩ := List.mem_range'_1.mp hmem
    have hnat : (UInt32.ofNat i).toNat = i :=
      toNat_ofNat_of_lt (lt_of_lt_of_le hlt (by have := users.toNat_lt; omega))
    rw [UInt32.lt_iff_toNat_lt, hnat]
    exact ⟨by omega, of_decide_eq_true hturn⟩
  · rintro ⟨hlt, hturn⟩
    refine ⟨user.toNat, List.mem_filter.mpr ⟨?_, decide_eq_true hturn⟩, UInt32.ofNat_toNat⟩
    exact List.mem_range'_1.mpr ⟨Nat.zero_le _, by
      have := UInt32.lt_iff_toNat_lt.mp hlt
      omega⟩

theorem nodup_dividendUsers (now : UInt32) (svid : UInt16) (users : UInt32) :
    (dividendUsers now svid users).Nodup := by
  refine List.Nodup.map_on ?_ (List.nodup_range.filter _)
  intro i hi j hj hij
  have hi := List.mem_range.mp (List.mem_filter.mp hi).1
  have hj := List.mem_range.mp (List.mem_filter.mp hj).1
  have husers := users.toNat_lt
  have heq := congrArg UInt32.toNat hij
  rwa [toNat_ofNat_of_lt (by omega), toNat_ofNat_of_lt (by omega)] at heq

/-- Every account has its turn in one block of the period. -/
theorem exists_unique_turn (hperiod : period < 2 ^ 12) (svid : UInt16) {users user : UInt32}
    (huser : user < users) :
    ∃! k, k < sweepPeriod ∧ user ∈ dividendUsers (payingBlock period k) svid users := by
  refine ⟨(user.toNat / sweepSegment + sweepPeriod * svid.toNat - svid.toNat) % sweepPeriod,
    ⟨Nat.mod_lt _ (by decide), ?_⟩, ?_⟩
  · rw [mem_dividendUsers hperiod (Nat.mod_lt _ (by decide))]
    refine ⟨huser, ?_⟩
    simp only [sweepSegment, sweepPeriod]
    omega
  · rintro k ⟨hk, hmem⟩
    have hturn := ((mem_dividendUsers hperiod hk).mp hmem).2
    simp only [sweepSegment, sweepPeriod] at hk hturn ⊢
    omega

end Period

section Banks

variable {s : State} {fuel : Nat}

/-- The loop over the segments of a bank is the visits to the accounts whose turn it is. -/
theorem visitBank_eq (hbank : b.toNat < s.srvs.nodes.size) (hfiled : s.Filed)
    (hmax : (s.srvs.node b).users.toNat ≤ 2 ^ 32 - 2 ^ 15) (hfuel : 2 ^ 17 < fuel) (u : User) :
    visitBank env fuel (s, u) b = some (dividendBank env (s, u) b) := by
  have hturn : ((s.srvs.now / blockSec).toNat + b.toNat) % sweepPeriod < sweepPeriod :=
    Nat.mod_lt _ (by decide)
  rw [dividendBank, dividendUsers_eq, turnFrom_zero hturn]
  simp only [visitBank]
  generalize ((s.srvs.now / blockSec).toNat + b.toNat) % sweepPeriod = turn at hturn
  have hstart : sweepSegment * turn + sweepSegment ≤ 2 ^ 32 := by
    simp only [sweepSegment, sweepPeriod] at hturn ⊢
    omega
  have hnat : (UInt32.ofNat (sweepSegment * turn)).toNat = sweepSegment * turn :=
    toNat_ofNat_of_lt (by rw [sweepSegment] at *; omega)
  split
  · rename_i hle
    have hle := UInt32.le_iff_toNat_le.mp hle
    rw [hnat] at hle
    rw [turnFrom_of_le hle]
    rfl
  · rename_i hlt
    have hlt := UInt32.lt_iff_toNat_lt.mp (UInt32.not_le.mp hlt)
    rw [hnat] at hlt
    have hmem : sweepSegment * turn ∈
        turnFrom turn (sweepSegment * turn) (s.srvs.node b).users.toNat := by
      refine List.mem_filter.mpr ⟨List.mem_range'_1.mpr ⟨le_rfl, by omega⟩, decide_eq_true ?_⟩
      rw [Nat.mul_div_cancel_left _ (by decide), Nat.mod_eq_of_lt hturn]
    obtain ⟨n, rfl⟩ : ∃ n, fuel = n + 1 := ⟨fuel - 1, by omega⟩
    rw [if_neg fun hnil => List.ne_nil_of_mem (List.mem_map_of_mem hmem) hnil,
      visitFrom_eq hbank (hfiled b hbank) hmax (Nat.mod_eq_of_lt hturn) hstart
        (by simp only [sweepSegment, sweepPeriod]; omega), Option.map_some]
    cases List.foldlM (dividendUser env b) { s := s, u := u } _ <;> rfl

/-- The loops of `commit_dividends` visit the accounts whose turn it is, at their records. -/
theorem sweepDividends_eq (hfiled : s.Filed) (hmax : ∀ b : UInt16, b.toNat < s.srvs.nodes.size →
      (s.srvs.node b).users.toNat ≤ 2 ^ 32 - 2 ^ 15) (hfuel : 2 ^ 17 < fuel) :
    sweepDividends env fuel s = some (commitDividends env s) := by
  have hbanks : ∀ (banks : List UInt16) (s₁ : State) (u : User), SameShape s s₁ →
      (∀ b ∈ banks, b.toNat < s.srvs.nodes.size) →
      visitBanks env fuel banks (s₁, u) = some (banks.foldlM (dividendBank env) (s₁, u)) := by
    intro banks
    induction banks with
    | nil => exact fun _ _ _ _ => rfl
    | cons b banks ih =>
        intro s₁ u hshape hlt
        have hbank : b.toNat < s₁.srvs.nodes.size := by
          rw [hshape.size]
          exact hlt b List.mem_cons_self
        have hfiled₁ := hshape.filed hfiled
        have husers : (s₁.srvs.node b).users.toNat ≤ 2 ^ 32 - 2 ^ 15 := by
          rw [hshape.users]
          exact hmax b (hlt b List.mem_cons_self)
        rw [visitBanks, visitBank_eq hbank hfiled₁ husers hfuel, List.foldlM_cons]
        cases hrun : dividendBank env (s₁, u) b with
        | none => rfl
        | some acc =>
            obtain ⟨s₂, u₂⟩ := acc
            have hnext := AccountStep.shape_of_run (dividendBank_run hbank hfiled₁ hrun)
            exact ih s₂ u₂ (hshape.trans hnext) fun b' hb' => hlt b' (List.mem_cons_of_mem b hb')
  rw [sweepDividends, commitDividends]
  split
  · rfl
  · rw [hbanks s.banks s env.junk (.refl s) fun b hb => State.lt_of_mem_banks hb]
    rfl

end Banks

def State.HasAccount (s : State) (b : UInt16) (uid : UInt32) : Prop :=
  b.toNat < s.srvs.nodes.size ∧ uid < (s.srvs.node b).users

instance (s : State) (b : UInt16) (uid : UInt32) : Decidable (s.HasAccount b uid) :=
  inferInstanceAs (Decidable (_ ∧ _))

/-- An account of the bank has no message number. -/
def State.Unreadable (s : State) (b : UInt16) : Prop :=
  ∃ uid, s.HasAccount b uid ∧ (s.record b uid).msid = 0

/-- The accounts of a bank whose turn it is. -/
def State.turnAccounts (s : State) (b : UInt16) : List (UInt16 × UInt32) :=
  (dividendUsers s.srvs.now b (s.srvs.node b).users).map (b, ·)

/-- The accounts that the sweep visits; there are none in the first half of a period. -/
def State.sweptAccounts (s : State) : List (UInt16 × UInt32) :=
  if s.srvs.now / blockSec % blockDiv < blockDiv / 2 then [] else s.banks.flatMap s.turnAccounts

/-- The sweep that began in `s`, after the accounts `pre`, with a property of it. -/
structure Sweeping (s : State) (P : List (UInt16 × UInt32) → State → Prop)
    (pre : List (UInt16 × UInt32)) (s₁ : State) : Prop where
  shape : SameShape s s₁
  others : ∀ b uid, (b, uid) ∉ pre → s₁.record b uid = s.record b uid
  holds : P pre s₁

/-- A property of the sweep that every visit keeps. -/
structure SweepRule (env : Env) (s : State) (P : List (UInt16 × UInt32) → State → Prop) :
    Prop where
  start : P [] s
  visit : ∀ pre b uid s₁ s₂, (b, uid) ∉ pre → s.HasAccount b uid → Sweeping s P pre s₁ →
    Visited env s₁ s₂ b uid → P (pre ++ [(b, uid)]) s₂
  save : ∀ pre s₁ b undo, P pre s₁ → P pre (s₁.saveUndo b undo 0)

/-- The sweep stops at a record without a message number only. -/
theorem dividendUser_stop {uid : UInt32} (hfile : p.s.onFile b uid) :
    (∃ p', dividendUser env b p uid = some p') ∨
      dividendUser env b p uid = none ∧ (p.s.record b uid).msid = 0 := by
  have hread : readUser (p.s.usr b) uid p.u = p.s.record b uid := readUser_of_lt hfile p.u
  rw [dividendUser, dividendUserAt, hread]
  dsimp only
  by_cases hmsid : (p.s.record b uid).msid = 0
  · rw [if_pos hmsid]
    exact Or.inr ⟨rfl, hmsid⟩
  rw [if_neg hmsid]
  refine Or.inl ?_
  split
  · exact ⟨_, rfl⟩
  · split
    · exact ⟨_, rfl⟩
    · exact ⟨_, rfl⟩

namespace SweepRule

variable {s s₁ : State} {P : List (UInt16 × UInt32) → State → Prop} {pre : List (UInt16 × UInt32)}
  {uid : UInt32}

theorem step (rule : SweepRule env s P) (h : Sweeping s P pre s₁) (hnew : (b, uid) ∉ pre)
    (haccount : s.HasAccount b uid) {s₂ : State} (hvisit : Visited env s₁ s₂ b uid) :
    Sweeping s P (pre ++ [(b, uid)]) s₂ := by
  refine ⟨h.shape.trans hvisit.shape, fun b' uid' hmem => ?_,
    rule.visit pre b uid s₁ s₂ hnew haccount h hvisit⟩
  rw [List.mem_append, List.mem_singleton, not_or, Prod.mk.injEq, not_and_or] at hmem
  rw [hvisit.record_ne hmem.2, h.others b' uid' hmem.1]

/-- The accounts of one bank. -/
theorem bank (rule : SweepRule env s P) (hfiled : s.Filed) (hbank : b.toNat < s.srvs.nodes.size)
    (hnew : ∀ uid, (b, uid) ∉ pre) (h : Sweeping s P pre s₁) (u : User) :
    (∃ acc, dividendBank env (s₁, u) b = some acc ∧
      Sweeping s P (pre ++ s.turnAccounts b) acc.1) ∨
        dividendBank env (s₁, u) b = none ∧ s.Unreadable b := by
  have hnodup := nodup_dividendUsers s.srvs.now b (s.srvs.node b).users
  have hlt : ∀ uid ∈ dividendUsers s.srvs.now b (s.srvs.node b).users,
      uid < (s.srvs.node b).users := fun uid => lt_of_mem_dividendUsers
  rw [dividendBank, State.turnAccounts, h.shape.now, h.shape.users]
  generalize dividendUsers s.srvs.now b (s.srvs.node b).users = users at hnodup hlt
  by_cases hnone : users = []
  · rw [if_pos hnone, hnone]
    exact Or.inl ⟨(s₁, u), rfl, by simpa using h⟩
  rw [if_neg hnone]
  have hloop := @foldlM_option_run _ _ (dividendUser env b)
    (fun done (p : Pass) => Sweeping s P (pre ++ done.map (b, ·)) p.s) (s.Unreadable b) users
    { s := s₁, u := u } (by simpa using h) ?_
  · rcases hloop with ⟨p, hfold, hend⟩ | ⟨hfold, hmsid⟩
    · refine Or.inl ⟨(p.s.saveUndo b p.undo 0, p.u), by rw [hfold]; rfl, ?_⟩
      have hsame := p.s.saveUndo_same b p.undo
      exact ⟨hend.shape.trans hsame.toSameAccounts.shape,
        fun b' uid' hmem => (hsame.record b' uid').trans (hend.others b' uid' hmem),
        rule.save _ p.s b p.undo hend.holds⟩
    · exact Or.inr ⟨by rw [hfold]; rfl, hmsid⟩
  · intro done uid post p hsplit hdone
    subst hsplit
    have hfresh : (b, uid) ∉ pre ++ done.map (b, ·) := by
      rw [List.mem_append, not_or]
      refine ⟨hnew uid, fun hmem => ?_⟩
      obtain ⟨uid', hmem', heq⟩ := List.mem_map.mp hmem
      cases heq
      exact (List.nodup_append.mp hnodup).2.2 uid hmem' uid List.mem_cons_self rfl
    have huser := hlt uid (by simp)
    have hfile : p.s.onFile b uid := hdone.shape.onFile
      (lt_of_lt_of_le (UInt32.lt_iff_toNat_lt.mp huser) (hfiled b hbank))
    rcases @dividendUser_stop env b p uid hfile with ⟨p', hp'⟩ | ⟨hstop, hmsid⟩
    · have hvisit := dividendUser_visited (by rwa [hdone.shape.size]) hfile hp'
      have hnext := rule.step hdone hfresh ⟨hbank, huser⟩ hvisit
      rw [List.append_assoc] at hnext
      exact Or.inl ⟨p', hp', by simpa using hnext⟩
    · rw [hdone.others b uid hfresh] at hmsid
      exact Or.inr ⟨hstop, uid, ⟨hbank, huser⟩, hmsid⟩

/-- The property holds at the end of the sweep, unless an account cannot be read. -/
theorem run (rule : SweepRule env s P) (hbanks : s.srvs.nodes.size ≤ bankMax) (hfiled : s.Filed) :
    (∃ s', commitDividends env s = some s' ∧ Sweeping s P s.sweptAccounts s') ∨
      commitDividends env s = none ∧ ∃ b, s.Unreadable b := by
  have hinit : Sweeping s P [] s := ⟨.refl s, fun _ _ _ => rfl, rule.start⟩
  rw [commitDividends, State.sweptAccounts]
  split
  · exact Or.inl ⟨s, rfl, hinit⟩
  have hnodup := State.nodup_banks hbanks
  have hloop := @foldlM_option_run _ _ (dividendBank env)
    (fun done (acc : State × User) => Sweeping s P (done.flatMap s.turnAccounts) acc.1)
    (∃ b, s.Unreadable b) s.banks (s, env.junk) hinit ?_
  · rcases hloop with ⟨acc, hfold, hend⟩ | ⟨hfold, hmsid⟩
    · exact Or.inl ⟨acc.1, by rw [hfold]; rfl, hend⟩
    · exact Or.inr ⟨by rw [hfold]; rfl, hmsid⟩
  · rintro done b post ⟨s₁, u₁⟩ hsplit hdone
    have hmem : b ∈ s.banks := by
      rw [← hsplit]
      exact List.mem_append_right _ List.mem_cons_self
    have hnew : b ∉ done := by
      rw [← hsplit] at hnodup
      exact fun hmem => (List.nodup_append.mp hnodup).2.2 b hmem b List.mem_cons_self rfl
    have hfresh : ∀ uid, (b, uid) ∉ done.flatMap s.turnAccounts := by
      intro uid hin
      obtain ⟨b', hb', hin⟩ := List.mem_flatMap.mp hin
      obtain ⟨uid', -, heq⟩ := List.mem_map.mp hin
      cases heq
      exact hnew hb'
    rcases rule.bank hfiled (State.lt_of_mem_banks hmem) hfresh hdone u₁ with
      ⟨acc, hrun, hend⟩ | ⟨hnone, hmsid⟩
    · refine Or.inl ⟨acc, hrun, ?_⟩
      rw [List.flatMap_append]
      simpa using hend
    · exact Or.inr ⟨hnone, b, hmsid⟩

end SweepRule

/-- The record of an account after a visit that found `u` and the deposit `dep`. -/
def sweptRecord (env : Env) (v : Servers) (b : UInt16) (uid : UInt32) (u : User) (dep : Int64) :
    User :=
  if (dividend v u 0).1 = noDividend ∧ (dividend v u 0).2.1.weight ≠ 0 then u
  else sweptUser env v b uid u dep

theorem sweptRecord_congr {v v' : Servers} (hnow : v'.now = v.now) (hdiv : v'.div = v.div)
    (env : Env) (b : UInt16) (uid : UInt32) (u : User) (dep : Int64) :
    sweptRecord env v' b uid u dep = sweptRecord env v b uid u dep := by
  rw [sweptRecord, sweptRecord, sweptUser, sweptUser, (dividend_congr hnow hdiv u 0).2.2, hnow]

section Records

variable {s s₁ s₂ : State} {uid : UInt32}

/-- A visit replaces the record that it found. -/
theorem Visited.record_self (h : Visited env s s₁ b uid) :
    s₁.record b uid =
      sweptRecord env s.srvs b uid (s.record b uid) (s.deposit.val (depositKey b uid)) := by
  cases h with
  | idle hdiv hweight h =>
      rw [sweptRecord, if_pos ⟨hdiv, hweight⟩, h]
      rfl
  | post hseen h _ _ => rw [sweptRecord, if_neg hseen, h.record_self]

/-- A visit takes no deposit but that of its account. -/
theorem Visited.deposit_ne (h : Visited env s s₁ b uid) {b' : UInt16} {uid' : UInt32}
    (hne : (b', uid') ≠ (b, uid)) :
    s₁.deposit.val (depositKey b' uid') = s.deposit.val (depositKey b' uid') := by
  cases h with
  | idle _ _ h =>
      rw [h]
      rfl
  | post _ _ hdeposit _ =>
      rw [hdeposit, if_neg]
      intro hkey
      have hbank := congrArg depositBank hkey
      have huser := congrArg depositUser hkey
      rw [depositBank_depositKey, depositBank_depositKey] at hbank
      rw [depositUser_depositKey, depositUser_depositKey] at huser
      exact hne (Prod.ext hbank huser)

/-- The visited accounts have the records of a visit, the deposits of the others are kept. -/
structure SweptRecords (env : Env) (s : State) (pre : List (UInt16 × UInt32)) (s₁ : State) :
    Prop where
  visited : ∀ b uid, (b, uid) ∈ pre → s₁.record b uid =
    sweptRecord env s.srvs b uid (s.record b uid) (s.deposit.val (depositKey b uid))
  deposits : ∀ b uid, (b, uid) ∉ pre →
    s₁.deposit.val (depositKey b uid) = s.deposit.val (depositKey b uid)

theorem sweptRecords_rule (env : Env) (s : State) : SweepRule env s (SweptRecords env s) where
  start := ⟨fun _ _ hmem => absurd hmem List.not_mem_nil, fun _ _ _ => rfl⟩
  visit pre b uid s₁ s₂ hnew _ h hvisit := by
    constructor
    · intro b' uid' hmem
      rcases List.mem_append.mp hmem with hold | hmem
      · have hne : b' ≠ b ∨ uid' ≠ uid := by
          rw [← not_and_or]
          rintro ⟨rfl, rfl⟩
          exact hnew hold
        rw [hvisit.record_ne hne, h.holds.visited b' uid' hold]
      · cases List.mem_singleton.mp hmem
        rw [hvisit.record_self, sweptRecord_congr h.shape.now h.shape.div, h.others b uid hnew,
          h.holds.deposits b uid hnew]
    · intro b' uid' hmem
      rw [List.mem_append, List.mem_singleton, not_or] at hmem
      rw [hvisit.deposit_ne hmem.2, h.holds.deposits b' uid' hmem.1]
  save _ s₁ b undo h := by
    have hsame := s₁.saveUndo_same b undo
    exact ⟨fun b' uid hmem => (hsame.record b' uid).trans (h.visited b' uid hmem),
      fun b' uid hmem => (hsame.deposit _).trans (h.deposits b' uid hmem)⟩

end Records

/-- The accounts of a bank whose turn it is are visited: their records are those of a visit,
and the records of all other accounts are as before. -/
def SweepsTurn (env : Env) (s s' : State) : Prop :=
  ∀ b uid, 1 ≤ b.toNat → s.HasAccount b uid →
    s'.record b uid = if uid ∈ dividendUsers s.srvs.now b (s.srvs.node b).users then
      sweptRecord env s.srvs b uid (s.record b uid) (s.deposit.val (depositKey b uid))
    else s.record b uid

theorem State.mem_sweptAccounts {s : State} {uid : UInt32}
    (hhalf : ¬ s.srvs.now / blockSec % blockDiv < blockDiv / 2)
    (hbanks : s.srvs.nodes.size ≤ bankMax) (hpos : 1 ≤ b.toNat)
    (hlt : b.toNat < s.srvs.nodes.size) :
    (b, uid) ∈ s.sweptAccounts ↔ uid ∈ dividendUsers s.srvs.now b (s.srvs.node b).users := by
  rw [State.sweptAccounts, if_neg hhalf, List.mem_flatMap]
  constructor
  · rintro ⟨b', -, hmem⟩
    obtain ⟨uid', hmem', heq⟩ := List.mem_map.mp hmem
    cases heq
    exact hmem'
  · intro hmem
    exact ⟨b, (State.mem_banks_iff hbanks).mpr ⟨hpos, hlt⟩, List.mem_map_of_mem hmem⟩

/-- In a block of the second half of a period the accounts of the turn are visited, unless
an account cannot be read. -/
theorem commitDividends_sweepsTurn {s : State}
    (hhalf : ¬ s.srvs.now / blockSec % blockDiv < blockDiv / 2)
    (hbanks : s.srvs.nodes.size ≤ bankMax) (hfiled : s.Filed) :
    (∃ s', commitDividends env s = some s' ∧ SweepsTurn env s s') ∨
      commitDividends env s = none ∧ ∃ b, s.Unreadable b := by
  refine ((sweptRecords_rule env s).run hbanks hfiled).imp_left ?_
  rintro ⟨s', hrun, hend⟩
  refine ⟨s', hrun, fun b uid hpos haccount => ?_⟩
  have hturn := @State.mem_sweptAccounts b s uid hhalf hbanks hpos haccount.1
  split
  · rename_i hmem
    exact hend.holds.visited b uid (hturn.mpr hmem)
  · rename_i hmem
    exact hend.others b uid fun hswept => hmem (hturn.mp hswept)

namespace Sample

def sweepEnv : Env where
  svid := 1
  sha256 _ := 0
  signOpenBatch2 _ := true
  findKey _ := none
  junk := {}

/-- A bank with three accounts, in the block of their turn. -/
def sweepState : State where
  srvs := { now := payingBlock 3 1023, nodes := .ofList [{}, { users := 3 }] }
  last := {}
  usr b :=
    if b = 1 then .ofList
      [{ msid := 1, weight := 70000 }, { msid := 4, weight := 80000 },
        { msid := 2, weight := 90000 }]
    else .empty
  bankFee := .ofList [0, 0]

/-- The banks of the sample. -/
theorem sweepState_bank (hb : b.toNat < sweepState.srvs.nodes.size) : b = 0 ∨ b = 1 := by
  change b.toNat < 2 at hb
  rw [← UInt16.toNat_inj, ← UInt16.toNat_inj]
  change b.toNat = 0 ∨ b.toNat = 1
  omega

end Sample

/-- In the second half of a dividend period every account of a bank is visited in exactly
one block and once there. The loops of `commit_dividends` come to their end, and each of
their visits reads and writes the record of its account. -/
theorem dividendSweep_covers (env : Env) {period : Nat} (hperiod : period < 2 ^ 12) {fuel : Nat}
    (hfuel : 2 ^ 17 < fuel) :
    (∀ k s, k < sweepPeriod → s.srvs.now = payingBlock period k →
      s.srvs.nodes.size ≤ bankMax → s.Filed →
      (∀ b : UInt16, b.toNat < s.srvs.nodes.size →
        (s.srvs.node b).users.toNat ≤ 2 ^ 32 - 2 ^ 15) →
      sweepDividends env fuel s = some (commitDividends env s) ∧
        ((∃ s', commitDividends env s = some s' ∧ SweepsTurn env s s') ∨
          commitDividends env s = none ∧ ∃ b, s.Unreadable b)) ∧
      ∀ (svid : UInt16) (users : UInt32),
        (∀ k, k < sweepPeriod → (dividendUsers (payingBlock period k) svid users).Nodup) ∧
        ∀ user, user < users →
          ∃! k, k < sweepPeriod ∧ user ∈ dividendUsers (payingBlock period k) svid users := by
  refine ⟨fun k s hk hnow hbanks hfiled hmax => ⟨?_, ?_⟩, fun svid users => ⟨?_, ?_⟩⟩
  · exact sweepDividends_eq hfiled hmax hfuel
  · exact commitDividends_sweepsTurn (hnow ▸ not_lt_half hperiod hk) hbanks hfiled
  · exact fun k _ => nodup_dividendUsers ..
  · exact fun user huser => exists_unique_turn hperiod svid huser

theorem dividendSweep_covers_bank :
    (∃ s', commitDividends Sample.sweepEnv Sample.sweepState = some s' ∧
      SweepsTurn Sample.sweepEnv Sample.sweepState s') ∧
      ∃! k, k < sweepPeriod ∧ 2 ∈ dividendUsers (payingBlock 3 k) 1 3 := by
  obtain ⟨hsweep, hturns⟩ := @dividendSweep_covers Sample.sweepEnv 3 (by decide)
    (2 ^ 17 + 1) (by decide)
  refine ⟨?_, (hturns 1 3).2 2 (by decide)⟩
  have hfiled : Sample.sweepState.Filed := by
    intro b hb
    rcases Sample.sweepState_bank hb with rfl | rfl <;> decide
  have hmax : ∀ b : UInt16, b.toNat < Sample.sweepState.srvs.nodes.size →
      (Sample.sweepState.srvs.node b).users.toNat ≤ 2 ^ 32 - 2 ^ 15 := by
    intro b hb
    rcases Sample.sweepState_bank hb with rfl | rfl <;> decide
  refine (hsweep 1023 Sample.sweepState (by decide) rfl (by decide) hfiled hmax).2.resolve_right
    fun hstop => ?_
  have hrun : (commitDividends Sample.sweepEnv Sample.sweepState).isSome = true := by
    decide +kernel
  rw [hstop.1] at hrun
  cases hrun

end Esc
