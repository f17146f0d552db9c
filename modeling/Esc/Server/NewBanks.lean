import Esc.Lib.Residue
import Esc.Server.BankBooks
import Esc.Server.BlockSteps

/-!
# New banks

A request for a bank takes over an abandoned bank, adds a node or is paid back. The
candidates for a takeover are collected in one pass over the node table, under a key of
weight and index. `put_node` pays the amount to the owner account of the bank but leaves
the weight of the bank as it is.

Amounts are added in 64 bits, so totals are taken modulo `2 ^ 64`.
-/

namespace Esc

open Lib

variable {env : Env} {s : State} {b : UInt16} {acc : (State × List UInt64) × List BankResult}

/-- What becomes of a request. -/
inductive BankResult where
  | overwritten (peer : UInt16)
  | added (peer : UInt16)
  | refunded (bank : UInt16) (user : UInt32)
deriving DecidableEq, Repr

namespace BankResult

def peer? : BankResult → Option UInt16
  | overwritten peer => some peer
  | _ => none

def isAdded : BankResult → Bool
  | added _ => true
  | _ => false

/-- The result is a payment to the deposit with this key. -/
def refunds (key : UInt64) : BankResult → Bool
  | refunded bank user => markedKey bank user = key
  | _ => false

end BankResult

/-- What one request does. -/
def bankResult (acc : State × List UInt64) (key : UInt64) (auser : UInt32) : BankResult :=
  match acc.2 with
  | bi :: _ => .overwritten bi.toUInt16
  | [] =>
      if acc.1.srvs.nodes.size < bankMax - 1 then .added (.ofNat acc.1.srvs.nodes.size)
      else .refunded (ppiAbank key) auser

/-- A round of the loop over the requests, with its result noted. -/
def bankRound (env : Env) (acc : (State × List UInt64) × List BankResult) (r : UInt64 × UInt32) :
    (State × List UInt64) × List BankResult :=
  (bnkStep env acc.1 r.1 r.2, acc.2 ++ [bankResult acc.1 r.1 r.2])

/-- The results of the requests of a block. -/
def bankResults (env : Env) (s : State) : List BankResult :=
  (s.blk.bnk.toList.foldl (bankRound env) ((s, newBnk s), [])).2

/-- The nodes that are overwritten. -/
def overwritten (results : List BankResult) : List UInt16 := results.filterMap BankResult.peer?

/-- The bank has had no transaction for long and has no funds. -/
def State.CanTake (s : State) (b : UInt16) : Prop :=
  1 ≤ b.toNat ∧ b.toNat < s.srvs.nodes.size ∧
    ((s.srvs.node b).mtim.toNat : Int) + bankMinMtime < s.srvs.now.toNat ∧
    (s.srvs.node b).weight ≤ bankMinTmass

instance (s : State) (b : UInt16) : Decidable (s.CanTake b) :=
  inferInstanceAs (Decidable (_ ∧ _ ∧ _ ∧ _))

/-- What a request has cost. -/
def bankMass : Int64 := bankMinUmass + bankMinTmass

/-- The money in banks and deposits. -/
def State.bankMoney (s : State) : ZMod (2 ^ 64) :=
  ∑ i ∈ Finset.range s.srvs.nodes.size, residue (s.srvs.nodes.get i).weight +
    s.deposit.total fun _ d => residue d

/-- What the requests of a block have to do. -/
structure BanksMade (env : Env) (s : State) : Prop where
  taken : ∀ b ∈ overwritten (bankResults env s), s.CanTake b
  once : (overwritten (bankResults env s)).Nodup
  kept : ∀ b : UInt16, b.toNat < s.srvs.nodes.size → b ∉ overwritten (bankResults env s) →
    (commitBanks env s).srvs.node b = s.srvs.node b ∧ (commitBanks env s).usr b = s.usr b
  added : (commitBanks env s).srvs.nodes.size =
    s.srvs.nodes.size + (bankResults env s).countP BankResult.isAdded
  full : (∃ bank user, .refunded bank user ∈ bankResults env s) →
    bankMax - 1 ≤ (commitBanks env s).srvs.nodes.size
  refund : ∀ key, residue ((commitBanks env s).deposit.val key) =
    residue (s.deposit.val key) + (bankResults env s).countP (·.refunds key) • residue bankMass
  booked : ∀ b : UInt16, 1 ≤ b.toNat → b.toNat < (commitBanks env s).srvs.nodes.size →
    (commitBanks env s).Booked b
  money : (commitBanks env s).bankMoney = s.bankMoney + s.blk.bnk.size • residue bankMass

/-- The money depends on the weights and the deposits only. -/
theorem State.bankMoney_modifyNode {f : Node → Node}
    (h : (f (s.srvs.node b)).weight = (s.srvs.node b).weight) :
    (s.modifyNode b f).bankMoney = s.bankMoney := by
  rw [bankMoney, bankMoney]
  congr 1
  refine Finset.sum_congr rfl fun i _ => ?_
  congr 1
  rw [State.modifyNode, Table.get_modify]
  split
  · rename_i hi
    rw [hi.1]
    exact h
  · rfl

theorem State.bankMoney_saveUndo (b : UInt16) (undo : Map UInt32 User) (users : UInt32) :
    (s.saveUndo b undo users).bankMoney = s.bankMoney :=
  @State.bankMoney_modifyNode s b (fun _ =>
    (Esc.saveUndo (s.srvs.node b) (s.und s.srvs.now b) undo users).1) (by rw [saveUndo_node])

theorem State.bankMoney_putUser (b : UInt16) (uid : UInt32) (u : User) :
    (s.putUser b uid u).bankMoney = s.bankMoney :=
  @State.bankMoney_modifyNode s b (fun n => { n with
    users := ((s.accounts b).putUser u uid).users
    changed := ((s.accounts b).putUser u uid).changed }) rfl

/-- A takeover leaves all weights as they are. -/
theorem State.bankMoney_putNode (env : Env) (ou : User) (peer : UInt16) :
    (s.putNode env ou peer).bankMoney = s.bankMoney := by
  rw [State.putNode]
  rw [State.bankMoney_modifyNode rfl, State.bankMoney_putUser, State.bankMoney_saveUndo,
    State.bankMoney_modifyNode rfl]

theorem State.bankMoney_addDeposit (b : UInt16) (uid : UInt32) (mass : Int64) :
    (s.addDeposit b uid mass).bankMoney = s.bankMoney + residue mass := by
  have htotal := s.deposit.total_adjust (f := fun _ d => residue d) (markedKey b uid) (· + mass)
    residue_zero
  rw [bankMoney, bankMoney]
  change ∑ i ∈ Finset.range s.srvs.nodes.size, residue (s.srvs.nodes.get i).weight +
    (s.deposit.adjust (markedKey b uid) (· + mass)).total (fun _ d => residue d) = _
  rw [htotal, residue_add]
  ring

/-- A node more: its owner account has the amount, and so has the bank. -/
structure NodeAdded (s s' : State) : Prop where
  size : s'.srvs.nodes.size = s.srvs.nodes.size + 1
  node : ∀ i < s.srvs.nodes.size, s'.srvs.nodes.get i = s.srvs.nodes.get i
  usr : ∀ b : UInt16, b.toNat ≠ s.srvs.nodes.size → s'.usr b = s.usr b
  deposit : s'.deposit = s.deposit
  weight : (s'.srvs.nodes.get s.srvs.nodes.size).weight = bankMass
  booked : ∀ b : UInt16, b.toNat = s.srvs.nodes.size → s'.Booked b

theorem State.addNode_added (env : Env) (ou : User) (h : s.srvs.nodes.size < bankMax - 1) :
    NodeAdded s (s.addNode env ou) := by
  rw [bankMax] at h
  have hpeer : (UInt16.ofNat s.srvs.nodes.size).toNat = s.srvs.nodes.size := by
    rw [UInt16.toNat_ofNat']
    omega
  rw [State.addNode]
  generalize hnn : initNodeHash env.sha256 _ _ = nn
  have hzero : nn.users = 0 := by
    rw [← hnn]
    rfl
  clear hnn
  generalize UInt16.ofNat s.srvs.nodes.size = peer at hpeer
  generalize hnu : initUser env.sha256 _ _ _ _ _ _ = nu
  have hmass : nu.weight = bankMass := by
    rw [← hnu, initUser_weight]
    rfl
  clear hnu
  have hlt : peer.toNat < (s.pushNode nn).srvs.nodes.size := by
    rw [State.size_pushNode]
    omega
  have hpushed : (s.pushNode nn).srvs.node peer = nn := by
    rw [Servers.node, hpeer]
    exact Table.get_write_self _ _ _
  have hput : ((s.pushNode nn).putUser peer 0 nu).srvs.node peer =
      { nn with
        users := 1
        changed := (((s.pushNode nn).accounts peer).putUser nu 0).changed } := by
    have hnode := (s.pushNode nn).node_modifyNode peer (fun n => { n with
      users := (((s.pushNode nn).accounts peer).putUser nu 0).users
      changed := (((s.pushNode nn).accounts peer).putUser nu 0).changed }) hlt
    refine hnode.trans ?_
    rw [hpushed]
    congr 1
    change (if ((s.pushNode nn).srvs.node peer).users ≤ 0 then 0 + 1 else _) = _
    rw [hpushed, hzero]
    rfl
  have hnew := ((s.pushNode nn).putUser peer 0 nu).node_modifyNode peer
    (fun n => { n with weight := nu.weight, hash := nu.csum }) hlt
  rw [hput] at hnew
  dsimp only at hnew
  generalize hs₁ : ((s.pushNode nn).putUser peer 0 nu).modifyNode peer
    (fun n => { n with weight := nu.weight, hash := nu.csum }) = s₁ at hnew
  have husr : s₁.usr = Function.update s.usr peer ((s.usr peer).write 0 nu) := by
    rw [← hs₁]
    rfl
  refine ⟨?_, ?_, ?_, ?_, ?_, ?_⟩
  · rw [← hs₁]
    exact s.size_pushNode nn
  · intro i hi
    have hne : i ≠ peer.toNat := by omega
    simp only [← hs₁, State.modifyNode, State.putUser, State.setFile, State.pushNode]
    rw [Table.get_modify_ne _ _ hne, Table.get_modify_ne _ _ hne]
    exact Table.get_write_ne _ _ (by omega)
  · intro b hb
    rw [husr]
    exact Function.update_of_ne (fun heq => hb (by rw [heq, hpeer])) _ _
  · rw [← hs₁]
    rfl
  · rw [Servers.node, hpeer] at hnew
    rw [hnew, hmass]
  · intro b hb
    obtain rfl : b = peer := UInt16.toNat_inj.mp (hb.trans hpeer.symm)
    have hrecord : (s₁.usr b).get 0 = nu := by
      rw [husr, Function.update_self, Table.get_write_self]
    constructor
    · change (s₁.srvs.node b).weight = s₁.bankWeight b
      rw [State.bankWeight, hnew]
      change nu.weight = 0 + ((s₁.usr b).get 0).weight
      rw [hrecord, Int64.zero_add]
    · change (s₁.srvs.node b).hash = s₁.bankHash b
      rw [State.bankHash, hnew]
      change nu.csum = 0 ^^^ ((s₁.usr b).get 0).csum
      rw [hrecord]
      exact BitVec.zero_xor.symm

theorem NodeAdded.bankMoney {s' : State} (h : NodeAdded s s') :
    s'.bankMoney = s.bankMoney + residue bankMass := by
  rw [State.bankMoney, State.bankMoney, h.size, h.deposit, Finset.sum_range_succ, h.weight,
    Finset.sum_congr rfl fun i hi => by rw [h.node i (Finset.mem_range.mp hi)]]
  ring

/-- Banks that were in order stay in order. -/
theorem NodeAdded.booked_all {s' : State} (h : NodeAdded s s')
    (hbooked : ∀ b : UInt16, 1 ≤ b.toNat → b.toNat < s.srvs.nodes.size → s.Booked b) (b : UInt16)
    (hpos : 1 ≤ b.toNat) (hlt : b.toNat < s'.srvs.nodes.size) : s'.Booked b := by
  rw [h.size] at hlt
  by_cases hnew : b.toNat = s.srvs.nodes.size
  · exact h.booked b hnew
  · have hold := hbooked b hpos (by omega)
    have hnode : s'.srvs.node b = s.srvs.node b := h.node b.toNat (by omega)
    obtain ⟨hweight, hhash⟩ := @State.bank_congr s s' b (by rw [hnode])
      (fun i _ => by rw [h.usr b hnew])
    constructor
    · rw [hnode, hweight]
      exact hold.weight
    · rw [hnode, hhash]
      exact hold.hash

/-- One request. -/
theorem bankMoney_bnkStep (env : Env) (acc : State × List UInt64) (key : UInt64) (auser : UInt32) :
    (bnkStep env acc key auser).1.bankMoney =
      acc.1.bankMoney + (if acc.2 = [] then residue bankMass else 0) := by
  obtain ⟨s, free⟩ := acc
  cases free with
  | cons bi rest => rw [if_neg (by simp), add_zero]; exact State.bankMoney_putNode env _ _
  | nil =>
      rw [if_pos rfl, bnkStep]
      split
      · rename_i hroom
        exact (State.addNode_added env _ hroom).bankMoney
      · exact State.bankMoney_addDeposit _ _ _

/-- The requests so far have used up the candidates from the front, and each of the others
has added its amount. -/
structure BanksSoFar (env : Env) (s : State) (pre : List (UInt64 × UInt32))
    (acc : (State × List UInt64) × List BankResult) : Prop where
  state : acc.1 = pre.foldl (fun acc r => bnkStep env acc r.1 r.2) (s, newBnk s)
  free : acc.1.2 = (newBnk s).drop pre.length
  taken : (overwritten acc.2).length = min pre.length (newBnk s).length
  money : acc.1.1.bankMoney =
    s.bankMoney + (pre.length - min pre.length (newBnk s).length) • residue bankMass

theorem bankRound_soFar {pre : List (UInt64 × UInt32)} (r : UInt64 × UInt32)
    (h : BanksSoFar env s pre acc) : BanksSoFar env s (pre ++ [r]) (bankRound env acc r) := by
  obtain ⟨⟨s₁, free⟩, results⟩ := acc
  have hfree := h.free
  dsimp only at hfree
  have hmoney := bankMoney_bnkStep env (s₁, free) r.1 r.2
  have hlength := congrArg List.length hfree
  rw [List.length_drop] at hlength
  refine ⟨?_, ?_, ?_, ?_⟩
  · rw [List.foldl_append, ← h.state]
    rfl
  · rw [List.length_append, List.length_singleton, ← List.drop_drop, ← hfree]
    cases free with
    | cons bi rest => rfl
    | nil =>
        simp only [bankRound, bnkStep]
        split <;> rfl
  · have htaken := h.taken
    simp only [bankRound, overwritten, List.filterMap_append, List.length_append,
      List.length_singleton] at htaken ⊢
    rw [htaken]
    cases free with
    | cons bi rest =>
        simp only [List.length_cons] at hlength
        simp only [bankResult, List.filterMap_cons, BankResult.peer?, List.filterMap_nil,
          List.length_singleton]
        omega
    | nil =>
        simp only [List.length_nil] at hlength
        simp only [bankResult]
        split <;> simp only [List.filterMap_cons, BankResult.peer?, List.filterMap_nil,
          List.length_nil] <;> omega
  · have hold := h.money
    dsimp only at hold
    simp only [bankRound, List.length_append, List.length_singleton]
    rw [hmoney, hold]
    cases free with
    | cons bi rest =>
        simp only [List.length_cons] at hlength
        rw [if_neg (by simp), add_zero]
        congr 2
        omega
    | nil =>
        simp only [List.length_nil] at hlength
        rw [if_pos rfl, add_assoc, ← succ_nsmul]
        congr 2
        omega

/-- The loop with the results noted. -/
def bankLoop (env : Env) (s : State) : (State × List UInt64) × List BankResult :=
  s.blk.bnk.toList.foldl (bankRound env) ((s, newBnk s), [])

theorem bankLoop_soFar (env : Env) (s : State) :
    BanksSoFar env s s.blk.bnk.toList (bankLoop env s) := by
  refine foldl_invariant (BanksSoFar env s) ⟨rfl, rfl, by simp [overwritten], by simp⟩ ?_
  intro pre r post acc _ h
  exact bankRound_soFar r h

theorem commitBanks_eq (env : Env) (s : State) : commitBanks env s = (bankLoop env s).1.1 := by
  rw [(bankLoop_soFar env s).state, commitBanks, Std.ExtTreeMap.foldl_eq_foldl_toList]

/-- So far every request has added a node or has been paid back. -/
structure NoTakeover (s : State) (acc : (State × List UInt64) × List BankResult) : Prop where
  taken : overwritten acc.2 = []
  kept : ∀ b : UInt16, b.toNat < s.srvs.nodes.size →
    acc.1.1.srvs.node b = s.srvs.node b ∧ acc.1.1.usr b = s.usr b
  added : acc.1.1.srvs.nodes.size = s.srvs.nodes.size + acc.2.countP BankResult.isAdded
  full : (∃ bank user, .refunded bank user ∈ acc.2) → bankMax - 1 ≤ acc.1.1.srvs.nodes.size
  refund : ∀ key, residue (acc.1.1.deposit.val key) =
    residue (s.deposit.val key) + acc.2.countP (·.refunds key) • residue bankMass
  booked : ∀ b : UInt16, 1 ≤ b.toNat → b.toNat < acc.1.1.srvs.nodes.size → acc.1.1.Booked b

theorem NoTakeover.init {free : List UInt64}
    (hbooked : ∀ b : UInt16, 1 ≤ b.toNat → b.toNat < s.srvs.nodes.size → s.Booked b) :
    NoTakeover s ((s, free), []) :=
  ⟨rfl, fun _ _ => ⟨rfl, rfl⟩, rfl, by simp, by simp, hbooked⟩

theorem NoTakeover.add (h : NoTakeover s acc) (hfree : acc.1.2 = []) (r : UInt64 × UInt32)
    (hroom : acc.1.1.srvs.nodes.size < bankMax - 1) :
    (bankRound env acc r).1.2 = [] ∧ NoTakeover s (bankRound env acc r) := by
  obtain ⟨⟨s₁, free⟩, results⟩ := acc
  obtain rfl : free = [] := hfree
  have hadded := State.addNode_added env (readUser (s₁.usr (ppiAbank r.1)) r.2 env.junk) hroom
  have hresult : bankResult (s₁, []) r.1 r.2 = .added (.ofNat s₁.srvs.nodes.size) := if_pos hroom
  have hstep : bnkStep env (s₁, []) r.1 r.2 =
      (s₁.addNode env (readUser (s₁.usr (ppiAbank r.1)) r.2 env.junk), []) := if_pos hroom
  rw [bankRound, hresult, hstep]
  have hsize := h.added
  dsimp only at hsize hroom
  refine ⟨rfl, ?_, ?_, ?_, ?_, ?_, hadded.booked_all h.booked⟩
  · have htaken := h.taken
    rw [overwritten] at htaken ⊢
    rw [List.filterMap_append, htaken]
    rfl
  · intro b hb
    obtain ⟨hnode, husr⟩ := h.kept b hb
    have hlt : b.toNat < s₁.srvs.nodes.size := by omega
    exact ⟨(hadded.node _ hlt).trans hnode, (hadded.usr b hlt.ne).trans husr⟩
  · rw [List.countP_append, hadded.size, hsize]
    rfl
  · rintro ⟨bank, user, hmem⟩
    rcases List.mem_append.mp hmem with hmem | hmem
    · exact absurd (h.full ⟨bank, user, hmem⟩) (not_le.mpr hroom)
    · cases List.mem_singleton.mp hmem
  · intro key
    have hold := h.refund key
    dsimp only at hold
    rw [hadded.deposit, hold, List.countP_append]
    rfl

theorem NoTakeover.pay (h : NoTakeover s acc) (hfree : acc.1.2 = []) (r : UInt64 × UInt32)
    (hroom : ¬ acc.1.1.srvs.nodes.size < bankMax - 1) :
    (bankRound env acc r).1.2 = [] ∧ NoTakeover s (bankRound env acc r) := by
  obtain ⟨⟨s₁, free⟩, results⟩ := acc
  obtain rfl : free = [] := hfree
  have hresult : bankResult (s₁, []) r.1 r.2 = .refunded (ppiAbank r.1) r.2 := if_neg hroom
  have hstep : bnkStep env (s₁, []) r.1 r.2 =
      (s₁.addDeposit (ppiAbank r.1) r.2 bankMass, []) := if_neg hroom
  rw [bankRound, hresult, hstep]
  refine ⟨rfl, ?_, h.kept, ?_, fun _ => not_lt.mp hroom, ?_, ?_⟩
  · have htaken := h.taken
    rw [overwritten] at htaken ⊢
    rw [List.filterMap_append, htaken]
    rfl
  · rw [List.countP_append]
    exact h.added
  · intro key
    have hold := h.refund key
    dsimp only at hold
    rw [List.countP_append, add_nsmul, ← add_assoc, ← hold]
    change residue ((s₁.deposit.adjust (markedKey (ppiAbank r.1) r.2) (· + bankMass)).val key) = _
    rw [Map.val_adjust]
    by_cases hkey : key = markedKey (ppiAbank r.1) r.2
    · subst hkey
      simp [BankResult.refunds, residue_add]
    · simp [BankResult.refunds, hkey, Ne.symm hkey]
  · intro b hpos hlt
    exact ⟨(h.booked b hpos hlt).weight, (h.booked b hpos hlt).hash⟩

theorem bankLoop_noTakeover (env : Env) (hnone : newBnk s = [])
    (hbooked : ∀ b : UInt16, 1 ≤ b.toNat → b.toNat < s.srvs.nodes.size → s.Booked b) :
    NoTakeover s (bankLoop env s) := by
  refine (foldl_invariant (fun _ acc => acc.1.2 = [] ∧ NoTakeover s acc)
    ⟨hnone, NoTakeover.init hbooked⟩ ?_).2
  rintro pre r post acc - ⟨hfree, h⟩
  by_cases hroom : acc.1.1.srvs.nodes.size < bankMax - 1
  · exact h.add hfree r hroom
  · exact h.pay hfree r hroom

theorem newBnk_eq_nil_iff (hbanks : s.srvs.nodes.size ≤ bankMax) :
    newBnk s = [] ↔ ∀ b, ¬ s.CanTake b := by
  rw [newBnk, ← List.length_eq_zero_iff, List.length_insertionSort, List.length_eq_zero_iff,
    List.filterMap_eq_nil_iff]
  refine forall_congr' fun b => ?_
  rw [State.mem_banks_iff hbanks, State.CanTake]
  constructor
  · rintro h ⟨hpos, hlt, htime, hweight⟩
    have hnone := h ⟨hpos, hlt⟩
    simp [htime, hweight] at hnone
  · rintro h ⟨hpos, hlt⟩
    rw [if_neg]
    intro htake
    rw [Bool.and_eq_true, decide_eq_true_iff, decide_eq_true_iff] at htake
    exact h ⟨hpos, hlt, htake.1, htake.2⟩

theorem length_newBnk_le (hbanks : s.srvs.nodes.size ≤ bankMax) : (newBnk s).length ≤ 2 ^ 16 := by
  rw [newBnk, List.length_insertionSort]
  refine (List.length_filterMap_le _ _).trans ?_
  rw [State.banks, List.length_map, List.length_tail, List.length_range]
  rw [bankMax] at hbanks
  omega

/-- The requests do what they have to exactly if there are none or no bank can be taken
over. -/
theorem banksMade_iff (env : Env) {s : State} (hbanks : s.srvs.nodes.size ≤ bankMax)
    (hbooked : ∀ b : UInt16, 1 ≤ b.toNat → b.toNat < s.srvs.nodes.size → s.Booked b) :
    BanksMade env s ↔ s.blk.bnk = ∅ ∨ ∀ b, ¬ s.CanTake b := by
  have hloop := bankLoop_soFar env s
  rw [← newBnk_eq_nil_iff hbanks]
  constructor
  · intro h
    -- A takeover does not add its amount to the weight of any bank.
    have hmoney := h.money
    rw [commitBanks_eq, hloop.money, ← Std.ExtTreeMap.length_toList, add_right_inj] at hmoney
    have hle := length_newBnk_le hbanks
    have hsplit : s.blk.bnk.toList.length =
        s.blk.bnk.toList.length - min s.blk.bnk.toList.length (newBnk s).length +
          min s.blk.bnk.toList.length (newBnk s).length := by omega
    rw [hsplit, add_nsmul, ← hsplit, left_eq_add] at hmoney
    have hamount : bankMass.toInt = (100000000000 : Nat) := by decide
    have hzero := eq_zero_of_nsmul_residue hamount (by decide) (by omega) hmoney
    rcases Nat.min_eq_zero_iff.mp hzero with hempty | hnone
    · rw [Std.ExtTreeMap.length_toList] at hempty
      exact Or.inl (Std.ExtTreeMap.eq_empty_iff_size_eq_zero.mpr hempty)
    · exact Or.inr (List.length_eq_zero_iff.mp hnone)
  · intro h
    have hnone : NoTakeover s (bankLoop env s) := by
      rcases h with hempty | hnone
      · have hlist : s.blk.bnk.toList = [] := by
          rw [← List.length_eq_zero_iff, Std.ExtTreeMap.length_toList, hempty]
          rfl
        rw [bankLoop, hlist]
        exact NoTakeover.init hbooked
      · exact bankLoop_noTakeover env hnone hbooked
    have htaken : overwritten (bankResults env s) = [] := hnone.taken
    have hmin : min s.blk.bnk.toList.length (newBnk s).length = 0 := by
      rw [← hloop.taken, hnone.taken, List.length_nil]
    refine ⟨?_, ?_, ?_, ?_, ?_, ?_, ?_, ?_⟩
    · rw [htaken]
      simp
    · rw [htaken]
      exact List.nodup_nil
    · intro b hb _
      rw [commitBanks_eq]
      exact hnone.kept b hb
    · rw [commitBanks_eq]
      exact hnone.added
    · rw [commitBanks_eq]
      exact hnone.full
    · rw [commitBanks_eq]
      exact hnone.refund
    · rw [commitBanks_eq]
      exact hnone.booked
    · rw [commitBanks_eq, hloop.money, hmin, Nat.sub_zero, Std.ExtTreeMap.length_toList]

namespace Sample

def bankEnv : Env where
  svid := 1
  sha256 _ := 0
  signOpenBatch2 _ := true
  findKey _ := none
  junk := {}

/-- Bank 1 has funds and requests a bank; bank 2 had its last transaction at `mtim`. -/
def bankState (mtim : UInt32) : State where
  srvs :=
    { now := 0x60000000
      nodes := .ofList
        [{}, { users := 1, weight := 7000, mtim := 0x60000000 }, { users := 1, mtim }] }
  last := { now := 0x5FFFFE00 }
  usr b := if b = 1 then .ofList [{ msid := 1, weight := 7000 }] else .ofList [{ msid := 1 }]
  blk := { bnk := (∅ : Map UInt64 UInt32).insert (makePpi 1 0 1 1 0) 0 }

theorem bank_cases (hpos : 1 ≤ b.toNat) (hlt : b.toNat < 3) : b = 1 ∨ b = 2 := by
  rw [← UInt16.toNat_inj, ← UInt16.toNat_inj]
  change b.toNat = 1 ∨ b.toNat = 2
  omega

theorem bankState_booked {mtim : UInt32} (hpos : 1 ≤ b.toNat)
    (hlt : b.toNat < (bankState mtim).srvs.nodes.size) : (bankState mtim).Booked b := by
  have hzero : (0 : Hash) = 0 ^^^ 0 := by decide
  rcases bank_cases hpos hlt with rfl | rfl
  · exact ⟨rfl, hzero⟩
  · exact ⟨rfl, hzero⟩

end Sample

theorem banksMade_added : BanksMade Sample.bankEnv (Sample.bankState 0x60000000) := by
  refine (banksMade_iff Sample.bankEnv (by decide) fun _ hpos hlt =>
    Sample.bankState_booked hpos hlt).mpr (Or.inr ?_)
  rintro b ⟨hpos, hlt, htake⟩
  rcases Sample.bank_cases hpos hlt with rfl | rfl
  · revert htake
    decide
  · revert htake
    decide

/-- Bank 2 is abandoned, but bank 1 is overwritten and its books are wrong. -/
theorem commitBanks_takes_neighbour :
    (∀ b : UInt16, 1 ≤ b.toNat → b.toNat < (Sample.bankState 0).srvs.nodes.size →
      (Sample.bankState 0).Booked b) ∧
    (Sample.bankState 0).CanTake 2 ∧ ¬ (Sample.bankState 0).CanTake 1 ∧
    bankResults Sample.bankEnv (Sample.bankState 0) = [.overwritten 1] ∧
    ¬ (commitBanks Sample.bankEnv (Sample.bankState 0)).Booked 1 ∧
    ¬ BanksMade Sample.bankEnv (Sample.bankState 0) := by
  have hresults : bankResults Sample.bankEnv (Sample.bankState 0) = [.overwritten 1] := by
    decide +kernel
  have hbooked : ¬ (commitBanks Sample.bankEnv (Sample.bankState 0)).Booked 1 := by
    decide +kernel
  refine ⟨fun _ hpos hlt => Sample.bankState_booked hpos hlt, by decide, by decide, hresults,
    hbooked, ?_⟩
  intro h
  have htaken := h.taken 1 (by rw [hresults]; exact List.mem_singleton.mpr rfl)
  revert htaken
  decide

end Esc
