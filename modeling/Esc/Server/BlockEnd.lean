import Esc.Server.Bankfee
import Esc.Server.DepositCredit
import Esc.Server.NewBanks
import Esc.Server.Operations

/-!
# The end of a block

`finish_block` pays out the requests of the block, then the dividends, the deposits and the profits
of the banks. Requests have been paid for by the messages that made them, so the wealth grows by
the requests at most, and with room for that and for the profits no balance becomes negative.
-/

namespace Esc

open Lib

variable {env : Env} {s s' : State} {b : UInt16} {key : UInt64}

theorem State.addDeposit_paysOut {uid : UInt32} {mass : Int64} (hmass : 0 ≤ mass.toInt)
    (hold : s.holds b uid) :
    PaysOut mass.toInt s (s.addDeposit b uid mass) :=
  .deposit (SameShape.extends ⟨rfl, rfl, rfl, fun _ => rfl, fun _ => rfl, rfl, rfl⟩)
    rfl hmass hold rfl

/-- The accounts that stand behind the requests of a block. -/
structure Requests.Anchored (r : Requests) (P : UInt16 → UInt32 → Prop) : Prop where
  usr : ∀ k tx, r.usr[k]? = some tx → P (ppiAbank k) tx.auser
  uok : ∀ k tx, r.uok[k]? = some tx → P (ppiAbank k) tx.auser
  bnk : ∀ k auser, r.bnk[k]? = some auser → P (ppiAbank k) auser
  get : ∀ k tx, r.get[k]? = some tx → P (ppiAbank k) tx.auser

/-- The loop over the confirmations: some requests are paid out, the rest is waiting. -/
structure UsersPaid (s : State) (acc : State × List Uin) : Prop where
  paid : ∃ n : Nat, PaysOut (userMinMass.toInt * n) s acc.1 ∧ n + acc.2.length = s.blk.usr.size
  wait : ∀ u ∈ acc.2, s.holds u.abank u.auser

theorem userMinMass_nonneg : 0 ≤ userMinMass.toInt := by decide

theorem uokStep_paid {acc : State × List Uin} {tx : Uok} (h : UsersPaid s acc)
    (hold : s.holds (ppiAbank key) tx.auser) :
    UsersPaid s (uokStep acc key tx) := by
  obtain ⟨s₁, uin⟩ := acc
  obtain ⟨⟨n, hpays, hlen⟩, hwait⟩ := h
  rw [uokStep]
  split
  · rename_i hmem
    refine ⟨⟨n + 1, ?_, ?_⟩, fun u hu => hwait u (List.mem_of_mem_erase hu)⟩
    · have hpaid := (hpays.trans (State.addDeposit_paysOut userMinMass_nonneg
        (hpays.grows.holds hold))).trans_zero
        (State.addFee_same _ (ppiAbank key) (bankProfit txsRusFee)).paysOut
      rwa [← mul_add_one, ← Nat.cast_succ] at hpaid
    · have hpos := List.length_pos_of_mem hmem
      rw [List.length_erase_of_mem hmem]
      dsimp only at hlen
      omega
  · exact ⟨⟨n, hpays, hlen⟩, hwait⟩

/-- What waits until the end goes back. -/
theorem returnAll_paysOut {s₁ : State} {n : Int} {uin : List Uin} (h : PaysOut n s s₁)
    (hwait : ∀ u ∈ uin, s.holds u.abank u.auser) :
    PaysOut (n + userMinMass.toInt * uin.length) s
      (uin.foldl (fun s u => s.addDeposit u.abank u.auser userMinMass) s₁) := by
  induction uin generalizing s₁ n with
  | nil => simpa using h
  | cons u uin ih =>
    have hpaid := h.trans (State.addDeposit_paysOut userMinMass_nonneg
      (h.grows.holds (hwait u List.mem_cons_self)))
    have hrest := ih hpaid fun u' hu' => hwait u' (List.mem_cons_of_mem u hu')
    rwa [add_assoc, add_comm userMinMass.toInt, ← mul_add_one, ← Nat.cast_succ] at hrest

/-- Each account request is paid out once. -/
theorem commitUsers_paysOut (h : s.blk.Anchored s.holds) :
    PaysOut (userMinMass.toInt * s.blk.usr.size) s (commitUsers s) := by
  have hinit : UsersPaid s (s, waiting s.blk.usr) := by
    refine ⟨⟨0, by simpa using PaysOut.refl s, ?_⟩, fun u hu => ?_⟩
    · rw [waiting, List.length_map, Std.ExtTreeMap.length_toList, zero_add]
    · obtain ⟨p, hp, rfl⟩ := List.mem_map.mp hu
      exact h.usr p.1 p.2 (Map.mem_toList.mp hp)
  obtain ⟨⟨n, hpays, hn⟩, hwait⟩ := Map.foldl_invariant (fun _ acc => UsersPaid s acc) hinit
    fun _ key tx _ _ htx hpaid => uokStep_paid hpaid (h.uok key tx htx)
  have hend := returnAll_paysOut hpays hwait
  rwa [← mul_add, ← Nat.cast_add, hn] at hend

/-- Each bank request is paid out once, on an owner account or back to its sender. -/
theorem bnkStep_paysOut {acc : State × List UInt64} {auser : UInt32}
    (hold : acc.1.holds (ppiAbank key) auser) :
    PaysOut (bankMinUmass + bankMinTmass).toInt acc.1 (bnkStep env acc key auser).1 := by
  obtain ⟨s, free⟩ := acc
  cases free with
  | cons bi rest => exact (s.putNode_step env _ _).paysOut
  | nil =>
    rw [bnkStep]
    split
    · rename_i hroom
      exact (s.addNode_step env (readUser (s.usr (ppiAbank key)) auser env.junk) hroom).1.paysOut
    · exact State.addDeposit_paysOut (by decide) hold

theorem commitBanks_paysOut (env : Env)
    (h : ∀ k auser, s.blk.bnk[k]? = some auser → s.holds (ppiAbank k) auser) :
    PaysOut ((bankMinUmass + bankMinTmass).toInt * s.blk.bnk.size) s (commitBanks env s) := by
  have hloop := Map.foldl_invariant (f := bnkStep env) (m := s.blk.bnk) (s := (s, newBnk s))
    (fun pre acc => PaysOut ((bankMinUmass + bankMinTmass).toInt * pre.length) s acc.1)
    (by simpa using PaysOut.refl s) ?_
  · rwa [Std.ExtTreeMap.length_toList] at hloop
  · intro pre key auser acc _ hauser hpays
    have hstep := hpays.trans (@bnkStep_paysOut env key acc auser
      (hpays.grows.holds (h key auser hauser)))
    rwa [List.length_append, List.length_singleton, Nat.cast_succ, mul_add_one]

/-- The money that the requests of the block will pay out. -/
def State.requested (s : State) : Int :=
  userMinMass.toInt * s.blk.usr.size + (bankMinUmass + bankMinTmass).toInt * s.blk.bnk.size

theorem prepareBlock_paysOut (env : Env) (h : s.blk.Anchored s.holds) :
    PaysOut s.requested s (prepareBlock env s) := by
  have husers := (commitUsers_paysOut h).trans_zero
    ((commitKeys_books (commitUsers s)).trans (commitStatus_books _)).paysOut
  have hblk := husers.grows.blk
  rw [prepareBlock]
  generalize commitStatus _ = s₁ at *
  have hbanks := commitBanks_paysOut (s := s₁) env fun k auser hk =>
    husers.grows.holds (h.bnk k auser (hblk ▸ hk))
  rw [hblk] at hbanks
  exact husers.trans hbanks

/-- What arrives of a balance is part of it. -/
theorem withdrawal_bounds {w : Int64} (h : 0 ≤ w.toInt) :
    0 ≤ (withdrawal w).toInt ∧ (withdrawal w).toInt ≤ w.toInt := by
  have hthousand : (1000 : Int64).toInt = 1000 := by decide
  have htwo : (2000 : Int64).toInt = 2000 := by decide
  have hmax := (fits_toInt w).2
  have hgok : (txsGokFee w).toInt = w.toInt / 1000 := by
    rw [txsGokFee, toInt_div h (by decide), hthousand]
  have hrest : (w - txsGokFee w).toInt = w.toInt - w.toInt / 1000 := by
    rw [toInt_sub (by rw [hgok]; exact ⟨by omega, by omega⟩), hgok]
  have hlng : (txsLngFee (w - txsGokFee w)).toInt = (w.toInt - w.toInt / 1000) / 2000 := by
    rw [txsLngFee, toInt_div (by omega) (by decide), htwo, hrest]
  rw [withdrawal, toInt_sub (by rw [hrest, hlng]; exact ⟨by omega, by omega⟩), hrest, hlng]
  omega

/-- A withdrawal creates no money. -/
theorem Withdrawal.paysOut {tx : Get} (h : Withdrawal env s s' key tx)
    (hold : s.holds (ppiAbank key) tx.auser) :
    PaysOut 0 s s' := by
  cases h with
  | refused _ h => exact h.paysOut
  | lock _ _ _ h hdeposit =>
    have hdep (k : UInt64) :
        s'.deposit.val k = if k = 0 then s.deposit.val 0 else s.deposit.val k := by
      rw [hdeposit, ite_eq_right_iff.mpr fun hk => by rw [hk]]
    refine h.paysOut hdep (fun hpay hne => hpay 0 hne) fun hs hmax => ?_
    rw [Int64.toInt_zero]
    have hpaid := (hs.paid_nonneg hmax (ppiBbank key) tx.buser).1
    exact ⟨hs.deposit 0, by omega, by omega⟩
  | empty _ _ _ h hdeposit =>
    have hdep (k : UInt64) := (hdeposit k).trans (Map.val_adjust ..)
    have hkey := account_markedKey (ppiAbank key) tx.auser
    refine h.paysOut hdep (fun _ _ => by rw [hkey.1, hkey.2]; exact hold) fun hs hmax => ?_
    obtain ⟨hw, hle⟩ := hs.paid_nonneg hmax (ppiBbank key) tx.buser
    obtain ⟨hwd, hwdle⟩ := withdrawal_bounds hw
    have hroom : holding s.srvs (s.record (ppiBbank key) tx.buser) +
        (s.deposit.val (markedKey (ppiAbank key) tx.auser)).toInt ≤ s.wealth :=
      hs.holding_add_deposit_le _ tx.buser.toNat _
    have hkeep := hs.deposit (markedKey (ppiAbank key) tx.auser)
    rw [ledgerMax] at hmax
    rw [toInt_neg ⟨by omega, by omega⟩, toInt_add ⟨by omega, by omega⟩]
    omega

theorem Withdrawals.paysOut {gets : List (UInt64 × Get)} (h : Withdrawals env s gets s')
    (hold : ∀ p ∈ gets, s.holds (ppiAbank p.1) p.2.auser) :
    PaysOut 0 s s' := by
  induction h with
  | nil h => exact h.paysOut
  | @snoc gets s₁ s₂ key tx _ hstep ih =>
    have hrun := ih fun p hp => hold p (List.mem_append_left _ hp)
    refine hrun.trans_zero (hstep.paysOut (hrun.grows.holds (hold (key, tx) ?_)))
    exact List.mem_append_right _ List.mem_cons_self

/-- The accounts that the end of a block refers to are on file. -/
structure State.Sound (env : Env) (s : State) : Prop where
  filed : s.Filed
  banks : s.srvs.nodes.size ≤ bankMax
  owners : ∀ b : UInt16, 1 ≤ b.toNat → b.toNat < s.srvs.nodes.size → s.onFile b 0
  payable : s.Payable
  requests : s.blk.Anchored s.holds
  withdrawals : Operation.OnFile env s .commitBlock

/-- The first three steps of `finish_block`. -/
def beforeBankfee (env : Env) (s : State) : Option State :=
  (commitDividends env (commitBlock env s)).map (commitDeposit env)

/-- What `finish_block` does to the accounts. -/
def finishBlock (env : Env) (s : State) : Option State :=
  (beforeBankfee env s).bind (commitBankfee env)

theorem commitBlock_paysOut (h : s.Sound env) :
    ∃ s₁, commitBlock env s = { s₁ with blk := {}, blkBky := ∅ } ∧ PaysOut s.requested s s₁ := by
  have hprepare := prepareBlock_paysOut env h.requests
  refine ⟨_, commitBlock_eq env s, hprepare.trans_zero ?_⟩
  refine h.withdrawals.withdrawals.paysOut fun p hp => hprepare.grows.holds ?_
  exact h.requests.get p.1 p.2 (Map.mem_toList.mp hp)

/-- The owners of old and new banks are on file. -/
theorem Extends.owners (h : Extends s s')
    (howners : ∀ b : UInt16, 1 ≤ b.toNat → b.toNat < s.srvs.nodes.size → s.onFile b 0)
    (hpos : 1 ≤ b.toNat) (hb : b.toNat < s'.srvs.nodes.size) : s'.onFile b 0 := by
  by_cases hold : b.toNat < s.srvs.nodes.size
  · exact h.onFile (howners b hpos hold)
  · exact h.owned b (not_lt.mp hold) hb

theorem beforeBankfee_paysOut {s₁ : State} (h : s.Sound env)
    (hrun : beforeBankfee env s = some s₁) : ∃ s₂, PaysOut s.requested s s₂ ∧
      PaysOut 0 { s₂ with blk := {}, blkBky := ∅ } s₁ := by
  obtain ⟨s₂, hcommit, hpays⟩ := commitBlock_paysOut h
  obtain ⟨s₃, hdividends, rfl⟩ := Option.map_eq_some_iff.mp hrun
  rw [hcommit] at hdividends
  have hfiled : State.Filed { s₂ with blk := {}, blkBky := ∅ } := hpays.grows.filed h.filed
  have hthird := AccountStep.paysOut_of_run (commitDividends_run hfiled hdividends)
  refine ⟨s₂, hpays, hthird.trans_zero (AccountStep.paysOut_of_run (commitDeposit_run ?_))⟩
  exact hthird.payable (hpays.payable h.payable)

/-- With room for the requests and the profits of the block, the end of the block leaves nothing
negative. -/
theorem finishBlock_solvent {env : Env} {s s' : State} (hs : Solvent s) (h : s.Sound env)
    (hmax : ∀ s₁, beforeBankfee env s = some s₁ →
      s.wealth + s.requested + 4 * s₁.profits + 2 ^ 32 ≤ ledgerMax)
    (hrun : finishBlock env s = some s') : Solvent s' ∧ s'.deposit = ∅ ∧
      ∃ s₁, beforeBankfee env s = some s₁ ∧ s₁.wealth ≤ s.wealth + s.requested := by
  obtain ⟨s₁, hbefore, hfee⟩ := Option.bind_eq_some_iff.mp hrun
  have hroom := hmax s₁ hbefore
  have hprofits := s₁.profits_nonneg
  obtain ⟨s₂, hfirst, hsecond⟩ := beforeBankfee_paysOut h hbefore
  obtain ⟨hs₂, hle₂⟩ := hfirst.solvent hs (by omega)
  obtain ⟨hs₁, hle₁⟩ := hsecond.solvent ⟨hs₂.weight, hs₂.deposit⟩ (by
    show s₂.wealth + 0 ≤ ledgerMax
    omega)
  have hle : s₁.wealth ≤ s.wealth + s.requested := hle₁.trans (by
    show s₂.wealth + 0 ≤ _
    omega)
  have hbanks := hsecond.grows.banks (hfirst.grows.banks h.banks)
  have howners (b : UInt16) (hb : b ∈ s₁.banks) : s₁.onFile b 0 := by
    obtain ⟨hpos, hlt⟩ := (State.mem_banks_iff hbanks).mp hb
    exact hsecond.grows.owners (fun _ => hfirst.grows.owners h.owners) hpos hlt
  obtain ⟨hsolvent, -, hdeposit⟩ := commitBankfee_solvent hs₁ hbanks howners (by omega) hfee
  refine ⟨hsolvent, ?_, s₁, hbefore, hle⟩
  obtain ⟨s₃, -, rfl⟩ := Option.map_eq_some_iff.mp hbefore
  exact hdeposit

namespace Sample

/-- The bank with the deposits, and two requests of its account: for an account of the same bank
and for a new bank. -/
def requestState : State :=
  { creditState with
    blk := {
      usr := (∅ : Map UInt64 Usr).insert (makePpi 1 0 1 1 1)
        { auser := 0, bbank := 1, pkey := 5 }
      bnk := (∅ : Map UInt64 UInt32).insert (makePpi 2 0 1 1 0) 0 } }

theorem requestState_usr (hb : b ≠ 1) : requestState.usr b = .empty := if_neg hb

theorem requestState_solvent : Solvent requestState := by
  refine ⟨fun b i => ?_, fun k => ?_⟩
  · by_cases hb : b = 1
    · subst hb
      cases i with
      | zero => decide
      | succ i => exact le_rfl
    · rw [requestState_usr hb]
      exact le_rfl
  · have hdeposit : requestState.deposit = creditState.deposit := rfl
    rw [hdeposit, creditState, Map.val_adjust, Map.val_adjust, Map.val_empty]
    split
    · decide
    · split <;> decide

theorem requestState_sound : requestState.Sound creditEnv := by
  have hnone {V : Type} {k : UInt64} {x : V} (h : (∅ : Map UInt64 V)[k]? = some x) : False := by
    rw [Std.ExtTreeMap.getElem?_empty] at h
    cases h
  -- the only entry of a map
  have hone {V : Type} {k k' : UInt64} {x x' : V}
      (h : ((∅ : Map UInt64 V).insert k x)[k']? = some x') : k = k' ∧ x = x' := by
    rw [Std.ExtTreeMap.getElem?_insert] at h
    split at h
    · rename_i heq
      exact ⟨Std.LawfulEqOrd.eq_of_compare heq, Option.some.inj h⟩
    · exact (hnone h).elim
  have hholds : requestState.holds 1 0 := ⟨by decide, Nat.zero_lt_one⟩
  refine ⟨creditState_ready.filed, creditState_ready.banks, fun b hpos hb => ?_,
    creditState_ready.payable, ⟨fun k tx hk => ?_, fun k x hk => (hnone hk).elim,
      fun k auser hk => ?_, fun k x hk => (hnone hk).elim⟩, fun k tx hk => (hnone hk).elim⟩
  · obtain rfl : b = 1 := UInt16.toNat_inj.mp (Nat.le_antisymm (Nat.le_of_lt_succ hb) hpos)
    exact Nat.zero_lt_one
  · obtain ⟨rfl, rfl⟩ := hone hk
    exact hholds
  · obtain ⟨rfl, rfl⟩ := hone hk
    exact hholds

theorem requestState_wealth : requestState.wealth ≤ 10 ^ 7 := by
  have hholdings : requestState.holdings =
      fileTotal requestState.srvs (requestState.usr 1) := by
    refine Finset.sum_eq_single_of_mem 1 (Finset.mem_range.mpr (by decide)) fun b hb hne => ?_
    have hother : UInt16.ofNat b ≠ 1 := by
      rw [Ne, ← UInt16.toNat_inj, UInt16.toNat_ofNat_of_lt' (Finset.mem_range.mp hb)]
      exact hne
    rw [requestState_usr hother]
    rfl
  have hfile : fileTotal requestState.srvs (requestState.usr 1) = 1000 := by decide +kernel
  have hdeposits : requestState.depositTotal = 5070000 := by decide +kernel
  rw [State.wealth, hholdings, hfile, hdeposits]
  decide

end Sample

/-- The deposits of the state are paid out and its requests are met. -/
theorem finishBlock_requestState : ∃ s',
    finishBlock Sample.creditEnv Sample.requestState = some s' ∧ Solvent s' ∧ s'.deposit = ∅ := by
  have hrun : (finishBlock Sample.creditEnv Sample.requestState).isSome = true := by decide +kernel
  obtain ⟨s', hs'⟩ := Option.isSome_iff_exists.mp hrun
  have hprofits : ((beforeBankfee Sample.creditEnv Sample.requestState).all fun s₁ =>
      decide (s₁.profits ≤ 10 ^ 9)) = true := by decide +kernel
  have hend := finishBlock_solvent Sample.requestState_solvent Sample.requestState_sound
    (fun s₁ hs₁ => by
      rw [hs₁] at hprofits
      have hwealth := Sample.requestState_wealth
      have hrequested : Sample.requestState.requested ≤ 10 ^ 17 := by decide +kernel
      rw [Option.all_some, decide_eq_true_iff] at hprofits
      rw [ledgerMax]
      omega) hs'
  exact ⟨s', hs', hend.1, hend.2.1⟩

end Esc
