import Esc.Server.Operations

/-!
# Withdrawals need a lock

The lock of an account is kept in its record: the requester in `node` and `user`, the
time of the lock in `time`. Transactions of the owner and the creation of an account
clear it, and nothing else but a committed request sets it. So when a request moves the
funds of an account, the same requester has locked it at least the lock time before.

The commit of a block meets two conditions here: every request names an account on file,
and block times are so small that the end of a lock can be computed.
-/

namespace Esc

open Lib

/-- The operation has a transaction of the account, or creates it. A rejected message and
the part of a block commit before the withdrawals change accounts by creating them. -/
def Operation.touches (env : Env) (s : State) (b : UInt16) (uid : UInt32) : Operation → Prop
  | process msg => msg.svid = b ∧
      match processMessage env s msg with
      | .accept _ _ => ∃ t ∈ msg.txs, t.touches uid
      | .reject s' => s'.record b uid ≠ s.record b uid
      | .exit => False
  | commitBlock => (prepareBlock env s).record b uid ≠ s.record b uid
  | _ => False

/-- The conditions on a block commit. -/
def Operation.Sound (env : Env) (s : State) : Operation → Prop
  | commitBlock => s.srvs.now.toNat + lockTime.toNat < 2 ^ 32 ∧
      ∀ key tx, s.blk.get[key]? = some tx → (prepareBlock env s).considers key →
        (prepareBlock env s).onFile (ppiBbank key) tx.buser
  | _ => True

/-- A run of operations that meet the conditions. -/
def LockRun (env : Env) : State → State → Prop :=
  Relation.ReflTransGen fun s s' => ∃ op, Operation.run env s op = some s' ∧ op.Sound env s

/-- A run without transactions of an account and without a creation of it. -/
def QuietRun (env : Env) (b : UInt16) (uid : UInt32) : State → State → Prop :=
  Relation.ReflTransGen fun s s' =>
    ∃ op, Operation.run env s op = some s' ∧ op.Sound env s ∧ ¬ op.touches env s b uid

/-- The block in `s` commits a request of the requester for the account, which has the key
of the requester. -/
def CommitsGet (env : Env) (s : State) (b : UInt16) (uid : UInt32) (abank : UInt16)
    (auser : UInt32) : Prop :=
  ∃ key tx, s.blk.get[key]? = some tx ∧ ppiAbank key = abank ∧ tx.auser = auser ∧
    ppiBbank key = b ∧ tx.buser = uid ∧ ((prepareBlock env s).record b uid).pkey = tx.pkey

/-- The lock of an account has a history. -/
structure LockHistory (env : Env) (s₀ s : State) (b : UInt16) (uid : UInt32) (u : User)
    (s₁ : State) : Prop where
  run : LockRun env s₀ s₁
  sound : Operation.Sound env s₁ .commitBlock
  commits : CommitsGet env s₁ b uid u.node u.user
  time : u.time = s₁.srvs.now
  quiet : QuietRun env b uid (commitBlock env s₁) s

/-- All locks have a history. -/
structure LocksKnown (env : Env) (s₀ s : State) : Prop where
  filed : s.Filed
  known : ∀ b uid, (s.record b uid).node ≠ 0 → ∃ s₁, LockHistory env s₀ s b uid (s.record b uid) s₁

/-- What an operation does to a lock that is there afterwards: it was there before, or the
operation commits a request. -/
def KeepsLock (env : Env) (s s' : State) (op : Operation) (b : UInt16) (uid : UInt32) : Prop :=
  (¬ op.touches env s b uid ∧ (s'.record b uid).node = (s.record b uid).node ∧
      (s'.record b uid).user = (s.record b uid).user ∧
      (s'.record b uid).time = (s.record b uid).time) ∨
    (op = .commitBlock ∧ CommitsGet env s b uid (s'.record b uid).node (s'.record b uid).user ∧
      (s'.record b uid).time = s.srvs.now)

/-- A message that touches an account leaves it without a lock. -/
theorem AccountTxs.unlocks {c : Ctx} {uid : UInt32} {u u' : User} {txs : List UserTxs}
    (h : AccountTxs c uid u txs u') :
    (u' = u ∧ ∀ t ∈ txs, ¬ t.touches uid) ∨ u'.node = 0 := by
  induction h with
  | nil => exact Or.inl ⟨rfl, by simp⟩
  | @snoc txs t u₁ u₂ _ hstep ih =>
      cases hstep with
      | idle hidle =>
          obtain ⟨heq, hrest⟩ | hzero := ih
          · refine Or.inl ⟨heq, fun t' ht' => ?_⟩
            rcases List.mem_append.mp ht' with ht' | ht'
            · exact hrest t' ht'
            · rwa [List.mem_singleton.mp ht']
          · exact Or.inr hzero
      | create => exact Or.inr rfl
      | send => exact Or.inr rfl
      | createSend => exact Or.inr rfl

section Steps

variable {env : Env} {s s' : State} {b : UInt16} {uid : UInt32}

theorem process_keepsLock {msg : Message} (hfiled : s.Filed)
    (h : Operation.run env s (.process msg) = some s') (hlock : (s'.record b uid).node ≠ 0) :
    KeepsLock env s s' (.process msg) b uid := by
  obtain ⟨-, -, hprocessed⟩ := process_spec hfiled h
  refine Or.inl ?_
  cases hprocessed b uid with
  | other heq hbank =>
      rw [heq]
      exact ⟨fun htouch => hbank htouch.1.symm, rfl, rfl, rfl⟩
  | accepted _ haccept hrun hcredit =>
      obtain ⟨heq, hidle⟩ | hzero := hrun.unlocks
      · rw [heq] at hcredit
        refine ⟨?_, hcredit.node, hcredit.user, hcredit.time⟩
        rintro ⟨-, htouch⟩
        rw [haccept] at htouch
        obtain ⟨t, ht, htouch⟩ := htouch
        exact hidle t ht htouch
      · exact absurd (hcredit.node.trans hzero) hlock
  | rejected _ hreject h =>
      obtain heq | ⟨mass, pkey, time, heq⟩ := h
      · rw [heq]
        refine ⟨?_, rfl, rfl, rfl⟩
        rintro ⟨-, htouch⟩
        rw [hreject] at htouch
        exact htouch heq
      · rw [heq] at hlock
        exact absurd rfl hlock

theorem Operation.Sound.onFile {op : Operation} (h : op.Sound env s) : op.OnFile env s := by
  cases op with
  | commitBlock => exact h.2
  | _ => exact trivial

theorem commitBlock_keepsLock (hsound : Operation.Sound env s .commitBlock)
    (hlock : ((commitBlock env s).record b uid).node ≠ 0) :
    KeepsLock env s (commitBlock env s) .commitBlock b uid := by
  have hfounds := prepareBlock_founds env s
  have hrun := hsound.onFile.withdrawals
  have hwrap := hsound.1
  rw [← hfounds.now] at hwrap
  have hcommits : ∀ key tx, (key, tx) ∈ s.blk.get.toList →
      Claimed (prepareBlock env s) (commitGets env (prepareBlock env s)) b uid key tx →
      CommitsGet env s b uid (ppiAbank key) tx.auser := fun key tx hmem hclaimed =>
    ⟨key, tx, Map.mem_toList.mp hmem, rfl, rfl, hclaimed.bank, hclaimed.user, hclaimed.admits.pkey⟩
  have htouch : ¬ Operation.touches env s b uid .commitBlock ↔
      (prepareBlock env s).record b uid = s.record b uid := not_not
  rw [KeepsLock, htouch]
  rw [commitBlock_record] at hlock ⊢
  have hrecord := hfounds.record b uid
  have hnow := hfounds.now
  have haccount := hrun.account hwrap b uid
  clear hrun hwrap hfounds htouch
  generalize commitGets env (prepareBlock env s) = q at *
  generalize prepareBlock env s = p at *
  obtain heq | ⟨key, tx, hmem, hclaimed⟩ := haccount
  · obtain hold | ⟨_, _, _, _, -, hnew⟩ := hrecord
    · rw [heq, hold]
      exact Or.inl ⟨rfl, rfl, rfl, rfl⟩
    · rw [heq, hnew] at hlock
      exact absurd rfl hlock
  · rw [hclaimed.locked.1, hclaimed.locked.2, hclaimed.time]
    exact Or.inr ⟨rfl, hcommits key tx hmem hclaimed, hnow⟩

theorem Credits.keepsLock (h : Credits s s') {op : Operation}
    (hidle : ¬ op.touches env s b uid) : KeepsLock env s s' op b uid := by
  have hrecord := h.record b uid.toNat
  exact Or.inl ⟨hidle, hrecord.node, hrecord.user, hrecord.time⟩

/-- What an operation does to a lock that is there afterwards. -/
theorem Operation.keepsLock {op : Operation} (hfiled : s.Filed) (hsound : op.Sound env s)
    (h : op.run env s = some s') (hlock : (s'.record b uid).node ≠ 0) :
    KeepsLock env s s' op b uid := by
  cases op with
  | process msg => exact process_keepsLock hfiled h hlock
  | commitBlock =>
      obtain rfl : Esc.commitBlock env s = s' := Option.some.inj h
      exact commitBlock_keepsLock hsound hlock
  | commitDividends => exact (commitDividends_credits h).keepsLock id
  | commitDeposit =>
      obtain rfl : Esc.commitDeposit env s = s' := Option.some.inj h
      exact (commitDeposit_credits env s).keepsLock id
  | commitBankfee => exact (commitBankfee_credits h).keepsLock id
  | nextBlock v =>
      obtain rfl : s.nextBlock env v = s' := Option.some.inj h
      have hrecord : (s.nextBlock env v).record b uid = s.record b uid := by
        rw [State.record, State.nextBlock_usr, State.record]
      rw [KeepsLock, hrecord]
      exact Or.inl ⟨id, rfl, rfl, rfl⟩

end Steps

/-- Along a run that meets the conditions all locks have a history. -/
theorem LocksKnown.of_run {env : Env} {s₀ s : State} (hfiled : s₀.Filed)
    (hfree : ∀ b uid, (s₀.record b uid).node = 0) (hrun : LockRun env s₀ s) :
    LocksKnown env s₀ s := by
  induction hrun with
  | refl => exact ⟨hfiled, fun b uid hlock => absurd (hfree b uid) hlock⟩
  | @tail s s' hrun hstep ih =>
      obtain ⟨op, hop, hsound⟩ := hstep
      refine ⟨(Operation.filed ih.filed hsound.onFile hop).2, fun b uid hlock => ?_⟩
      obtain ⟨hquiet, hnode, huser, htime⟩ | ⟨rfl, hcommits, htime⟩ :=
        Operation.keepsLock ih.filed hsound hop hlock
      · -- the lock was there before
        rw [hnode] at hlock
        obtain ⟨s₁, hhistory⟩ := ih.known b uid hlock
        refine ⟨s₁, hhistory.run, hhistory.sound, ?_, ?_,
          hhistory.quiet.tail ⟨op, hop, hsound, hquiet⟩⟩
        · rw [hnode, huser]
          exact hhistory.commits
        · rw [htime]
          exact hhistory.time
      · obtain rfl : commitBlock env s = s' := Option.some.inj hop
        exact ⟨s, hrun, hsound, hcommits, htime, .refl⟩

/-- The balance of an account changes in another way than by its dividend. -/
def FundsMoved (s s' : State) (b : UInt16) (uid : UInt32) : Prop :=
  (s'.record b uid).weight ≠ (s.record b uid).weight ∧
    (s'.record b uid).weight ≠ (dividend s.srvs (s.record b uid) 0).2.1.weight

/-- When the requests of a block move the funds of an account, one of them is from a
requester that has locked the account at least the lock time before, with the key of the
account both times. Since then there was no transaction of the account, and it was not
created again. -/
theorem fundsMoved_after_lock {env : Env} {s₀ s : State} (hfiled : s₀.Filed)
    (hfree : ∀ b uid, (s₀.record b uid).node = 0) (hrun : LockRun env s₀ s)
    (hsound : Operation.Sound env s .commitBlock) {b : UInt16} {uid : UInt32}
    (hmoved : FundsMoved (prepareBlock env s) (commitBlock env s) b uid) :
    ∃ abank auser s₁, CommitsGet env s b uid abank auser ∧
      (prepareBlock env s).record b uid = s.record b uid ∧
      LockRun env s₀ s₁ ∧ CommitsGet env s₁ b uid abank auser ∧
      s₁.srvs.now.toNat + lockTime.toNat ≤ s.srvs.now.toNat ∧
      QuietRun env b uid (commitBlock env s₁) s := by
  have hfounds := prepareBlock_founds env s
  have hwrap := hsound.1
  rw [← hfounds.now] at hwrap
  rw [FundsMoved, commitBlock_record] at hmoved
  obtain heq | ⟨key, tx, hmem, hclaimed⟩ := hsound.onFile.withdrawals.account hwrap b uid
  · exact absurd (congrArg User.weight heq) hmoved.1
  have hlocked := hclaimed.funds.resolve_left hmoved.2
  obtain hold | ⟨_, _, _, _, -, hnew⟩ := hfounds.record b uid
  · rw [hold] at hlocked
    have hadmits := hclaimed.admits
    rw [hold] at hadmits
    have hlock : (s.record b uid).node ≠ 0 := by
      rw [hlocked.1]
      exact hclaimed.considers.1
    obtain ⟨s₁, hhistory⟩ := (LocksKnown.of_run hfiled hfree hrun).known b uid hlock
    have hcommits := hhistory.commits
    rw [hlocked.1, hlocked.2] at hcommits
    refine ⟨ppiAbank key, tx.auser, s₁, ⟨key, tx, Map.mem_toList.mp hmem, rfl, rfl, hclaimed.bank,
      hclaimed.user, hclaimed.admits.pkey⟩, hold, hhistory.run, hcommits, ?_, hhistory.quiet⟩
    have htime := hadmits.time
    rw [hfounds.now, hhistory.time, UInt32.le_iff_toNat_le, UInt32.toNat_add,
      Nat.mod_eq_of_lt hhistory.sound.1] at htime
    exact htime
  · -- a new account is not locked
    rw [hnew] at hlocked
    exact absurd hlocked.1.symm hclaimed.considers.1

theorem LockRun.wait {env : Env} {s₀ s : State} (h : LockRun env s₀ s) (n : Nat) :
    LockRun env s₀ (s.wait env n) := by
  have hnext : ∀ {s₁ : State} (v : BlockStart), LockRun env s₀ s₁ →
      LockRun env s₀ (s₁.nextBlock env v) := fun v h₁ => h₁.tail ⟨.nextBlock v, rfl, trivial⟩
  induction n with
  | zero => exact s.nextBlock_nextBlock env ▸ hnext _ (hnext _ h)
  | succ n ih => exact s.nextBlock_wait env n ▸ hnext _ ih

theorem Operation.Sound.of_toList {env : Env} {s : State}
    (hwrap : s.srvs.now.toNat + lockTime.toNat < 2 ^ 32)
    (hfile : ∀ e ∈ s.blk.get.toList, (prepareBlock env s).onFile (ppiBbank e.1) e.2.buser) :
    Operation.Sound env s .commitBlock :=
  ⟨hwrap, fun key tx htx _ => hfile (key, tx) (Map.mem_toList.mpr htx)⟩

instance (s : State) (b : UInt16) (uid : UInt32) : Decidable (s.onFile b uid) :=
  inferInstanceAs (Decidable (_ < _))

instance (s s' : State) (b : UInt16) (uid : UInt32) : Decidable (FundsMoved s s' b uid) :=
  inferInstanceAs (Decidable (_ ∧ _))

namespace Sample

/-- The first account of bank 2, locked for the second account of bank 1. -/
def lockedTarget : User := { target 9 3000 with node := 1, user := 1 }

def lockedEnv : Env := { getEnv with junk := lockedTarget }

def lockedState : State := { getState with
  usr := Function.update getState.usr 2 (Table.ofList [lockedTarget, target 8 5000]) }

end Sample

namespace Sample

/-- The first account of bank 2 has funds for a year. -/
def claimState : State := { getState with
  usr := Function.update getState.usr 2 (Table.ofList [target 9 1000000000000, target 8 5000]) }

/-- The request of that account, made for the first or the second time. -/
def claimMessage (msid : UInt32) : Message where
  svid := 1
  msid := msid
  now := 0x60000000
  txs := [{ getTx 1 0 with amsid := msid }]
  bounded := by simp [getTx, UserTxs.size, txslen]

end Sample

/-- The first request is committed, and the second one is there when the lock time is
over. -/
theorem exists_claim :
    ∃ s, LockRun Sample.getEnv Sample.claimState s ∧
      Operation.Sound Sample.getEnv s .commitBlock ∧
      FundsMoved (prepareBlock Sample.getEnv s) (commitBlock Sample.getEnv s) 2 0 := by
  obtain ⟨s₁, rs₁, haccept₁, htest₁⟩ := Outcome.exists_of_accepts
    (o := processMessage Sample.getEnv Sample.claimState (Sample.claimMessage 1))
    (p := fun s₁ _ => decide (s₁.srvs.now.toNat + lockTime.toNat < 2 ^ 32 ∧
      (∀ e ∈ s₁.blk.get.toList,
        (prepareBlock Sample.getEnv s₁).onFile (ppiBbank e.1) e.2.buser) ∧
      (Sample.claimMessage 2).svid.toNat < (commitBlock Sample.getEnv s₁).srvs.nodes.size ∧
      (processMessage Sample.getEnv (commitBlock Sample.getEnv s₁) (Sample.claimMessage 2)).accepts
        (fun s₂ _ => let s := s₂.wait Sample.getEnv 2046
          decide (s.srvs.now.toNat + lockTime.toNat < 2 ^ 32 ∧
            (∀ e ∈ s.blk.get.toList,
              (prepareBlock Sample.getEnv s).onFile (ppiBbank e.1) e.2.buser) ∧
            FundsMoved (prepareBlock Sample.getEnv s) (commitBlock Sample.getEnv s) 2 0)) = true))
    (by decide +kernel)
  obtain ⟨hwrap₁, hfile₁, hsvid, haccepts⟩ := of_decide_eq_true htest₁
  obtain ⟨s₂, rs₂, haccept₂, htest₂⟩ := Outcome.exists_of_accepts haccepts
  obtain ⟨hwrap, hfile, hmoved⟩ := of_decide_eq_true htest₂
  have hfirst : Operation.run Sample.getEnv Sample.claimState
      (.process (Sample.claimMessage 1)) = some s₁ := by
    rw [Operation.run, if_pos (by decide), haccept₁]
  have hsecond : Operation.run Sample.getEnv (commitBlock Sample.getEnv s₁)
      (.process (Sample.claimMessage 2)) = some s₂ := by
    rw [Operation.run, if_pos hsvid, haccept₂]
  have hrun : LockRun Sample.getEnv Sample.claimState s₂ :=
    .tail (.tail (.single ⟨_, hfirst, trivial⟩) ⟨.commitBlock, rfl, .of_toList hwrap₁ hfile₁⟩)
      ⟨_, hsecond, trivial⟩
  exact ⟨_, hrun.wait 2046, .of_toList hwrap hfile, hmoved⟩

theorem filed_claimState : Sample.claimState.Filed := by
  intro b hb
  have hb : b.toNat < 3 := hb
  obtain rfl | rfl | rfl : b = 0 ∨ b = 1 ∨ b = 2 := by
    simp only [← UInt16.toNat_inj, UInt16.reduceToNat]
    omega
  all_goals decide

theorem free_claimState (b : UInt16) (uid : UInt32) :
    (Sample.claimState.record b uid).node = 0 := by
  have hfile : ∀ i, ((Sample.claimState.usr b).get i).node = 0 := by
    rw [Sample.claimState]
    dsimp only
    rw [Function.update_apply, Sample.getState]
    dsimp only
    split_ifs
    · exact Table.ofList_forall (p := fun u : User => u.node = 0) rfl (by decide)
    · exact Table.ofList_forall (p := fun u : User => u.node = 0) rfl (by decide)
    · exact fun _ => rfl
  exact hfile uid.toNat

theorem fundsMoved_after_lock_claim :
    ∃ s abank auser s₁, LockRun Sample.getEnv Sample.claimState s ∧
      CommitsGet Sample.getEnv s 2 0 abank auser ∧ LockRun Sample.getEnv Sample.claimState s₁ ∧
      CommitsGet Sample.getEnv s₁ 2 0 abank auser ∧
      s₁.srvs.now.toNat + lockTime.toNat ≤ s.srvs.now.toNat := by
  obtain ⟨s, hrun, hsound, hmoved⟩ := exists_claim
  obtain ⟨abank, auser, s₁, hcommits, -, hrun₁, hcommits₁, htime, -⟩ :=
    fundsMoved_after_lock filed_claimState free_claimState hrun hsound hmoved
  exact ⟨s, abank, auser, s₁, hrun, hcommits, hrun₁, hcommits₁, htime⟩

/-- The request for an account that does not exist is decided on the record that was read
before, and empties an account that nobody asked for. -/
theorem fundsMoved_without_request :
    ∃ s rs,
      processMessage Sample.lockedEnv Sample.lockedState (Sample.getMessage 2) = .accept s rs ∧
      (s.blk.get.toList.map fun e => (ppiBbank e.1, e.2.buser)) = [(2, 0), (2, 2)] ∧
      (s.record 2 1).node = 0 ∧
      FundsMoved (prepareBlock Sample.lockedEnv s) (commitBlock Sample.lockedEnv s) 2 1 ∧
      0 < (commitBlock Sample.lockedEnv s).deposit.val (markedKey 1 1) := by
  obtain ⟨s, rs, haccept, htest⟩ := Outcome.exists_of_accepts
    (o := processMessage Sample.lockedEnv Sample.lockedState (Sample.getMessage 2))
    (p := fun s _ => decide
      ((s.blk.get.toList.map fun e => (ppiBbank e.1, e.2.buser)) = [(2, 0), (2, 2)] ∧
      (s.record 2 1).node = 0 ∧
      FundsMoved (prepareBlock Sample.lockedEnv s) (commitBlock Sample.lockedEnv s) 2 1 ∧
      0 < (commitBlock Sample.lockedEnv s).deposit.val (markedKey 1 1))) (by decide +kernel)
  exact ⟨s, rs, haccept, of_decide_eq_true htest⟩

end Esc
