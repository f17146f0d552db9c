import Esc.Lib.HashChain
import Esc.Message.Wire
import Esc.Server.Operations

/-!
# Signed transactions and the hash of an account

A transaction is signed for the hash of its account, and every transaction of the account
changes the hash: it is the digest of the old hash and the signature. So the hashes of an
account are a hash chain. The creation of an account starts the chain again, with the
message hash of node 0 and the key of the account and with nothing that says which
creation it is.
-/

namespace Esc

open Lib

/-- What happens to an account. A transaction is accepted in the state of the account that
the hash stands for. -/
inductive AccountEvent where
  | created (msha pkey : Hash)
  | sent (hash : Hash) (t : UserTxs)
deriving DecidableEq

/-- What `init_user_hash` hashes: the fields `node`, `user` and once more `user` are zero. -/
def seedBytes (seed : Hash × Hash) : List UInt8 :=
  hashBytes seed.1 ++ (bytesLE 2 0 ++ bytesLE 4 0 ++ bytesLE 4 0) ++ hashBytes seed.2

/-- What the hash of the next transaction is made from. -/
def linkBytes (hash sigh : Hash) : List UInt8 := hashBytes hash ++ hashBytes sigh

/-- The hashes of an account are a hash chain. -/
def accountChain : ChainFormat (Hash × Hash) Hash (List UInt8) Hash where
  seed := seedBytes
  link := linkBytes
  seed_inj seed seed' h := by
    obtain ⟨hfront, hpkey⟩ := List.append_inj' h (by simp)
    obtain ⟨hmsha, -⟩ := List.append_inj' hfront rfl
    exact Prod.ext (hashBytes_inj hmsha) (hashBytes_inj hpkey)
  link_inj h := hashBytes_inj (List.append_inj' h (by simp)).1
  seed_ne_link seed hash sigh h := by
    have hlength := congrArg List.length h
    simp [seedBytes, linkBytes, bytesLE] at hlength

/-- The string that is hashed for an event. -/
def AccountEvent.input (env : Env) : AccountEvent → List UInt8
  | created msha pkey => seedBytes (msha, pkey)
  | sent hash t => linkBytes hash (env.sha256 (bytesLE 64 t.sig.toNat))

def AccountEvent.seed? : AccountEvent → Option (Hash × Hash)
  | created msha pkey => some (msha, pkey)
  | sent _ _ => none

def AccountEvent.sentIn? : AccountEvent → Option Hash
  | created _ _ => none
  | sent hash _ => some hash

/-- The hash of an account after events, when it was `hash` before. -/
def lastHash (env : Env) (hash : Hash) (es : List AccountEvent) : Hash :=
  match es.getLast? with
  | none => hash
  | some e => env.sha256 (e.input env)

instance (t : UserTxs) (uid : UInt32) : Decidable (t.sentBy uid) :=
  inferInstanceAs (Decidable (_ ∧ _))

/-- The events of an account in a transaction. -/
def UserTxs.events (c : Ctx) (uid : UInt32) (hash : Hash) (t : UserTxs) : List AccountEvent :=
  let es := if t.created = some uid then [.created (c.s.srvs.node 0).msha t.newKey] else []
  if t.sentBy uid then es ++ [.sent (lastHash c.env hash es) t] else es

/-- The events of an account in the transactions of a message. -/
def txsEvents (c : Ctx) (uid : UInt32) (hash : Hash) (txs : List UserTxs) : List AccountEvent :=
  txs.foldl (fun es t => es ++ t.events c uid (lastHash c.env hash es)) []

/-- Outside of accepted messages an account changes its owner by a creation only. -/
def foundEvents (s s' : State) (b : UInt16) (uid : UInt32) : List AccountEvent :=
  if s'.record b uid = s.record b uid then []
  else [.created (s.srvs.node 0).msha (s'.record b uid).pkey]

/-- The events of an account in an operation. -/
def Operation.events (env : Env) (s : State) (b : UInt16) (uid : UInt32) :
    Operation → List AccountEvent
  | process msg =>
      if msg.svid = b then
        match processMessage env s msg with
        | .accept _ _ => txsEvents ⟨env, s, msg⟩ uid (s.record b uid).hash msg.txs
        | .reject s' => foundEvents s s' b uid
        | .exit => []
      else []
  | commitBlock => foundEvents s (prepareBlock env s) b uid
  | _ => []

/-- The life of an account in runs whose withdrawals name accounts on file. It starts in a
state in which the account is new, or with an operation that creates it. -/
inductive Life (env : Env) (b : UInt16) (uid : UInt32) : List AccountEvent → State → Prop where
  | start {s : State} {msha pkey : Hash} (hfiled : s.Filed) (hnodes : 0 < s.srvs.nodes.size)
      (hhash : (s.record b uid).hash = (initUser env.sha256 msha b uid 0 pkey 0).hash) :
      Life env b uid [.created msha pkey] s
  | create {s s' : State} {op : Operation} {msha pkey : Hash} {es : List AccountEvent}
      (hfiled : s.Filed) (hnodes : 0 < s.srvs.nodes.size) (honFile : op.OnFile env s)
      (hrun : op.run env s = some s')
      (hevents : op.events env s b uid = .created msha pkey :: es) :
      Life env b uid (.created msha pkey :: es) s'
  | step {s s' : State} {op : Operation} {es : List AccountEvent} (h : Life env b uid es s)
      (honFile : op.OnFile env s) (hrun : op.run env s = some s') :
      Life env b uid (es ++ op.events env s b uid) s'

/-- Events that take the hash of an account from one value to another. -/
inductive HashRun (env : Env) (hash : Hash) : List AccountEvent → Hash → Prop where
  | nil : HashRun env hash [] hash
  | created {es : List AccountEvent} {hash₁ : Hash} (h : HashRun env hash es hash₁)
      (msha pkey : Hash) :
      HashRun env hash (es ++ [.created msha pkey]) (env.sha256 (seedBytes (msha, pkey)))
  | sent {es : List AccountEvent} {hash₁ : Hash} (h : HashRun env hash es hash₁) (t : UserTxs) :
      HashRun env hash (es ++ [.sent hash₁ t])
        (env.sha256 (linkBytes hash₁ (env.sha256 (bytesLE 64 t.sig.toNat))))

/-- The events are a hash chain that ends with `hash`. -/
def Traced (env : Env) (es : List AccountEvent) (hash : Hash) : Prop :=
  HashChain accountChain env.sha256 (es.filterMap AccountEvent.seed?)
    (es.filterMap AccountEvent.sentIn?) (es.map (AccountEvent.input env)) hash

section Trace

variable {env : Env} {hash hash₁ hash₂ : Hash} {es es' : List AccountEvent}

theorem Traced.start (msha pkey : Hash) :
    Traced env [.created msha pkey] (env.sha256 (seedBytes (msha, pkey))) :=
  HashChain.start (F := accountChain) (msha, pkey)

theorem Traced.created (h : Traced env es hash) (msha pkey : Hash) :
    Traced env (es ++ [.created msha pkey]) (env.sha256 (seedBytes (msha, pkey))) := by
  rw [Traced, List.filterMap_append, List.filterMap_append, List.map_append]
  show HashChain accountChain env.sha256 _ (_ ++ []) _ _
  rw [List.append_nil]
  exact HashChain.restart (msha, pkey) h

theorem Traced.sent (h : Traced env es hash) (t : UserTxs) :
    Traced env (es ++ [.sent hash t])
      (env.sha256 (linkBytes hash (env.sha256 (bytesLE 64 t.sig.toNat)))) := by
  rw [Traced, List.filterMap_append, List.filterMap_append, List.map_append]
  show HashChain accountChain env.sha256 (_ ++ []) _ _ _
  rw [List.append_nil]
  exact HashChain.link (env.sha256 (bytesLE 64 t.sig.toNat)) h

/-- A chain goes on with the events of the next operation. -/
theorem Traced.append (h : Traced env es hash) (hrun : HashRun env hash es' hash₁) :
    Traced env (es ++ es') hash₁ := by
  induction hrun with
  | nil => rwa [List.append_nil]
  | created _ msha pkey ih =>
      rw [← List.append_assoc]
      exact ih.created msha pkey
  | sent _ t ih =>
      rw [← List.append_assoc]
      exact ih.sent t

/-- Events that begin with a creation are a chain, whatever the hash was before. -/
theorem HashRun.traced (h : HashRun env hash es hash₁) {msha pkey : Hash}
    (hhead : es.head? = some (.created msha pkey)) : Traced env es hash₁ := by
  induction h with
  | nil => cases hhead
  | @created es hash₁ h msha' pkey' ih =>
      cases es with
      | nil => exact .start msha' pkey'
      | cons e es => exact (ih hhead).created msha' pkey'
  | @sent es hash₁ h t ih =>
      cases es with
      | nil => cases hhead
      | cons e es => exact (ih hhead).sent t

theorem HashRun.lastHash (h : HashRun env hash es hash₁) : lastHash env hash es = hash₁ := by
  cases h with
  | nil => rfl
  | created => simp [Esc.lastHash, AccountEvent.input]
  | sent => simp [Esc.lastHash, AccountEvent.input]

theorem HashRun.append (h : HashRun env hash es hash₁) (h' : HashRun env hash₁ es' hash₂) :
    HashRun env hash (es ++ es') hash₂ := by
  induction h' with
  | nil => rwa [List.append_nil]
  | created _ msha pkey ih =>
      rw [← List.append_assoc]
      exact ih.created msha pkey
  | sent _ t ih =>
      rw [← List.append_assoc]
      exact ih.sent t

end Trace

section Steps

variable {env : Env} {s s' : State} {b : UInt16} {uid : UInt32}

theorem AccountTx.hashRun {c : Ctx} {t : UserTxs} {u u' : User} (h : AccountTx c uid t u u') :
    HashRun c.env u.hash (t.events c uid u.hash) u'.hash := by
  cases h with
  | idle h =>
      rw [UserTxs.touches, not_or] at h
      rw [UserTxs.events, if_neg h.1, if_neg h.2]
      exact .nil
  | create hcreated hsent =>
      rw [UserTxs.events, if_pos hcreated, if_neg hsent]
      exact .created .nil _ _
  | send hcreated hsent _ hpaid =>
      rw [UserTxs.events, if_neg hcreated, if_pos hsent, settleUser, hpaid.hash]
      exact .sent .nil t
  | createSend hcreated hsent _ hpaid =>
      rw [UserTxs.events, if_pos hcreated, if_pos hsent, settleUser, hpaid.hash]
      exact .sent (.created .nil _ _) t

theorem AccountTxs.hashRun {c : Ctx} {txs : List UserTxs} {u u' : User}
    (h : AccountTxs c uid u txs u') :
    HashRun c.env u.hash (txsEvents c uid u.hash txs) u'.hash := by
  induction h with
  | nil => exact .nil
  | @snoc txs t u₁ u₂ _ hstep ih =>
      rw [txsEvents, List.foldl_append]
      refine ih.append ?_
      rw [← txsEvents, ih.lastHash]
      exact hstep.hashRun

/-- An account that is as it was, or new. -/
theorem hashRun_foundEvents (h : s'.record b uid = s.record b uid ∨ ∃ mass pkey time,
      s'.record b uid = initUser env.sha256 (s.srvs.node 0).msha b uid mass pkey time) :
    HashRun env (s.record b uid).hash (foundEvents s s' b uid) (s'.record b uid).hash := by
  rw [foundEvents]
  split
  · rename_i heq
    rw [heq]
    exact .nil
  · rename_i hne
    obtain heq | ⟨mass, pkey, time, heq⟩ := h
    · exact absurd heq hne
    · rw [heq]
      exact .created .nil _ _

theorem process_hashRun {msg : Message} (hfiled : s.Filed)
    (h : Operation.run env s (.process msg) = some s') :
    HashRun env (s.record b uid).hash (Operation.events env s b uid (.process msg))
      (s'.record b uid).hash := by
  obtain ⟨-, -, hprocessed⟩ := process_spec hfiled h
  rw [Operation.events]
  cases hprocessed b uid with
  | other heq hbank =>
      rw [if_neg (Ne.symm hbank), heq]
      exact .nil
  | accepted hbank haccept hrun hcredit =>
      rw [if_pos hbank.symm, haccept, hcredit.hash]
      exact hrun.hashRun
  | rejected hbank hreject hfound =>
      rw [if_pos hbank.symm, hreject]
      subst hbank
      exact hashRun_foundEvents hfound

theorem Posting.hash {b' : UInt16} {uid' : UInt32} {amount : Int64} {u : User}
    (h : Posting env s s' b' uid' amount u) (hu : u.hash = (s.record b' uid').hash) :
    (s'.record b uid).hash = (s.record b uid).hash := by
  by_cases hat : b = b' ∧ uid = uid'
  · obtain ⟨rfl, rfl⟩ := hat
    rw [h.record_self, hu]
  · exact congrArg User.hash (h.record_ne fun hi => hat ⟨hi.1, UInt32.toNat_inj.mp hi.2⟩)

theorem Withdrawal.hash {key : UInt64} {tx : Get} (h : Withdrawal env s s' key tx) :
    (s'.record b uid).hash = (s.record b uid).hash := by
  cases h with
  | refused _ h => rw [h.record]
  | lock _ _ _ h => exact h.hash (Credited.dividend ..).hash
  | empty _ _ _ h => exact h.hash (Credited.dividend ..).hash

theorem Withdrawals.hash {gets : List (UInt64 × Get)} (h : Withdrawals env s gets s') :
    (s'.record b uid).hash = (s.record b uid).hash := by
  induction h with
  | nil h => rw [h.record]
  | snoc _ hstep ih => rw [hstep.hash, ih]

theorem commitBlock_hashRun (hnodes : 0 < s.srvs.nodes.size)
    (honFile : Operation.OnFile env s .commitBlock) :
    HashRun env (s.record b uid).hash (Operation.events env s b uid .commitBlock)
      ((commitBlock env s).record b uid).hash := by
  rw [commitBlock_record, honFile.withdrawals.hash]
  refine hashRun_foundEvents ?_
  obtain heq | ⟨msha, mass, pkey, time, hmsha, heq⟩ := (prepareBlock_founds env s).record b uid
  · exact Or.inl heq
  · rw [hmsha hnodes] at heq
    exact Or.inr ⟨mass, pkey, time, heq⟩

/-- The hash of an account follows its events through every operation. -/
theorem Operation.hashRun {op : Operation} (hfiled : s.Filed) (hnodes : 0 < s.srvs.nodes.size)
    (honFile : op.OnFile env s) (h : op.run env s = some s') :
    HashRun env (s.record b uid).hash (op.events env s b uid) (s'.record b uid).hash := by
  have hcredits : Credits s s' → HashRun env (s.record b uid).hash [] (s'.record b uid).hash := by
    intro hcredits
    have heq : (s'.record b uid).hash = (s.record b uid).hash := (hcredits.record b uid.toNat).hash
    rw [heq]
    exact .nil
  cases op with
  | process msg => exact process_hashRun hfiled h
  | commitBlock =>
      obtain rfl : Esc.commitBlock env s = s' := Option.some.inj h
      exact commitBlock_hashRun hnodes honFile
  | commitDividends => exact hcredits (commitDividends_credits h)
  | commitDeposit =>
      obtain rfl : Esc.commitDeposit env s = s' := Option.some.inj h
      exact hcredits (commitDeposit_credits env s)
  | commitBankfee => exact hcredits (commitBankfee_credits h)
  | nextBlock v =>
      obtain rfl : s.nextBlock env v = s' := Option.some.inj h
      have hrecord : (s.nextBlock env v).record b uid = s.record b uid := by
        rw [State.record, State.nextBlock_usr, State.record]
      rw [hrecord]
      exact .nil

end Steps

/-- The hashes of an account are a hash chain through its life. -/
theorem Life.traced {env : Env} {b : UInt16} {uid : UInt32} {es : List AccountEvent} {s : State}
    (h : Life env b uid es s) :
    s.Filed ∧ 0 < s.srvs.nodes.size ∧ Traced env es (s.record b uid).hash := by
  induction h with
  | @start s msha pkey hfiled hnodes hhash =>
      rw [hhash]
      exact ⟨hfiled, hnodes, .start msha pkey⟩
  | @create s s' op msha pkey es hfiled hnodes honFile hrun hevents =>
      obtain ⟨hsize, hfiled'⟩ := op.filed hfiled honFile hrun
      have htrace := @Operation.hashRun env s s' b uid op hfiled hnodes honFile hrun
      rw [hevents] at htrace
      exact ⟨hfiled', hnodes.trans_le hsize, htrace.traced rfl⟩
  | @step s s' op es _ honFile hrun ih =>
      obtain ⟨hfiled, hnodes, htrace⟩ := ih
      obtain ⟨hsize, hfiled'⟩ := op.filed hfiled honFile hrun
      exact ⟨hfiled', hnodes.trans_le hsize,
        htrace.append (Operation.hashRun hfiled hnodes honFile hrun)⟩

/-- In a life in which no two creations have the same message hash of node 0 and the same
key, every signed transaction is accepted at most once, when SHA-256 has no collision
among the strings that were hashed. There is not even a second transaction for the same
hash of the account. -/
theorem Life.accepted_once {env : Env} {b : UInt16} {uid : UInt32} {es : List AccountEvent}
    {s : State} (h : Life env b uid es s)
    (hfree : Set.InjOn env.sha256 {x | x ∈ es.map (AccountEvent.input env)})
    (hseeds : (es.filterMap AccountEvent.seed?).Nodup) :
    (es.filterMap AccountEvent.sentIn?).Nodup ∧ ∀ hash t, es.count (.sent hash t) ≤ 1 := by
  have hnodup : (es.filterMap AccountEvent.sentIn?).Nodup :=
    h.traced.2.2.nodup_linked hseeds hfree
  refine ⟨hnodup, fun hash t => ?_⟩
  by_contra hcount
  have htwice := (List.replicate_sublist_iff.mpr (not_le.mp hcount)).filterMap AccountEvent.sentIn?
  exact absurd (hnodup.sublist htwice) (by simp [AccountEvent.sentIn?])

/-- One operation of a run that also collects the events. -/
def lifeStep (env : Env) (b : UInt16) (uid : UInt32) (acc : State × List AccountEvent)
    (op : Operation) : Option (State × List AccountEvent) :=
  (op.run env acc.1).map fun s => (s, acc.2 ++ op.events env acc.1 b uid)

theorem Life.foldlM {env : Env} {b : UInt16} {uid : UInt32} {acc acc' : State × List AccountEvent}
    {ops : List Operation} (h : Life env b uid acc.2 acc.1)
    (honFile : ∀ op ∈ ops, ∀ s, op.OnFile env s)
    (hrun : ops.foldlM (lifeStep env b uid) acc = some acc') : Life env b uid acc'.2 acc'.1 := by
  refine foldlM_option_invariant (fun acc => Life env b uid acc.2 acc.1) h ?_ hrun
  intro op hop acc acc' h hstep
  obtain ⟨s, hs, rfl⟩ := Option.map_eq_some_iff.mp hstep
  exact .step h (honFile op hop _) hs

theorem Life.wait {env : Env} {b : UInt16} {uid : UInt32} {es : List AccountEvent} {s : State}
    (h : Life env b uid es s) (n : Nat) : Life env b uid es (s.wait env n) := by
  have hnext : ∀ {s₁ : State} (v : BlockStart), Life env b uid es s₁ →
      Life env b uid es (s₁.nextBlock env v) := by
    intro s₁ v h₁
    have hstep := @Life.step env b uid s₁ _ (.nextBlock v) es h₁ trivial rfl
    have hnone : Operation.events env s₁ b uid (.nextBlock v) = [] := rfl
    rwa [hnone, List.append_nil] at hstep
  induction n with
  | zero => exact s.nextBlock_nextBlock env ▸ hnext _ (hnext _ h)
  | succ n ih => exact s.nextBlock_wait env n ▸ hnext _ ih

namespace Sample

/-- A hash function without collisions among the strings of the run. -/
def digest (bs : List UInt8) : Hash :=
  BitVec.ofNat 256
    (bs.foldl (fun acc x => (acc * 0x100000000000000000000000000000193 + x.toNat + 1) % 2 ^ 256) 7)

/-- An account that has just been created. -/
def newAccount (weight : Int64) : User := initUser digest 0 1 1 weight 9 0x60000000

/-- The transfer that its owner signs. -/
def signedTx : UserTxs where
  ttype := .put
  abank := 1
  auser := 1
  amsid := 1
  ttime := 0x60000000
  bbank := 1
  buser := 0
  tmass := 1000000
  sig := 11

/-- Another account creates it again with the same key, and pays to it. -/
def createTx : UserTxs where
  ttype := .usr
  abank := 1
  auser := 0
  amsid := 1
  ttime := 0x60000000
  bbank := signedTx.abank
  nuser := signedTx.auser
  npkey := 9
  sig := 12

def fundTx : UserTxs where
  ttype := .put
  abank := 1
  auser := 0
  amsid := 2
  ttime := 0x60000000
  bbank := 1
  buser := 1
  tmass := 50000000
  sig := 13

def signedMessage (msid now : UInt32) : Message where
  svid := 1
  msid := msid
  now := now
  txs := [signedTx]
  bounded := by simp [signedTx, UserTxs.size, txslen]

def createMessage : Message where
  svid := 1
  msid := 2
  now := 0x604FFE00
  txs := [createTx, fundTx]
  bounded := by simp [createTx, fundTx, UserTxs.size, txslen]

/-- The owner has signed one transaction, for the hash of the new account. -/
def replayEnv : Env where
  svid := 2
  sha256 := digest
  signOpenBatch2 items := items.all fun i =>
    decide (i.txs = signedTx → i.hash = (newAccount 0).hash ∧ i.pkey = 9)
  findKey key := some key
  junk := {}

def replayState : State where
  srvs := { now := 0x60000000, nodes := Table.ofList [{}, { users := 2 }, {}] }
  last := { now := 0x5FFFFE00, nodes := Table.ofList [{}, { users := 2 }, {}] }
  usr b :=
    if b = 1 then Table.ofList [{ newAccount 1000000000000 with pkey := 7 }, newAccount 21500000]
    else Table.empty

/-- The life of the account up to its first transaction. -/
def firstLife : Option (State × List AccountEvent) :=
  [Operation.process (signedMessage 1 0x60000000)].foldlM (lifeStep replayEnv 1 1)
    (replayState, [.created 0 9])

/-- The account is deleted 10239 blocks later and created again, and the transaction comes
back. -/
def secondLife (r : State × List AccountEvent) : Option (State × List AccountEvent) :=
  [Operation.commitDividends, .process createMessage,
    .process (signedMessage 3 0x604FFE00)].foldlM (lifeStep replayEnv 1 1)
    (r.1.wait replayEnv 10237, r.2)

end Sample

theorem filed_replayState : Sample.replayState.Filed := by
  intro b hb
  have hb : b.toNat < 3 := hb
  obtain rfl | rfl | rfl : b = 0 ∨ b = 1 ∨ b = 2 := by
    simp only [← UInt16.toNat_inj, UInt16.reduceToNat]
    omega
  all_goals decide +kernel

theorem life_firstLife {r : State × List AccountEvent} (h : Sample.firstLife = some r) :
    Life Sample.replayEnv 1 1 r.2 r.1 := by
  refine Life.foldlM (.start filed_replayState (by decide) rfl) ?_ h
  intro op hop s
  rw [List.mem_singleton.mp hop]
  trivial

theorem life_secondLife {r r' : State × List AccountEvent}
    (hlife : Life Sample.replayEnv 1 1 r.2 r.1)
    (h : Sample.secondLife r = some r') : Life Sample.replayEnv 1 1 r'.2 r'.1 := by
  rw [Sample.secondLife] at h
  refine @Life.foldlM _ 1 1 (r.1.wait Sample.replayEnv 10237, r.2) r' _ (hlife.wait 10237) ?_ h
  intro op hop s
  fin_cases hop <;> trivial

/-- No two inputs of the events collide. -/
def CollisionFree (env : Env) (es : List AccountEvent) : Prop :=
  ∀ x ∈ es.map (AccountEvent.input env), ∀ y ∈ es.map (AccountEvent.input env),
    env.sha256 x = env.sha256 y → x = y

instance (env : Env) (es : List AccountEvent) : Decidable (CollisionFree env es) :=
  inferInstanceAs (Decidable (∀ x ∈ es.map (AccountEvent.input env),
    ∀ y ∈ es.map (AccountEvent.input env), env.sha256 x = env.sha256 y → x = y))

theorem Life.accepted_once_first :
    ∃ es s, Life Sample.replayEnv 1 1 es s ∧
      .sent (Sample.newAccount 0).hash Sample.signedTx ∈ es ∧
      es.count (.sent (Sample.newAccount 0).hash Sample.signedTx) ≤ 1 := by
  have heval : Sample.firstLife.any (fun r => decide (CollisionFree Sample.replayEnv r.2 ∧
      (r.2.filterMap AccountEvent.seed?).Nodup ∧
      .sent (Sample.newAccount 0).hash Sample.signedTx ∈ r.2)) = true := by
    decide +kernel
  obtain ⟨⟨s, es⟩, hlife, htest⟩ := (Option.any_eq_true _ _).mp heval
  obtain ⟨hfree, hseeds, hmem⟩ := of_decide_eq_true htest
  exact ⟨es, s, life_firstLife hlife, hmem,
    ((life_firstLife hlife).accepted_once (fun x hx y hy => hfree x hx y hy) hseeds).2 _ _⟩

/-- A deleted account is created again with its old key, and a transaction that was
accepted before is accepted once more. -/
theorem Life.accepted_twice :
    ∃ es s, Life Sample.replayEnv 1 1 es s ∧
      Set.InjOn Sample.replayEnv.sha256 {x | x ∈ es.map (AccountEvent.input Sample.replayEnv)} ∧
      es.count (.sent (Sample.newAccount 0).hash Sample.signedTx) = 2 := by
  have heval : Sample.firstLife.any (fun r => (Sample.secondLife r).any fun r' =>
      decide (CollisionFree Sample.replayEnv r'.2 ∧
        r'.2.count (.sent (Sample.newAccount 0).hash Sample.signedTx) = 2)) = true := by
    decide +kernel
  obtain ⟨r, hfirst, heval⟩ := (Option.any_eq_true _ _).mp heval
  obtain ⟨⟨s, es⟩, hsecond, htest⟩ := (Option.any_eq_true _ _).mp heval
  obtain ⟨hfree, hcount⟩ := of_decide_eq_true htest
  exact ⟨es, s, life_secondLife (life_firstLife hfirst) hsecond,
    fun x hx y hy => hfree x hx y hy, hcount⟩

end Esc
