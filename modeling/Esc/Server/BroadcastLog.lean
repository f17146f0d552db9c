import Esc.Server.EffectSpec
import Esc.Server.NodeKey
import Esc.Server.UndoMessage

/-!
# The broadcast log of a block

`process_message` appends a broadcast to the log of the block as soon as it reaches
the transaction. Nothing takes an entry out of the log again: not the rejection of
the message later in the loop, and not `undo_message`.

The run of a block keeps the messages that are in the block at present. The log is
then the broadcasts of these messages together with those of every message that was
undone, as long as no rejected message has a broadcast.
-/

namespace Esc

open Lib

variable {env : Env} {s s' : State} {msg : Message}

/-- What tells a logged broadcast from others: the transaction, the number of its message
and its position there. The node of the message stands in the transaction. -/
def Broadcast.entry (b : Broadcast) : UserTxs × UInt32 × UInt32 := (b.txs, b.msid, b.mpos)

/-- The broadcasts among transactions that follow position `pos`. -/
def broadcastsFrom (msid : UInt32) : UInt32 → List UserTxs → List (UserTxs × UInt32 × UInt32)
  | _, [] => []
  | pos, t :: txs =>
      (if t.ttype = .bro then [(t, msid, pos + 1)] else []) ++ broadcastsFrom msid (pos + 1) txs

/-- The broadcasts of a message. -/
def Message.broadcasts (msg : Message) : List (UserTxs × UInt32 × UInt32) :=
  broadcastsFrom msg.msid 0 msg.txs

/-- The broadcast log of a block. -/
def State.broadcastLog (s : State) (path : UInt32) : List (UserTxs × UInt32 × UInt32) :=
  (s.bro.filter fun b => b.path = path).map Broadcast.entry

theorem broadcastsFrom_eq_nil {msid pos : UInt32} {txs : List UserTxs}
    (h : broadcastsFrom msid pos txs = []) : ∀ t ∈ txs, t.ttype ≠ .bro := by
  induction txs generalizing pos with
  | nil => simp
  | cons t txs ih =>
      obtain ⟨hhead, htail⟩ := List.append_eq_nil_iff.mp h
      intro t' ht'
      obtain rfl | ht' := List.mem_cons.mp ht'
      · intro hbro
        rw [if_pos hbro] at hhead
        cases hhead
      · exact ih htail t' ht'

section Loop

variable {c : Ctx} {L L' : Loop} {t : UserTxs} {u : User} {cost : Cost} {bro : List Broadcast}

theorem Loop.credit_bro (L : Loop) (abank bank : UInt16) (user : UInt32) (mass : Int64) :
    (L.credit abank bank user mass).bro = L.bro := by
  unfold Loop.credit
  split <;> rfl

theorem Loop.fetch_bro (L : Loop) (uid : UInt32) : (L.fetch uid).bro = L.bro := by
  rw [L.fetch_eq uid]

theorem Loop.sender_bro (c : Ctx) (L : Loop) (t : UserTxs) : (L.sender c t).bro = L.bro := by
  rw [L.sender_eq c t]

/-- The loop state at the end of a computation has the log `bro`. -/
abbrev KeepsLog (bro : List Broadcast) (x : Except Loop Loop) : Prop :=
  Both (fun L => L.bro = bro) (fun L => L.bro = bro) x

theorem mptTx_log (h : L.bro = bro) :
    Both (fun L => L.bro = bro) (fun r => r.1.bro = bro) (mptTx c L t) := by
  have hfold : Both (fun L => L.bro = bro) (fun m : Mpt => m.loop.bro = bro)
      (t.toaddresses.foldlM (mptStep c t.abank) { loop := L }) := by
    refine Both.foldlM h fun a _ m hm => ?_
    unfold mptStep
    split
    · exact hm
    split
    · exact hm
    split
    · exact hm
    · exact (m.loop.credit_bro ..).trans hm
  exact hfold.bind fun m hm => hm

/-- Only a broadcast writes to the log. -/
theorem effect_log (hbro : t.ttype ≠ .bro) (h : L.bro = bro) :
    Both (fun L => L.bro = bro) (fun r => r.1.bro = bro) (effect c L t u) := by
  cases hty : t.ttype <;> simp only [effect, hty]
  case bro => exact absurd hty hbro
  case put =>
    unfold putTx
    split_ifs
    · exact (L.credit_bro ..).trans h
    · exact h
  case mpt => exact mptTx_log h
  case bky =>
    simp only [bkyTx]
    split_ifs <;> exact h
  case sbs | ubs =>
    simp only [sbsTx, ubsTx, statusTx]
    split_ifs <;> exact h
  case sus | uus =>
    simp only [susTx, uusTx, bitsTx]
    split_ifs <;> exact h
  case usr =>
    unfold usrTx
    split_ifs <;> exact h
  case get | sav =>
    split_ifs <;> exact h
  case non | con | uok | bnk | key | inf => exact h

theorem lockedEffect_log (hbro : t.ttype ≠ .bro) (h : L.bro = bro) :
    Both (fun L => L.bro = bro) (fun r => r.1.bro = bro) (lockedEffect c L t u) := by
  unfold lockedEffect
  split_ifs
  · exact h
  · exact h
  · exact effect_log hbro h

theorem settle_log (h : L.bro = bro) : KeepsLog bro (settle c L t cost) := by
  unfold settle
  dsimp only
  split_ifs <;> exact h

theorem senderTx_log (hbro : t.ttype ≠ .bro) (h : L.bro = bro) : KeepsLog bro (senderTx c L t) := by
  have hsender : (L.sender c t).bro = bro := (L.sender_bro c t).trans h
  unfold senderTx
  dsimp only
  split_ifs
  · exact h
  · exact hsender
  · exact (lockedEffect_log hbro hsender).bind fun r hr => settle_log hr

theorem createAccount_log {nuser : UInt32} {mass : Int64} {pkey : Hash} {time : UInt32}
    (h : L.bro = bro) : KeepsLog bro (createAccount c L nuser mass pkey time) := by
  have hfetch : (L.fetch nuser).bro = bro := (L.fetch_bro nuser).trans h
  unfold createAccount
  dsimp only
  split_ifs
  · exact h
  · exact hfetch
  · exact hfetch
  · exact h

theorem processTx_log (hbro : t.ttype ≠ .bro) (h : L.bro = bro) :
    KeepsLog bro (processTx c L t) := by
  unfold processTx
  dsimp only
  split
  · exact h
  · exact h
  · exact h
  · split_ifs
    · exact h
    · exact h
    · exact Both.bind (createAccount_log (by exact h)) fun L₁ h₁ => by exact h₁
    · exact Both.bind (createAccount_log (by exact h)) fun L₁ h₁ => senderTx_log hbro h₁
    · exact senderTx_log hbro h

/-- A broadcast that the loop accepts is logged. -/
theorem processTx_bro (hbro : t.ttype = .bro) (h : processTx c L t = .ok L') :
    ∃ b : Broadcast, L'.bro = L.bro ++ [b] ∧ b.path = c.s.srvs.now ∧
      b.entry = (t, c.msg.msid, L.tmpos + 1) := by
  obtain ⟨hty, -⟩ | ⟨hty, -⟩ | ⟨hty, -⟩ | ⟨hty, -⟩ | ⟨-, -, hsender⟩ := processTx_cases h
  case inr.inr.inr.inr =>
    obtain ⟨L₂, cost, -, -, heffect, -, -, -, rfl⟩ := senderTx_ok hsender
    obtain ⟨hunlocks, -⟩ | heffect := lockedEffect_cases heffect
    · simp [unlocks, hbro] at hunlocks
    · simp only [effect, hbro] at heffect
      split at heffect
      · cases heffect
      · cases heffect
        refine ⟨_, congrArg (· ++ _) (Loop.sender_bro ..), rfl, ?_⟩
        rw [Loop.sender_eq]
        rfl
  all_goals
    rw [hbro] at hty
    cases hty

/-- What the loop over the transactions of a message has logged at its end. -/
theorem foldlM_processTx_log {txs : List UserTxs} (h : txs.foldlM (processTx c) L = .ok L') :
    ∃ new : List Broadcast, L'.bro = L.bro ++ new ∧ (∀ b ∈ new, b.path = c.s.srvs.now) ∧
      new.map Broadcast.entry = broadcastsFrom c.msg.msid L.tmpos txs := by
  induction txs generalizing L with
  | nil =>
      cases h
      exact ⟨[], by simp, by simp, rfl⟩
  | cons t txs ih =>
      rw [List.foldlM_cons] at h
      obtain ⟨L₁, hfirst, hrest⟩ := bind_eq_ok h
      obtain ⟨new, hnew, hpath, hentries⟩ := ih hrest
      rw [(processTx_spec hfirst).tmpos] at hentries
      by_cases hbro : t.ttype = .bro
      · obtain ⟨b, hb, hbpath, hentry⟩ := processTx_bro hbro hfirst
        refine ⟨b :: new, ?_, ?_, ?_⟩
        · rw [hnew, hb, List.append_assoc, List.singleton_append]
        · exact List.forall_mem_cons.mpr ⟨hbpath, hpath⟩
        · rw [List.map_cons, hentry, hentries, broadcastsFrom, if_pos hbro, List.singleton_append]
      · refine ⟨new, ?_, hpath, ?_⟩
        · rw [hnew, (processTx_log hbro rfl).ok hfirst]
        · rw [hentries, broadcastsFrom, if_neg hbro, List.nil_append]

end Loop

theorem State.broadcastLog_append {path : UInt32} {new : List Broadcast}
    (hbro : s'.bro = s.bro ++ new) (hpath : ∀ b ∈ new, b.path = path) :
    s'.broadcastLog path = s.broadcastLog path ++ new.map Broadcast.entry := by
  have hnew : new.filter (fun b => b.path = path) = new :=
    List.filter_eq_self.mpr (by simpa using hpath)
  unfold State.broadcastLog
  rw [hbro, List.filter_append, List.map_append, hnew]

theorem State.broadcastLog_congr (path : UInt32) (hbro : s'.bro = s.bro) :
    s'.broadcastLog path = s.broadcastLog path := by
  unfold State.broadcastLog
  rw [hbro]

/-- An accepted message adds its broadcasts to the log. -/
theorem validate_broadcastLog (h : validate env s msg = some s') :
    s'.srvs.now = s.srvs.now ∧
      s'.broadcastLog s.srvs.now = s.broadcastLog s.srvs.now ++ msg.broadcasts := by
  unfold validate at h
  split at h
  · cases h
  split at h
  · rename_i s₁ rs hprocess
    obtain rfl := Option.some.inj h
    obtain ⟨-, -, L, hloop, hcommit, -⟩ := processMessage_accept hprocess
    obtain ⟨new, hnew, hpath, hentries⟩ := foldlM_processTx_log hloop
    have hbro : s₁.bro = s.bro ++ new := by
      obtain ⟨s₂, hfold, rfl⟩ := commitMessage_ok hcommit
      exact (bkyFold_frame hfold).bro.trans ((commitLocal_keys _ L).2.2.2.trans hnew)
    refine ⟨(commitMessage_srvs hcommit).1, ?_⟩
    refine (State.broadcastLog_append (s := s) hbro hpath).trans ?_
    rw [hentries]
    rfl
  · cases h

/-- A rejected message without broadcasts leaves the log alone. -/
theorem reject_broadcastLog (hplain : msg.broadcasts = [])
    (h : processMessage env s msg = .reject s') :
    s'.srvs.now = s.srvs.now ∧ s'.bro = s.bro := by
  have hloop : KeepsLog s.bro
      (msg.txs.foldlM (processTx ⟨env, s, msg⟩) (Ctx.init ⟨env, s, msg⟩)) :=
    Both.foldlM rfl fun t ht L hL => processTx_log (broadcastsFrom_eq_nil hplain t ht) hL
  simp only [processMessage] at h
  split at h
  · cases h
    exact ⟨rfl, rfl⟩
  split at h
  · cases h
    exact ⟨rfl, rfl⟩
  split at h
  · rename_i L herror
    cases h
    exact ⟨rfl, hloop.error herror⟩
  · rename_i L hok
    split at h
    · cases h
      exact ⟨rfl, hloop.ok hok⟩
    split at h <;> cases h

/-- Taking back a transaction does not touch the log. -/
theorem undoTx_bro {u u' : Undo} {t : UserTxs} (h : undoTx env msg u t = some u') :
    u'.s.srvs.now = u.s.srvs.now ∧ u'.s.bro = u.s.bro := by
  unfold undoTx at h
  cases hty : t.ttype <;> simp only [hty] at h
  case inf => cases h
  case put =>
    obtain rfl := Option.some.inj h
    rw [Undo.debit_s]
    exact ⟨rfl, rfl⟩
  case mpt =>
    obtain rfl := Option.some.inj h
    rw [(Undo.foldl_debit_s { u with tmpos := u.tmpos + 1 } t.abank t.toaddresses).1]
    exact ⟨rfl, rfl⟩
  case bky =>
    unfold undoBky Undo.restoreKey at h
    dsimp only at h
    split at h
    · cases h
      exact ⟨rfl, rfl⟩
    split at h
    · cases h
      exact ⟨rfl, rfl⟩
    · obtain ⟨u₁, hu₁, h⟩ := Option.bind_eq_some_iff.mp h
      obtain rfl := Option.some.inj h
      split at hu₁
      · obtain ⟨skey, -, rfl⟩ := Option.map_eq_some_iff.mp hu₁
        exact ⟨rfl, rfl⟩
      · cases hu₁
        exact ⟨rfl, rfl⟩
  all_goals
    cases h
    exact ⟨rfl, rfl⟩

/-- Nothing is taken out of the log when a message is undone. -/
theorem undoMessage_bro (h : undoMessage env s msg = some s') :
    s'.srvs.now = s.srvs.now ∧ s'.bro = s.bro := by
  unfold undoMessage at h
  obtain ⟨u, hfold, h⟩ := Option.bind_eq_some_iff.mp h
  obtain ⟨m, -, h⟩ := Option.bind_eq_some_iff.mp h
  obtain rfl := Option.some.inj h
  refine foldlM_option_invariant (fun u => u.s.srvs.now = s.srvs.now ∧ u.s.bro = s.bro)
    ⟨rfl, rfl⟩ ?_ hfold
  rintro t - u u' ⟨hnow, hbro⟩ hstep
  obtain ⟨hnow', hbro'⟩ := undoTx_bro hstep
  exact ⟨hnow'.trans hnow, hbro'.trans hbro⟩

/-- What happens to messages while a block is open. -/
inductive LogEvent where
  | accept (msg : Message)
  | reject (msg : Message)
  | undo (msg : Message)

/-- The server and the messages that are in the block at present. -/
structure BlockLog where
  s : State
  block : List Message := []

/-- One event; `none` when the server does not do it. -/
def BlockLog.step (env : Env) (r : BlockLog) : LogEvent → Option BlockLog
  | .accept msg => (validate env r.s msg).map fun s => ⟨s, msg :: r.block⟩
  | .reject msg =>
      match processMessage env r.s msg with
      | .reject s => some ⟨s, r.block⟩
      | _ => none
  | .undo msg =>
      if msg ∈ r.block then (undoMessage env r.s msg).map fun s => ⟨s, r.block.erase msg⟩
      else none

/-- The log of the open block. -/
def BlockLog.log (r : BlockLog) : List (UserTxs × UInt32 × UInt32) :=
  r.s.broadcastLog r.s.srvs.now

/-- The broadcasts of the messages in the block. -/
def BlockLog.broadcasts (r : BlockLog) : List (UserTxs × UInt32 × UInt32) :=
  r.block.flatMap Message.broadcasts

/-- The broadcasts of undone messages. -/
def LogEvent.undone : LogEvent → List (UserTxs × UInt32 × UInt32)
  | .undo msg => msg.broadcasts
  | _ => []

/-- One event: what it puts into the log is what it adds to the block, apart from what it
takes out of the block. -/
theorem BlockLog.step_log {r r' : BlockLog} {event : LogEvent}
    {extra : List (UserTxs × UInt32 × UInt32)}
    (hreject : ∀ msg, event = .reject msg → msg.broadcasts = []) (h : r.step env event = some r')
    (hlog : r.log.Perm (r.broadcasts ++ extra)) :
    r'.log.Perm (r'.broadcasts ++ (event.undone ++ extra)) := by
  cases event with
  | accept msg =>
      obtain ⟨s, hvalidate, rfl⟩ := Option.map_eq_some_iff.mp h
      obtain ⟨hnow, hnew⟩ := validate_broadcastLog hvalidate
      have hlog' : BlockLog.log ⟨s, msg :: r.block⟩ = r.log ++ msg.broadcasts := by
        show s.broadcastLog s.srvs.now = _
        rw [hnow, hnew]
        rfl
      rw [hlog']
      refine (hlog.append_right msg.broadcasts).trans (List.perm_append_comm.trans ?_)
      show (msg.broadcasts ++ (r.broadcasts ++ extra)).Perm
        ((msg.broadcasts ++ r.broadcasts) ++ ([] ++ extra))
      rw [List.nil_append, List.append_assoc]
  | reject msg =>
      simp only [BlockLog.step] at h
      split at h
      · rename_i s hprocess
        obtain rfl := Option.some.inj h
        obtain ⟨hnow, hbro⟩ := reject_broadcastLog (hreject msg rfl) hprocess
        have hlog' : BlockLog.log ⟨s, r.block⟩ = r.log := by
          show s.broadcastLog s.srvs.now = _
          rw [hnow]
          exact State.broadcastLog_congr _ hbro
        rw [hlog']
        exact hlog
      · cases h
  | undo msg =>
      simp only [BlockLog.step] at h
      split at h
      · rename_i hmem
        obtain ⟨s, hundo, rfl⟩ := Option.map_eq_some_iff.mp h
        obtain ⟨hnow, hbro⟩ := undoMessage_bro hundo
        have hlog' : BlockLog.log ⟨s, r.block.erase msg⟩ = r.log := by
          show s.broadcastLog s.srvs.now = _
          rw [hnow]
          exact State.broadcastLog_congr _ hbro
        have hblock : r.broadcasts.Perm (msg.broadcasts ++ (r.block.erase msg).flatMap
            Message.broadcasts) := (List.perm_cons_erase hmem).flatMap_right _
        rw [hlog']
        refine (hlog.trans (hblock.append_right extra)).trans ?_
        rw [← List.append_assoc]
        exact List.perm_append_comm.append_right extra
      · cases h

/-- A whole run: the log holds the broadcasts of the block and of all undone messages. -/
theorem BlockLog.run_log {events : List LogEvent} {r r' : BlockLog}
    {extra : List (UserTxs × UInt32 × UInt32)}
    (hreject : ∀ msg, .reject msg ∈ events → msg.broadcasts = [])
    (h : events.foldlM (BlockLog.step env) r = some r')
    (hlog : r.log.Perm (r.broadcasts ++ extra)) :
    r'.log.Perm (r'.broadcasts ++ (events.flatMap LogEvent.undone ++ extra)) := by
  induction events generalizing r extra with
  | nil =>
      cases h
      exact hlog
  | cons event events ih =>
      rw [List.foldlM_cons] at h
      obtain ⟨r₁, hfirst, hrest⟩ := Option.bind_eq_some_iff.mp h
      have hstep := BlockLog.step_log
        (fun msg hmsg => hreject msg (hmsg ▸ List.mem_cons_self)) hfirst hlog
      refine (ih (fun msg hmsg => hreject msg (List.mem_cons_of_mem _ hmsg)) hrest hstep).trans ?_
      refine List.Perm.append_left _ ?_
      rw [List.flatMap_cons, ← List.append_assoc]
      exact List.perm_append_comm.append_right extra

theorem flatMap_undone_eq_nil {events : List LogEvent} :
    events.flatMap LogEvent.undone = [] ↔ ∀ msg, .undo msg ∈ events → msg.broadcasts = [] := by
  rw [List.flatMap_eq_nil_iff]
  constructor
  · intro h msg hmsg
    exact h _ hmsg
  · intro h event hevent
    cases event with
    | accept msg => rfl
    | reject msg => rfl
    | undo msg => exact h msg hevent

/-- The broadcast log. In every run of a block, from an empty log, in which the rejected
messages have no broadcasts, the log is the broadcasts of the messages in the block, each
once, exactly if no message with a broadcast was undone. -/
theorem broadcastLog_exact_iff {env : Env} {s₀ : State} {events : List LogEvent} {r : BlockLog}
    (hempty : s₀.broadcastLog s₀.srvs.now = [])
    (hreject : ∀ msg, .reject msg ∈ events → msg.broadcasts = [])
    (hrun : events.foldlM (BlockLog.step env) ⟨s₀, []⟩ = some r) :
    r.log.Perm r.broadcasts ↔ ∀ msg, .undo msg ∈ events → msg.broadcasts = [] := by
  have hlog : r.log.Perm (r.broadcasts ++ (events.flatMap LogEvent.undone ++ [])) := by
    refine BlockLog.run_log hreject hrun ?_
    show (s₀.broadcastLog s₀.srvs.now).Perm _
    rw [hempty]
    rfl
  rw [List.append_nil] at hlog
  rw [← flatMap_undone_eq_nil]
  constructor
  · intro hexact
    have hlength := (hexact.symm.trans hlog).length_eq
    rw [List.length_append] at hlength
    exact List.eq_nil_of_length_eq_zero (by omega)
  · intro hnil
    rwa [hnil, List.append_nil] at hlog

namespace Sample

/-- A broadcast of the owner of node 1. -/
def broadcastTx : UserTxs where
  ttype := .bro
  abank := 1
  amsid := 1
  ttime := 0x60000000

def broadcastMessage : Message where
  svid := 1
  msid := 1
  now := 0x60000000
  txs := [broadcastTx]
  bounded := by simp [broadcastTx, UserTxs.size, txslen]

/-- The same with a second transaction that repeats the number of the first. -/
def repeatedMessage : Message where
  svid := 1
  msid := 1
  now := 0x60000000
  txs := [broadcastTx, broadcastTx]
  bounded := by simp [broadcastTx, UserTxs.size, txslen]

end Sample

/-- A key change is undone and a broadcast accepted: the log is exact. -/
theorem broadcastLog_exact_rekey :
    ∃ r, [LogEvent.accept Sample.rekeyMessage, .undo Sample.rekeyMessage,
        .accept Sample.broadcastMessage].foldlM (BlockLog.step Sample.keyEnv)
        ⟨Sample.keyState, []⟩ = some r ∧
      r.broadcasts = [(Sample.broadcastTx, 1, 1)] ∧ r.log.Perm r.broadcasts := by
  obtain ⟨r, hrun, hbroadcasts⟩ := (Option.any_eq_true
    (fun r : BlockLog => r.broadcasts == [(Sample.broadcastTx, 1, 1)]) _).mp (show
    ([LogEvent.accept Sample.rekeyMessage, .undo Sample.rekeyMessage,
      .accept Sample.broadcastMessage].foldlM (BlockLog.step Sample.keyEnv)
      ⟨Sample.keyState, []⟩).any _ = true by decide +kernel)
  refine ⟨r, hrun, beq_iff_eq.mp hbroadcasts, ?_⟩
  refine (broadcastLog_exact_iff rfl (by simp) hrun).mpr ?_
  simp only [List.mem_cons, reduceCtorEq, LogEvent.undo.injEq, List.not_mem_nil, or_false,
    false_or, forall_eq]
  rfl

/-- A broadcast that is undone and processed again stands in the log twice, and one of a
rejected message stands there as well. -/
theorem broadcastLog_repeats :
    (∃ r, [LogEvent.accept Sample.broadcastMessage, .undo Sample.broadcastMessage,
        .accept Sample.broadcastMessage].foldlM (BlockLog.step Sample.keyEnv)
        ⟨Sample.keyState, []⟩ = some r ∧
      r.block = [Sample.broadcastMessage] ∧
      r.log = [(Sample.broadcastTx, 1, 1), (Sample.broadcastTx, 1, 1)]) ∧
    ∃ r, [LogEvent.reject Sample.repeatedMessage].foldlM (BlockLog.step Sample.keyEnv)
        ⟨Sample.keyState, []⟩ = some r ∧
      r.block = [] ∧ r.log = [(Sample.broadcastTx, 1, 1)] := by
  have exists_of_any : ∀ {o : Option BlockLog} {block : List Message}
      {log : List (UserTxs × UInt32 × UInt32)},
      (o.any fun r => r.block == block && r.log == log) = true →
      ∃ r, o = some r ∧ r.block = block ∧ r.log = log := by
    intro o block log h
    obtain ⟨r, hr, htest⟩ := (Option.any_eq_true _ _).mp h
    rw [Bool.and_eq_true, beq_iff_eq, beq_iff_eq] at htest
    exact ⟨r, hr, htest⟩
  exact ⟨exists_of_any (by decide +kernel), exists_of_any (by decide +kernel)⟩

end Esc
