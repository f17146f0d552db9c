import Esc.Server.LoopSpec

/-!
# What a commit does

The state after an accepted message, field by field, in terms of the final loop
state. The node key changes come last in the commit; they touch node keys, the
server's own keys and one block map, which `KeyFrame` says once.
-/

namespace Esc

open Lib

variable {env : Env} {c : Ctx} {s s' : State} {L : Loop}

/-- Two states that differ at most in node keys, the own key pair and the scheduled
key changes. -/
structure KeyFrame (s s' : State) : Prop where
  now : s'.srvs.now = s.srvs.now
  div : s'.srvs.div = s.srvs.div
  vtot : s'.srvs.vtot = s.srvs.vtot
  size : s'.srvs.nodes.size = s.srvs.nodes.size
  node : ∀ i, s'.srvs.nodes.get i =
    { s.srvs.nodes.get i with pk := (s'.srvs.nodes.get i).pk }
  last : s'.last = s.last
  usr : s'.usr = s.usr
  und : s'.und = s.und
  msgUndo : s'.msgUndo = s.msgUndo
  bro : s'.bro = s.bro
  deposit : s'.deposit = s.deposit
  bankFee : s'.bankFee = s.bankFee
  blk : s'.blk = s.blk
  office : s'.office = s.office
  doSync : s'.doSync = s.doSync
  iamvip : s'.iamvip = s.iamvip
  startPath : s'.startPath = s.startPath
  dividends : s'.dividends = s.dividends

namespace KeyFrame

theorem refl (s : State) : KeyFrame s s := by
  constructor <;> intros <;> rfl

theorem trans {s₁ s₂ : State} (h : KeyFrame s s₁) (h' : KeyFrame s₁ s₂) : KeyFrame s s₂ where
  now := h'.now.trans h.now
  div := h'.div.trans h.div
  vtot := h'.vtot.trans h.vtot
  size := h'.size.trans h.size
  node i := by rw [h'.node i, h.node i]
  last := h'.last.trans h.last
  usr := h'.usr.trans h.usr
  und := h'.und.trans h.und
  msgUndo := h'.msgUndo.trans h.msgUndo
  bro := h'.bro.trans h.bro
  deposit := h'.deposit.trans h.deposit
  bankFee := h'.bankFee.trans h.bankFee
  blk := h'.blk.trans h.blk
  office := h'.office.trans h.office
  doSync := h'.doSync.trans h.doSync
  iamvip := h'.iamvip.trans h.iamvip
  startPath := h'.startPath.trans h.startPath
  dividends := h'.dividends.trans h.dividends

theorem node_eq (h : KeyFrame s s') (svid : UInt16) :
    s'.srvs.node svid = { s.srvs.node svid with pk := (s'.srvs.node svid).pk } :=
  h.node svid.toNat

end KeyFrame

theorem bkyStep_frame {change : UInt64 × Hash} (h : bkyStep env s change = some s') :
    KeyFrame s s' := by
  have hnode : ∀ i, (s.modifyNode (ppiBbank change.1) fun n =>
      { n with pk := change.2 }).srvs.nodes.get i = { s.srvs.nodes.get i with
        pk := ((s.modifyNode (ppiBbank change.1) fun n =>
          { n with pk := change.2 }).srvs.nodes.get i).pk } := by
    intro i
    simp only [State.modifyNode, Table.get_modify]
    split
    · rename_i hi
      rw [hi.1]
    · rfl
  simp only [bkyStep] at h
  split at h
  · obtain ⟨skey, -, rfl⟩ := Option.map_eq_some_iff.mp h
    exact ⟨rfl, rfl, rfl, rfl, hnode, rfl, rfl, rfl, rfl, rfl, rfl, rfl, rfl, rfl, rfl, rfl,
      rfl, rfl⟩
  · cases h
    exact ⟨rfl, rfl, rfl, rfl, hnode, rfl, rfl, rfl, rfl, rfl, rfl, rfl, rfl, rfl, rfl, rfl,
      rfl, rfl⟩

theorem bkyFold_frame {changes : List (UInt64 × Hash)}
    (h : changes.foldlM (bkyStep env) s = some s') : KeyFrame s s' := by
  induction changes generalizing s with
  | nil =>
      cases h
      exact .refl _
  | cons change changes ih =>
      rw [List.foldlM_cons] at h
      obtain ⟨s₁, hfirst, hrest⟩ := Option.bind_eq_some_iff.mp h
      exact (bkyStep_frame hfirst).trans (ih hrest)

/-- A commit is the commit of the own bank, the deposits, the key changes and the
block requests. -/
theorem commitMessage_ok (h : commitMessage c L = some s') :
    ∃ s₁, L.txsBky.toList.foldlM (bkyStep c.env)
        { L.commitBank c with deposit := c.s.deposit.merge (· + ·) L.txsDeposit } = some s₁ ∧
      s' = { s₁ with
        blk := c.s.blk.insert L.txs
        dividends := L.dividends c.msg.svid ++ c.s.dividends } := by
  obtain ⟨s₁, hfold, hret⟩ := Option.bind_eq_some_iff.mp h
  refine ⟨s₁, hfold, ?_⟩
  cases hret
  rw [(bkyFold_frame hfold).blk, (bkyFold_frame hfold).dividends]
  rfl

/-- The state after a commit, for the fields that it changes besides the keys. The user
count is raised by the loop only. -/
structure CommitFrame (c : Ctx) (L : Loop) (s' : State) : Prop where
  node : s'.srvs.node c.msg.svid = { c.s.srvs.node c.msg.svid with
    port := L.port
    ipv4 := L.ipv4
    weight := (c.s.srvs.node c.msg.svid).weight + L.weight
    hash := (c.s.srvs.node c.msg.svid).hash ^^^ L.csum
    users := if L.acc.users ≤ (c.s.srvs.node c.msg.svid).users then
      (c.s.srvs.node c.msg.svid).users else L.acc.users
    changed := (s'.srvs.node c.msg.svid).changed
    pk := (s'.srvs.node c.msg.svid).pk }
  node_ne : ∀ b, b ≠ c.msg.svid →
    s'.srvs.node b = { c.s.srvs.node b with pk := (s'.srvs.node b).pk }
  now : s'.srvs.now = c.s.srvs.now
  div : s'.srvs.div = c.s.srvs.div
  vtot : s'.srvs.vtot = c.s.srvs.vtot
  size : s'.srvs.nodes.size = c.s.srvs.nodes.size
  last : s'.last = c.s.last
  usr : s'.usr = Function.update c.s.usr c.msg.svid (L.acc.file.writeAll UInt32.toNat L.changes)
  deposit : s'.deposit = c.s.deposit.merge (· + ·) L.txsDeposit
  bankFee : s'.bankFee = c.s.bankFee.modify c.msg.svid.toNat (· + L.profit c)
  msgUndo : s'.msgUndo = Function.update c.s.msgUndo c.msg.svid
    (Function.update (c.s.msgUndo c.msg.svid) c.msg.msid (some {
      csum := L.csum
      weight := L.weight
      fee := L.profit c
      msha := (c.s.srvs.node c.msg.svid).msha
      mtim := (c.s.srvs.node c.msg.svid).mtim
      undo := L.undo
      users := (c.s.srvs.node c.msg.svid).users }))
  bro : s'.bro = L.bro
  office : s'.office = L.office
  blk : s'.blk = c.s.blk.insert L.txs
  doSync : s'.doSync = c.s.doSync
  iamvip : s'.iamvip = c.s.iamvip
  startPath : s'.startPath = c.s.startPath
  dividends : s'.dividends = L.dividends c.msg.svid ++ c.s.dividends

theorem Loop.effects_node (L : Loop) (h : c.msg.svid.toNat < c.s.srvs.nodes.size) :
    (L.effects c).srvs.node c.msg.svid = { c.s.srvs.node c.msg.svid with
      port := L.port
      ipv4 := L.ipv4
      users := L.acc.users
      changed := L.acc.changed } :=
  State.node_modifyNode c.s c.msg.svid _ h

theorem Loop.effects_node_ne (L : Loop) {b : UInt16} (h : b ≠ c.msg.svid) :
    (L.effects c).srvs.node b = c.s.srvs.node b :=
  State.node_modifyNode_ne c.s _ h

theorem Loop.commitBank_node (L : Loop) (h : c.msg.svid.toNat < c.s.srvs.nodes.size) :
    (L.commitBank c).srvs.node c.msg.svid = { c.s.srvs.node c.msg.svid with
      port := L.port
      ipv4 := L.ipv4
      weight := (c.s.srvs.node c.msg.svid).weight + L.weight
      hash := (c.s.srvs.node c.msg.svid).hash ^^^ L.csum
      users := if L.acc.users ≤ (c.s.srvs.node c.msg.svid).users then
        (c.s.srvs.node c.msg.svid).users else L.acc.users
      changed := ((L.commitBank c).srvs.node c.msg.svid).changed } := by
  have hnode := (L.effects c).node_modifyNode c.msg.svid (fun n =>
    let und := saveUndo ((L.effects c).srvs.node c.msg.svid)
      ((L.effects c).und (L.effects c).srvs.now c.msg.svid) L.undo (c.s.srvs.node c.msg.svid).users
    { n with
      weight := n.weight + L.weight
      hash := n.hash ^^^ L.csum
      users := und.1.users
      changed := und.1.changed }) h
  change (L.commitBank c).srvs.node c.msg.svid = _ at hnode
  rw [hnode]
  dsimp only
  rw [saveUndo_node]
  simp only [L.effects_node h]

theorem commitMessage_usr (h : commitMessage c L = some s') :
    s'.usr = Function.update c.s.usr c.msg.svid (L.acc.file.writeAll UInt32.toNat L.changes) := by
  obtain ⟨s₁, hfold, rfl⟩ := commitMessage_ok h
  refine (bkyFold_frame hfold).usr.trans ?_
  exact Function.update_idem _ _ _

theorem commitMessage_node_ne (h : commitMessage c L = some s') {b : UInt16} (hb : b ≠ c.msg.svid) :
    s'.srvs.node b = { c.s.srvs.node b with pk := (s'.srvs.node b).pk } := by
  obtain ⟨s₁, hfold, rfl⟩ := commitMessage_ok h
  have hkey : s₁.srvs.node b = { (L.commitBank c).srvs.node b with
      pk := (s₁.srvs.node b).pk } := (bkyFold_frame hfold).node_eq b
  have hbank : (L.commitBank c).srvs.node b = c.s.srvs.node b :=
    ((L.effects c).node_modifyNode_ne _ hb).trans (L.effects_node_ne hb)
  refine hkey.trans ?_
  rw [hbank]

/-- A commit changes neither block time nor the number of nodes. -/
theorem commitMessage_srvs (h : commitMessage c L = some s') :
    s'.srvs.now = c.s.srvs.now ∧ s'.srvs.div = c.s.srvs.div ∧
      s'.srvs.nodes.size = c.s.srvs.nodes.size ∧ s'.last = c.s.last := by
  obtain ⟨s₁, hfold, rfl⟩ := commitMessage_ok h
  have hkeys := bkyFold_frame hfold
  exact ⟨hkeys.now, hkeys.div, hkeys.size, hkeys.last⟩

/-- What a commit does. -/
theorem commitMessage_frame (hsvid : c.msg.svid.toNat < c.s.srvs.nodes.size)
    (h : commitMessage c L = some s') :
    CommitFrame c L s' := by
  have husr := commitMessage_usr h
  have hother := fun b (hb : b ≠ c.msg.svid) => commitMessage_node_ne h hb
  obtain ⟨s₁, hfold, rfl⟩ := commitMessage_ok h
  have hkeys := bkyFold_frame hfold
  have hnode := L.commitBank_node hsvid
  refine ⟨?_, hother, hkeys.now, hkeys.div, hkeys.vtot, hkeys.size, hkeys.last, husr,
    hkeys.deposit, hkeys.bankFee, ?_, hkeys.bro, hkeys.office, rfl, hkeys.doSync, hkeys.iamvip,
    hkeys.startPath, rfl⟩
  · have hkey : s₁.srvs.node c.msg.svid = { (L.commitBank c).srvs.node c.msg.svid with
        pk := (s₁.srvs.node c.msg.svid).pk } := hkeys.node_eq c.msg.svid
    have hchanged : (s₁.srvs.node c.msg.svid).changed =
        ((L.commitBank c).srvs.node c.msg.svid).changed := by rw [hkey]
    dsimp only
    rw [hchanged]
    refine hkey.trans ?_
    rw [hnode]
  · refine hkeys.msgUndo.trans ?_
    have heffects := L.effects_node hsvid
    simp only [Loop.commitBank, heffects]
    rfl

/-- How an accepted message was processed. -/
theorem processMessage_accept {msg : Message} {rs : List Receipt}
    (h : processMessage env s msg = .accept s' rs) :
    s.last.now ≤ msg.now ∧
      messageFee msg.len ≤ (readUser (s.usr msg.svid) 0 env.junk).weight ∧
      ∃ L, msg.txs.foldlM (processTx ⟨env, s, msg⟩) (Ctx.init ⟨env, s, msg⟩) = .ok L ∧
        commitMessage ⟨env, s, msg⟩ (commitLocal ⟨env, s, msg⟩ L) = some s' ∧
        rs = (commitLocal ⟨env, s, msg⟩ L).receipts := by
  simp only [processMessage] at h
  split at h
  · cases h
  rename_i hnow
  split at h
  · cases h
  rename_i hfee
  split at h
  · cases h
  rename_i L hloop
  split at h
  · cases h
  split at h
  · cases h
  rename_i s₁ hcommit
  cases h
  exact ⟨by grind, by grind, L, hloop, hcommit, rfl⟩

end Esc
