import Esc.Server.BlockSteps
import Esc.Server.Tracking
import Esc.Server.Withdrawals

/-!
# Operations on the ledger

The functions that the server applies to its ledger, one after the other: messages are
processed during a block, the four commits end it, and `nextblock` starts the next one.
Whatever an operation does to an account, it creates it, books transactions of it,
locks it for a withdrawal, or changes its balance only.
-/

namespace Esc

open Lib

variable {env : Env} {s s' : State} {msg : Message}

/-- What the start of a block takes from elsewhere: the dividend rate, which is computed
in floating point, and the list of VIP nodes, the master first. -/
structure BlockStart where
  div : UInt32
  vips : List UInt16

/-- Status of a node in a new block. -/
def BlockStart.status (v : BlockStart) (svid : UInt16) (status : UInt32) : UInt32 :=
  let status := status &&& ~~~(serverVip ||| serverUno)
  let status := if svid ∈ v.vips then status ||| serverVip else status
  if v.vips.head? = some svid then status ||| serverUno else status

/-- `finish` clears the changed bits, the block becomes the last one and `nextblock` moves
on. The rate changes at the start of a dividend period. -/
def State.nextBlock (env : Env) (s : State) (v : BlockStart) : State :=
  let done := { s.srvs with nodes := s.srvs.nodes.mapIdx fun _ n =>
    { n with changed := n.changed.mapIdx fun _ _ => false } }
  let now := s.srvs.now + blockSec
  let srvs := { done with
    now := now
    div := if now / blockSec % blockDiv = 0 then v.div else s.srvs.div
    vtot := UInt16.ofNat v.vips.length
    nodes := done.nodes.mapIdx fun i n => { n with status := v.status (UInt16.ofNat i) n.status } }
  { s with last := done, srvs := srvs, iamvip := hasBit (srvs.node env.svid).status serverVip }

/-- The state in which the withdrawals of a block are committed. -/
def prepareBlock (env : Env) (s : State) : State :=
  let s := commitUsers s
  let s := commitKeys s
  let s := commitStatus s
  commitBanks env s

theorem commitBlock_eq (env : Env) (s : State) :
    commitBlock env s = { commitGets env (prepareBlock env s) with blk := {}, blkBky := ∅ } := rfl

theorem commitBlock_record (env : Env) (s : State) (b : UInt16) (uid : UInt32) :
    (commitBlock env s).record b uid = (commitGets env (prepareBlock env s)).record b uid := by
  rw [commitBlock_eq]
  generalize commitGets env (prepareBlock env s) = s'
  rfl

theorem commitBlock_size (env : Env) (s : State) :
    (commitBlock env s).srvs.nodes.size =
      (commitGets env (prepareBlock env s)).srvs.nodes.size := by
  rw [commitBlock_eq]

theorem commitBlock_filed_iff (env : Env) (s : State) :
    (commitBlock env s).Filed ↔ (commitGets env (prepareBlock env s)).Filed := by
  rw [commitBlock_eq]
  generalize commitGets env (prepareBlock env s) = s'
  rfl

/-- One operation. -/
inductive Operation where
  | process (msg : Message)
  | commitBlock
  | commitDividends
  | commitDeposit
  | commitBankfee
  | nextBlock (v : BlockStart)

/-- The state after an operation; `none` is an exit of the server. Messages are processed
when their node is known. -/
def Operation.run (env : Env) (s : State) : Operation → Option State
  | process msg =>
      if msg.svid.toNat < s.srvs.nodes.size then
        match processMessage env s msg with
        | .accept s' _ => some s'
        | .reject s' => some s'
        | .exit => none
      else none
  | commitBlock => some (Esc.commitBlock env s)
  | commitDividends => Esc.commitDividends env s
  | commitDeposit => some (Esc.commitDeposit env s)
  | commitBankfee => Esc.commitBankfee env s
  | nextBlock v => some (s.nextBlock env v)

/-- Records change in their balances only. -/
structure Credits (s s' : State) : Prop where
  now : s'.srvs.now = s.srvs.now
  size : s'.srvs.nodes.size = s.srvs.nodes.size
  users : ∀ b, (s'.srvs.node b).users = (s.srvs.node b).users
  files : ∀ b, (s.usr b).size ≤ (s'.usr b).size
  record : ∀ b i, Credited ((s.usr b).get i) ((s'.usr b).get i)

namespace Credits

variable {s₁ s₂ : State}

theorem refl (s : State) : Credits s s :=
  ⟨rfl, rfl, fun _ => rfl, fun _ => le_rfl, fun _ _ => .refl _⟩

theorem trans (h : Credits s s₁) (h' : Credits s₁ s₂) : Credits s s₂ where
  now := h'.now.trans h.now
  size := h'.size.trans h.size
  users b := (h'.users b).trans (h.users b)
  files b := (h.files b).trans (h'.files b)
  record b i := (h.record b i).trans (h'.record b i)

theorem filed (h : Credits s s₁) (hfiled : s.Filed) : s₁.Filed := by
  intro b hb
  rw [h.users]
  exact (hfiled b (h.size ▸ hb)).trans (h.files b)

end Credits

theorem SameAccounts.credits (h : SameAccounts s s') : Credits s s' :=
  ⟨h.now, h.size, fun b => by rw [h.node], fun b => by rw [h.usr], fun b i => by
    rw [h.usr]
    exact .refl _⟩

/-- A write that keeps the owner's part of every record. -/
def KeepsOwners (write : Table User → UInt32 → User → Table User) : Prop :=
  ∀ file uid u, file.size ≤ (write file uid u).size ∧
    ∀ i, Credited (file.get i) ((write file uid u).get i)

theorem writeTail_keeps : KeepsOwners writeTail := by
  intro file uid u
  refine ⟨le_max_left _ _, fun i => ?_⟩
  rw [writeTail, Table.get_write]
  split
  · rename_i hi
    rw [hi]
    constructor <;> rfl
  · exact .refl _

theorem writeStat_keeps : KeepsOwners writeStat := by
  intro file uid u
  refine ⟨le_max_left _ _, fun i => ?_⟩
  rw [writeStat, Table.get_write]
  split
  · rename_i hi
    rw [hi]
    constructor <;> rfl
  · exact .refl _

theorem State.bookUser_credits (env : Env) (s : State) (b : UInt16) (uid : UInt32) (u : User)
    (delta : Int64) {write : Table User → UInt32 → User → Table User} (h : KeepsOwners write) :
    Credits s (s.bookUser env b uid u delta write) := by
  obtain ⟨hsize, hrecord⟩ := h (s.usr b) uid (userCsum env.sha256 u b uid)
  have husr : (s.bookUser env b uid u delta write).usr =
      Function.update s.usr b (write (s.usr b) uid (userCsum env.sha256 u b uid)) := rfl
  have hnode := s.modifyNode_books b (f := fun n =>
    { n with hash := n.hash ^^^ u.csum ^^^ (userCsum env.sha256 u b uid).csum,
             weight := n.weight + delta }) fun _ => ⟨rfl, rfl⟩
  refine ⟨rfl, rfl, hnode.users, fun b' => ?_, fun b' i => ?_⟩
  · rw [husr]
    by_cases hb : b' = b
    · rw [hb, Function.update_self]
      exact hsize
    · rw [Function.update_of_ne hb]
  · rw [husr]
    by_cases hb : b' = b
    · rw [hb, Function.update_self]
      exact hrecord i
    · rw [Function.update_of_ne hb]
      exact .refl _

theorem dividendUser_credits {svid : UInt16} {p p' : Pass} {user : UInt32}
    (h : dividendUser env svid p user = some p') : Credits p.s p'.s := by
  simp only [dividendUser, dividendUserAt, State.bookUser_at] at h
  split at h
  · cases h
  split at h
  · cases h
    exact (State.addFee_same ..).toSameAccounts.credits
  generalize hq : Pass.mk _ _ (p.undo.insertIfNew _ _) = q at h
  have hstart : Credits p.s q.s := by
    rw [← hq]
    exact ((State.addFee_same ..).toSameAccounts.trans (State.logDividend_same ..)).credits
  have htake := (takeDeposit_spec env q svid user).2.2.1.credits
  have hboth := hstart.trans htake
  split at h
  · cases h
    exact (hboth.trans (State.callOffice_same ..).toSameAccounts.credits).trans
      (State.bookUser_credits _ _ _ _ _ _ writeStat_keeps)
  · cases h
    exact hboth.trans (State.bookUser_credits _ _ _ _ _ _ writeTail_keeps)

theorem dividendBank_credits {acc acc' : State × User} {svid : UInt16}
    (h : dividendBank env acc svid = some acc') : Credits acc.1 acc'.1 := by
  obtain ⟨s, buf⟩ := acc
  rw [dividendBank] at h
  split at h
  · cases h
    exact .refl s
  obtain ⟨p, hpass, hret⟩ := Option.bind_eq_some_iff.mp h
  have hloop : Credits s p.s :=
    foldlM_option_invariant (fun q : Pass => Credits s q.s) (.refl s)
      (fun _ _ _ _ hq huser => hq.trans (dividendUser_credits huser)) hpass
  cases hret
  exact hloop.trans (State.saveUndo_same ..).toSameAccounts.credits

theorem commitDividends_credits (h : commitDividends env s = some s') : Credits s s' := by
  rw [commitDividends] at h
  split at h
  · cases h
    exact .refl s
  obtain ⟨acc, hfold, rfl⟩ := Option.map_eq_some_iff.mp h
  exact foldlM_option_invariant (fun acc : State × User => Credits s acc.1) (.refl s)
    (fun _ _ _ _ hcredits hbank => hcredits.trans (dividendBank_credits hbank)) hfold

theorem depositStep_credits (env : Env) (p : DepositPass) (key : UInt64) (dep : Int64) :
    Credits p.s (depositStep env p key dep).s := by
  rw [depositStep]
  split
  · exact .refl _
  have henter : Credits p.s (p.enter (depositBank key)).s := by
    rw [DepositPass.enter]
    split
    · exact .refl _
    · exact (State.saveUndo_same ..).toSameAccounts.credits
  dsimp only
  generalize p.enter (depositBank key) = q at henter
  refine henter.trans (Credits.trans ?_ (State.bookUser_credits _ _ _ _ _ _ writeTail_keeps))
  refine Credits.trans ?_ (State.callOffice_same ..).toSameAccounts.credits
  have hfee : ∀ div fee, Credits q.s
      ((q.s.logDividend (depositBank key) (depositUser key) div).addFee (depositBank key) fee) :=
    fun div fee => ((q.s.logDividend_same (depositBank key) (depositUser key) div).trans
      (State.addFee_same _ (depositBank key) fee).toSameAccounts).credits
  split
  · exact hfee _ _
  · exact (hfee _ _).trans (State.addFee_same ..).toSameAccounts.credits

theorem commitDeposit_credits (env : Env) (s : State) : Credits s (commitDeposit env s) := by
  have hloop := Map.foldl_invariant (f := depositStep env) (m := s.deposit)
    (s := { s := s, u := env.junk }) (fun _ p => Credits s p.s) (.refl s)
    fun _ key dep p _ _ h => h.trans (depositStep_credits env p key dep)
  rw [commitDeposit]
  generalize s.deposit.foldl (depositStep env) { s := s, u := env.junk } = p at hloop
  have hend : Credits s (if p.lastsvid = 0 then p.s else p.s.saveUndo p.lastsvid p.undo 0) := by
    split
    · exact hloop
    · exact hloop.trans (State.saveUndo_same ..).toSameAccounts.credits
  exact ⟨hend.now, hend.size, hend.users, hend.files, hend.record⟩

theorem bankfeeStep_credits (env : Env) (sharing receiving : List UInt16) (share : Int64)
    (acc : State × User) (svid : UInt16) :
    Credits acc.1 (bankfeeStep env sharing receiving share acc svid).1 := by
  rw [bankfeeStep]
  refine Credits.trans ?_ (State.saveUndo_same ..).toSameAccounts.credits
  refine Credits.trans ?_ (State.bookUser_credits _ _ _ _ _ _ writeTail_keeps)
  refine Credits.trans ?_ (State.callOffice_same ..).toSameAccounts.credits
  refine Credits.trans ?_ (State.addFee_same ..).toSameAccounts.credits
  exact ((State.addFee_same ..).toSameAccounts.trans (State.logDividend_same ..)).credits

theorem commitBankfee_credits (h : commitBankfee env s = some s') : Credits s s' := by
  rw [commitBankfee] at h
  split at h
  · cases h
  cases h
  have hloop : Credits s (s.banks.foldl
      (bankfeeStep env (sharingNodes s) (receivingNodes s) (bankFeeShare s)) (s, env.junk)).1 :=
    foldl_invariant (fun _ acc => Credits s acc.1) (.refl s) fun _ svid _ acc _ h =>
      h.trans (bankfeeStep_credits env _ _ _ acc svid)
  exact ⟨hloop.now, hloop.size, hloop.users, hloop.files, hloop.record⟩

theorem commitUsers_eq (s : State) :
    ∃ deposit bankFee, commitUsers s = { s with deposit := deposit, bankFee := bankFee } := by
  have huok := Map.foldl_invariant (f := uokStep) (m := s.blk.uok) (s := (s, waiting s.blk.usr))
    (fun _ acc => ∃ deposit bankFee, acc.1 = { s with deposit := deposit, bankFee := bankFee })
    ⟨s.deposit, s.bankFee, rfl⟩ ?_
  · refine foldl_invariant (fun _ s₁ => ∃ deposit bankFee,
      s₁ = { s with deposit := deposit, bankFee := bankFee }) huok ?_
    rintro pre u post s₁ - ⟨deposit, bankFee, rfl⟩
    exact ⟨_, _, rfl⟩
  · rintro pre key tx ⟨s₁, uin⟩ - - ⟨deposit, bankFee, heq⟩
    obtain rfl : s₁ = _ := heq
    rw [uokStep]
    split <;> exact ⟨_, _, rfl⟩

/-- An account is as it was, or new. -/
structure Founds (env : Env) (s s' : State) : Prop where
  now : s'.srvs.now = s.srvs.now
  size : s.srvs.nodes.size ≤ s'.srvs.nodes.size
  blk : s'.blk = s.blk
  filed : s.Filed → s'.Filed
  msha : 0 < s.srvs.nodes.size → (s'.srvs.node 0).msha = (s.srvs.node 0).msha
  record : ∀ b (uid : UInt32), s'.record b uid = s.record b uid ∨
    ∃ msha mass pkey time, (0 < s.srvs.nodes.size → msha = (s.srvs.node 0).msha) ∧
      s'.record b uid = initUser env.sha256 msha b uid mass pkey time

namespace Founds

variable {s₁ s₂ : State}

theorem refl (s : State) : Founds env s s :=
  ⟨rfl, le_rfl, rfl, id, fun _ => rfl, fun _ _ => Or.inl rfl⟩

theorem trans (h : Founds env s s₁) (h' : Founds env s₁ s₂) : Founds env s s₂ where
  now := h'.now.trans h.now
  size := h.size.trans h'.size
  blk := h'.blk.trans h.blk
  filed hs := h'.filed (h.filed hs)
  msha hs := (h'.msha (hs.trans_le h.size)).trans (h.msha hs)
  record b uid := by
    rcases h'.record b uid with heq | ⟨msha, mass, pkey, time, hmsha, hnew⟩
    · rw [heq]
      exact h.record b uid
    · exact Or.inr ⟨msha, mass, pkey, time,
        fun hs => (hmsha (hs.trans_le h.size)).trans (h.msha hs), hnew⟩

/-- A step that keeps all records. -/
theorem of_usr (h : Extends s s₁) (husr : s₁.usr = s.usr)
    (hmsha : (s₁.srvs.node 0).msha = (s.srvs.node 0).msha) : Founds env s s₁ :=
  ⟨h.now, h.size, h.blk, h.filed, fun _ => hmsha, fun b uid =>
    Or.inl (by rw [State.record, husr]; rfl)⟩

/-- A step that writes the owner account of a bank. -/
theorem of_owner {peer : UInt16} {msha : Hash} {mass : Int64} {pkey : Hash} {time : UInt32}
    (h : Extends s s₁) (husr : s₁.usr = Function.update s.usr peer ((s.usr peer).write 0
      (initUser env.sha256 msha peer 0 mass pkey time)))
    (hmsha : 0 < s.srvs.nodes.size → (s₁.srvs.node 0).msha = (s.srvs.node 0).msha)
    (hseed : 0 < s.srvs.nodes.size → msha = (s.srvs.node 0).msha) : Founds env s s₁ := by
  refine ⟨h.now, h.size, h.blk, h.filed, hmsha, fun b uid => ?_⟩
  rw [State.record, husr]
  by_cases hb : b = peer
  · subst hb
    rw [Function.update_self, Table.get_write]
    split
    · rename_i huid
      obtain rfl : uid = 0 := UInt32.toNat_inj.mp huid
      exact Or.inr ⟨msha, mass, pkey, time, hseed, rfl⟩
    · exact Or.inl rfl
  · rw [Function.update_of_ne hb]
    exact Or.inl rfl

end Founds

theorem State.msha_modifyNode (s : State) (b b' : UInt16) {f : Node → Node}
    (hf : ∀ n, (f n).msha = n.msha) :
    ((s.modifyNode b f).srvs.node b').msha = (s.srvs.node b').msha := by
  obtain heq | heq := s.node_modifyNode_cases b b' f <;> rw [heq]
  exact hf _

/-- The state in which `put_node` makes the new record. -/
theorem State.msha_putNode_undo (s : State) (peer b : UInt16) (csum : Hash)
    (undo : Map UInt32 User) :
    (((s.modifyNode peer fun n => { n with hash := n.hash ^^^ csum }).saveUndo
      peer undo 0).srvs.node b).msha = (s.srvs.node b).msha := by
  rw [(State.saveUndo_same _ peer undo).node]
  exact s.msha_modifyNode peer b fun _ => rfl

theorem State.msha_putUser (s : State) (peer b : UInt16) (uid : UInt32) (u : User) :
    ((s.putUser peer uid u).srvs.node b).msha = (s.srvs.node b).msha :=
  s.msha_modifyNode peer b fun _ => rfl

theorem State.msha_putNode (env : Env) (s : State) (ou : User) (peer b : UInt16) :
    ((s.putNode env ou peer).srvs.node b).msha = (s.srvs.node b).msha := by
  rw [State.putNode, State.msha_modifyNode, State.msha_putUser]
  · exact s.msha_putNode_undo peer b _ _
  · exact fun _ => rfl

theorem State.msha_pushNode (s : State) (n : Node) (h : 0 < s.srvs.nodes.size) :
    ((s.pushNode n).srvs.node 0).msha = (s.srvs.node 0).msha :=
  congrArg Node.msha (Table.get_write_ne _ _ h.ne)

theorem State.msha_addNode (env : Env) (s : State) (ou : User) (h : 0 < s.srvs.nodes.size) :
    ((s.addNode env ou).srvs.node 0).msha = (s.srvs.node 0).msha := by
  rw [State.addNode]
  show ((State.modifyNode _ _ _).srvs.node 0).msha = _
  rw [State.msha_modifyNode, State.msha_putUser]
  · exact s.msha_pushNode _ h
  · exact fun _ => rfl

theorem bnkStep_founds (env : Env) (s : State) (free : List UInt64) (key : UInt64)
    (auser : UInt32) : Founds env s (bnkStep env (s, free) key auser).1 := by
  cases free with
  | cons bi rest =>
      exact .of_owner (s.putNode_step env _ _).extends rfl (fun _ => s.msha_putNode env _ _ 0)
        fun _ => s.msha_putNode_undo _ 0 _ _
  | nil =>
      rw [bnkStep]
      split
      · rename_i hroom
        exact .of_owner (s.addNode_step env _ hroom).1.extends rfl
          (s.msha_addNode env _) (s.msha_pushNode _)
      · exact .of_usr (SameShape.extends ⟨rfl, rfl, rfl, fun _ => rfl, fun _ => rfl, rfl, rfl⟩)
          rfl rfl

theorem commitBanks_founds (env : Env) (s : State) : Founds env s (commitBanks env s) :=
  Map.foldl_invariant (fun _ (acc : State × List UInt64) => Founds env s acc.1) (.refl s)
    fun _ key auser acc _ _ h => h.trans (bnkStep_founds env acc.1 acc.2 key auser)

theorem prepareBlock_founds (env : Env) (s : State) : Founds env s (prepareBlock env s) := by
  have husers : Founds env s (commitUsers s) := by
    obtain ⟨deposit, bankFee, heq⟩ := commitUsers_eq s
    rw [heq]
    exact .of_usr (SameShape.extends ⟨rfl, rfl, rfl, fun _ => rfl, fun _ => rfl, rfl, rfl⟩) rfl rfl
  have hbooks := (commitKeys_books (commitUsers s)).trans (commitStatus_books _)
  exact (husers.trans (.of_usr hbooks.extends hbooks.usr (hbooks.msha 0))).trans
    (commitBanks_founds env _)

/-- What processing a message does to an account of any bank. -/
inductive Processed (env : Env) (s s' : State) (msg : Message) (b : UInt16) (uid : UInt32) :
    Prop where
  | other (h : s'.record b uid = s.record b uid) (hbank : b ≠ msg.svid)
  | accepted {rs : List Receipt} {u : User} (hbank : b = msg.svid)
      (haccept : processMessage env s msg = .accept s' rs)
      (hrun : AccountTxs ⟨env, s, msg⟩ uid (s.record b uid) msg.txs u)
      (hcredit : Credited u (s'.record b uid))
  | rejected (hbank : b = msg.svid) (hreject : processMessage env s msg = .reject s')
      (h : s'.record b uid = s.record b uid ∨
        ∃ mass pkey time, s'.record b uid = newUser ⟨env, s, msg⟩ uid mass pkey time)

theorem process_accept {rs : List Receipt} (hfiled : s.Filed)
    (hsvid : msg.svid.toNat < s.srvs.nodes.size) (h : processMessage env s msg = .accept s' rs) :
    s'.srvs.nodes.size = s.srvs.nodes.size ∧ s'.Filed ∧ ∀ b uid, Processed env s s' msg b uid := by
  have hfile := hfiled msg.svid hsvid
  obtain ⟨-, -, L, hloop, hcommit, -⟩ := processMessage_accept h
  have hframe := commitMessage_frame hsvid hcommit
  have htracked := (Tracked.init (c := ⟨env, s, msg⟩) hfile).foldlM hloop
  obtain ⟨hlocal, hacc, -⟩ := htracked.commitLocal
  have hother : ∀ b, b ≠ msg.svid → s'.usr b = s.usr b := by
    intro b hb
    rw [hframe.usr]
    exact Function.update_of_ne hb _ _
  refine ⟨hframe.size, fun b hb => ?_, fun b uid => ?_⟩
  · by_cases hbank : b = msg.svid
    · subst hbank
      have hsize : (s'.usr msg.svid).size =
          ((commitLocal ⟨env, s, msg⟩ L).acc.file.writeAll UInt32.toNat
            (commitLocal ⟨env, s, msg⟩ L).changes).size := by
        rw [hframe.usr, Function.update_self]
      have hle := (commitLocal ⟨env, s, msg⟩ L).acc.file.size_le_writeAll UInt32.toNat
        (commitLocal ⟨env, s, msg⟩ L).changes
      rw [hsize, hframe.node]
      dsimp only
      split
      · exact (hfile.trans hlocal.stored.file).trans hle
      · exact hlocal.stored.filled.trans hle
    · rw [hother b hbank, hframe.node_ne b hbank]
      exact hfiled b (hframe.size ▸ hb)
  · by_cases hbank : b = msg.svid
    · subst hbank
      obtain ⟨u, hrun, hcredit⟩ := processMessage_account hfile h uid
      exact .accepted rfl h hrun hcredit
    · exact .other (by rw [State.record, hother b hbank]; rfl) hbank

theorem process_reject (hfiled : s.Filed) (hsvid : msg.svid.toNat < s.srvs.nodes.size)
    (h : processMessage env s msg = .reject s') :
    s'.srvs.nodes.size = s.srvs.nodes.size ∧ s'.Filed ∧ ∀ b uid, Processed env s s' msg b uid := by
  obtain rfl | ⟨L, rfl, hstored⟩ := processMessage_reject (hfiled msg.svid hsvid) h
  · refine ⟨rfl, hfiled, fun b uid => ?_⟩
    by_cases hbank : b = msg.svid
    · exact .rejected hbank h (Or.inl rfl)
    · exact .other rfl hbank
  · have hself : (L.effects ⟨env, s, msg⟩).usr msg.svid = L.acc.file := Function.update_self ..
    have hother : ∀ b, b ≠ msg.svid → (L.effects ⟨env, s, msg⟩).usr b = s.usr b :=
      fun b hb => Function.update_of_ne hb _ _
    refine ⟨rfl, fun b hb => ?_, fun b uid => ?_⟩
    · by_cases hbank : b = msg.svid
      · subst hbank
        have hnode := L.effects_node (c := ⟨env, s, msg⟩) hsvid
        rw [hself, hnode]
        exact hstored.filled
      · have hnode := L.effects_node_ne (c := ⟨env, s, msg⟩) hbank
        rw [hother b hbank, hnode]
        exact hfiled b hb
    · by_cases hbank : b = msg.svid
      · subst hbank
        refine .rejected rfl h ?_
        rw [State.record, hself]
        exact hstored.records uid
      · exact .other (by rw [State.record, hother b hbank]; rfl) hbank

/-- A processed message changes accounts of its bank only, and every bank keeps its
records. -/
theorem process_spec (hfiled : s.Filed) (h : Operation.run env s (.process msg) = some s') :
    s'.srvs.nodes.size = s.srvs.nodes.size ∧ s'.Filed ∧ ∀ b uid, Processed env s s' msg b uid := by
  rw [Operation.run] at h
  split at h
  · rename_i hsvid
    split at h
    · rename_i haccept
      cases h
      exact process_accept hfiled hsvid haccept
    · rename_i hreject
      cases h
      exact process_reject hfiled hsvid hreject
    · cases h
  · cases h

theorem State.nextBlock_usr (env : Env) (s : State) (v : BlockStart) :
    (s.nextBlock env v).usr = s.usr := by
  rw [State.nextBlock]

theorem State.nextBlock_size (env : Env) (s : State) (v : BlockStart) :
    (s.nextBlock env v).srvs.nodes.size = s.srvs.nodes.size := by
  rw [State.nextBlock]
  rfl

/-- A new block has the nodes of the old one, up to status and changed bits. -/
theorem State.nextBlock_node (env : Env) (s : State) (v : BlockStart) (b : UInt16) :
    (s.nextBlock env v).srvs.node b = { s.srvs.node b with
      status := ((s.nextBlock env v).srvs.node b).status
      changed := ((s.nextBlock env v).srvs.node b).changed } := by
  have hget : (s.nextBlock env v).srvs.node b = if b.toNat < s.srvs.nodes.size then
      { (if b.toNat < s.srvs.nodes.size then { s.srvs.node b with
          changed := (s.srvs.node b).changed.mapIdx fun _ _ => false } else default) with
        status := v.status (UInt16.ofNat b.toNat) (if b.toNat < s.srvs.nodes.size then
          { s.srvs.node b with
            changed := (s.srvs.node b).changed.mapIdx fun _ _ => false } else default).status }
      else default := rfl
  by_cases hb : b.toNat < s.srvs.nodes.size
  · rw [if_pos hb, if_pos hb] at hget
    rw [hget]
  · have hbeyond : s.srvs.node b = default := s.srvs.nodes.beyond _ (Nat.not_lt.mp hb)
    rw [if_neg hb] at hget
    rw [hget, hbeyond]

/-- A node without changed bits that is no VIP. -/
def Node.quiet (n : Node) : Node := { n with
  changed := n.changed.mapIdx fun _ _ => false
  status := n.status &&& ~~~(serverVip ||| serverUno) }

/-- The state `n + 2` blocks later, when there were no VIP nodes and nothing else
happened. -/
def State.wait (env : Env) (s : State) (n : Nat) : State :=
  let quiet := { s.srvs with vtot := 0, nodes := s.srvs.nodes.mapIdx fun _ => Node.quiet }
  { s with
    last := { quiet with now := s.srvs.now + blockSec * UInt32.ofNat (n + 1) }
    srvs := { quiet with now := s.srvs.now + blockSec * UInt32.ofNat (n + 2) }
    iamvip := hasBit (quiet.node env.svid).status serverVip }

theorem State.nextBlock_quiet (env : Env) (s : State) :
    s.nextBlock env ⟨s.srvs.div, []⟩ =
      { s with
        last := { s.srvs with nodes := s.srvs.nodes.mapIdx fun _ n =>
          { n with changed := n.changed.mapIdx fun _ _ => false } }
        srvs := { s.srvs with
          now := s.srvs.now + blockSec
          vtot := 0
          nodes := s.srvs.nodes.mapIdx fun _ => Node.quiet }
        iamvip := hasBit ((s.srvs.nodes.mapIdx fun _ => Node.quiet).get env.svid.toNat).status
          serverVip } := by
  rw [State.nextBlock]
  dsimp only
  rw [Table.mapIdx_mapIdx, ite_self]
  rfl

theorem Node.quiet_quiet (n : Node) : n.quiet.quiet = n.quiet := by
  rw [Node.quiet, Node.quiet]
  dsimp only
  rw [Table.mapIdx_mapIdx, UInt32.and_assoc, UInt32.and_self]

theorem Node.clear_quiet (n : Node) :
    { n.quiet with changed := n.quiet.changed.mapIdx fun _ _ => false } = n.quiet := by
  rw [Node.quiet]
  dsimp only
  rw [Table.mapIdx_mapIdx]

/-- The next block after one that was quiet already. -/
theorem State.nextBlock_of_quiet (env : Env) (s s₁ : State) (h : s₁.srvs = { s.srvs with
        now := s₁.srvs.now
        vtot := 0
        nodes := s.srvs.nodes.mapIdx fun _ => Node.quiet }) :
    s₁.nextBlock env ⟨s.srvs.div, []⟩ =
      { s₁ with
        last := s₁.srvs
        srvs := { s₁.srvs with now := s₁.srvs.now + blockSec }
        iamvip := hasBit ((s.srvs.nodes.mapIdx fun _ => Node.quiet).get env.svid.toNat).status
          serverVip } := by
  have hdiv : s₁.srvs.div = s.srvs.div := by rw [h]
  rw [← hdiv, State.nextBlock_quiet, h]
  simp only [Table.mapIdx_mapIdx, Node.quiet_quiet, Node.clear_quiet]

theorem State.nextBlock_nextBlock (env : Env) (s : State) :
    (s.nextBlock env ⟨s.srvs.div, []⟩).nextBlock env ⟨s.srvs.div, []⟩ = s.wait env 0 := by
  have hnow : s.srvs.now + blockSec + blockSec = s.srvs.now + blockSec * UInt32.ofNat (0 + 2) := by
    rw [UInt32.add_assoc]
    rfl
  rw [State.nextBlock_quiet, State.nextBlock_of_quiet env s _ rfl, State.wait, ← hnow]
  rfl

theorem State.nextBlock_wait (env : Env) (s : State) (n : Nat) :
    (s.wait env n).nextBlock env ⟨s.srvs.div, []⟩ = s.wait env (n + 1) := by
  have hnow : s.srvs.now + blockSec * UInt32.ofNat (n + 2) + blockSec =
      s.srvs.now + blockSec * UInt32.ofNat (n + 1 + 2) := by
    rw [show n + 1 + 2 = n + 2 + 1 by omega, UInt32.ofNat_add (n + 2) 1]
    grind
  rw [State.nextBlock_of_quiet env s _ rfl, State.wait, State.wait, ← hnow]
  rfl

/-- The withdrawals of a block name accounts that are on file. -/
def Operation.OnFile (env : Env) (s : State) : Operation → Prop
  | commitBlock => ∀ key tx, s.blk.get[key]? = some tx → (prepareBlock env s).considers key →
      (prepareBlock env s).onFile (ppiBbank key) tx.buser
  | _ => True

theorem Operation.OnFile.withdrawals (h : Operation.OnFile env s .commitBlock) :
    Withdrawals env (prepareBlock env s) s.blk.get.toList
      (commitGets env (prepareBlock env s)) := by
  have hblk := (prepareBlock_founds env s).blk
  have hrun := @commitGets_withdrawals env (prepareBlock env s) fun key tx htx =>
    h key tx (hblk ▸ htx)
  rwa [hblk] at hrun

/-- All operations keep the nodes and the records of the banks. -/
theorem Operation.filed {op : Operation} (hfiled : s.Filed) (honFile : op.OnFile env s)
    (h : op.run env s = some s') :
    s.srvs.nodes.size ≤ s'.srvs.nodes.size ∧ s'.Filed := by
  cases op with
  | process msg =>
      obtain ⟨hsize, hfiled', -⟩ := process_spec hfiled h
      exact ⟨hsize.ge, hfiled'⟩
  | commitBlock =>
      obtain rfl : Esc.commitBlock env s = s' := Option.some.inj h
      have hfounds := prepareBlock_founds env s
      have hshape := honFile.withdrawals.shape
      refine ⟨?_, (commitBlock_filed_iff env s).mpr (hshape.filed (hfounds.filed hfiled))⟩
      rw [commitBlock_size, hshape.size]
      exact hfounds.size
  | commitDividends =>
      have hcredits := commitDividends_credits h
      exact ⟨hcredits.size.ge, hcredits.filed hfiled⟩
  | commitDeposit =>
      obtain rfl : Esc.commitDeposit env s = s' := Option.some.inj h
      have hcredits := commitDeposit_credits env s
      exact ⟨hcredits.size.ge, hcredits.filed hfiled⟩
  | commitBankfee =>
      have hcredits := commitBankfee_credits h
      exact ⟨hcredits.size.ge, hcredits.filed hfiled⟩
  | nextBlock v =>
      obtain rfl : s.nextBlock env v = s' := Option.some.inj h
      refine ⟨(s.nextBlock_size env v).ge, fun b hb => ?_⟩
      rw [State.nextBlock_node, State.nextBlock_usr]
      exact hfiled b (s.nextBlock_size env v ▸ hb)

end Esc
