import Esc.Server.CommitBlock
import Esc.Server.Ledger

/-!
# What a block commit does to the accounts

Key changes and status votes of `commit_block` leave accounts and deposits as they are. A new bank
gets an owner account, and the node table and the account files grow.
-/

namespace Esc

open Lib

/-- The node table and the files have at most grown; the requests are as they were. -/
structure Extends (s s' : State) : Prop where
  now : s'.srvs.now = s.srvs.now
  div : s'.srvs.div = s.srvs.div
  size : s.srvs.nodes.size ≤ s'.srvs.nodes.size
  banks : s.srvs.nodes.size ≤ bankMax → s'.srvs.nodes.size ≤ bankMax
  files : ∀ b, (s.usr b).size ≤ (s'.usr b).size
  filed : s.Filed → s'.Filed
  owned : ∀ b : UInt16, s.srvs.nodes.size ≤ b.toNat → b.toNat < s'.srvs.nodes.size → s'.onFile b 0
  blk : s'.blk = s.blk

theorem SameShape.extends {s s' : State} (h : SameShape s s') : Extends s s' where
  now := h.now
  div := h.div
  size := h.size.ge
  banks hb := h.size ▸ hb
  files b := (h.files b).ge
  filed := h.filed
  owned _ hle hlt := absurd hlt (not_lt.mpr (h.size ▸ hle))
  blk := h.blk

namespace Extends

variable {s s₁ s₂ : State}

theorem refl (s : State) : Extends s s := (SameShape.refl s).extends

theorem onFile (h : Extends s s₁) {b : UInt16} {uid : UInt32} (hfile : s.onFile b uid) :
    s₁.onFile b uid :=
  lt_of_lt_of_le hfile (h.files b)

theorem trans (h : Extends s s₁) (h' : Extends s₁ s₂) : Extends s s₂ where
  now := h'.now.trans h.now
  div := h'.div.trans h.div
  size := h.size.trans h'.size
  banks hb := h'.banks (h.banks hb)
  files b := (h.files b).trans (h'.files b)
  filed hf := h'.filed (h.filed hf)
  owned b hle hlt := by
    by_cases hb : b.toNat < s₁.srvs.nodes.size
    · exact h'.onFile (h.owned b hle hb)
    · exact h'.owned b (not_lt.mp hb) hlt
  blk := h'.blk.trans h.blk

end Extends

/-- The bank is in the node table and its file holds the account. -/
def State.holds (s : State) (b : UInt16) (uid : UInt32) : Prop :=
  b.toNat < s.srvs.nodes.size ∧ s.onFile b uid

/-- Nothing happened to accounts and deposits. -/
structure SameBooks (s s' : State) : Prop extends SameShape s s' where
  usr : s'.usr = s.usr
  deposit : s'.deposit = s.deposit
  msha : ∀ b, (s'.srvs.node b).msha = (s.srvs.node b).msha

theorem SameBooks.refl (s : State) : SameBooks s s := ⟨.refl s, rfl, rfl, fun _ => rfl⟩

theorem SameBooks.trans {s s₁ s₂ : State} (h : SameBooks s s₁) (h' : SameBooks s₁ s₂) :
    SameBooks s s₂ :=
  ⟨h.toSameShape.trans h'.toSameShape, h'.usr.trans h.usr, h'.deposit.trans h.deposit,
    fun b => (h'.msha b).trans (h.msha b)⟩

/-- What arrives of a withdrawn balance: both fees are taken from it. -/
def withdrawal (weight : Int64) : Int64 :=
  weight - txsGokFee weight - txsLngFee (weight - txsGokFee weight)

/-- A bank gets an owner account on top of what it had: the last argument is the money that is paid
out. -/
inductive OwnerStep : State → State → Int → Prop where
  | intro {s s' : State} {b : UInt16} {u : User} {old mass : Int64} (h : Extends s s')
      (hmass : 0 ≤ mass.toInt) (husr : s'.usr = Function.update s.usr b ((s.usr b).write 0 u))
      (hold : old = ((s.usr b).get 0).weight ∨ old = 0) (hweight : u.weight = old + mass)
      (hrpath : u.rpath = s.srvs.now) (hdep : s'.deposit = s.deposit) : OwnerStep s s' mass.toInt

theorem OwnerStep.extends {s s' : State} {n : Int} (h : OwnerStep s s' n) : Extends s s' := by
  cases h with
  | intro h => exact h

theorem SameLedger.books {s s' : State} (h : SameLedger s s') (hdep : s'.deposit = s.deposit) :
    SameBooks s s' :=
  ⟨h.toSameAccounts.shape, h.usr, hdep, fun b => by rw [h.node b]⟩

theorem State.node_modifyNode_cases (s : State) (b b' : UInt16) (f : Node → Node) :
    (s.modifyNode b f).srvs.node b' = s.srvs.node b' ∨
      (s.modifyNode b f).srvs.node b' = f (s.srvs.node b') := by
  have hget := Table.get_modify s.srvs.nodes b.toNat b'.toNat f
  change (s.modifyNode b f).srvs.node b' = _ at hget
  rw [hget]
  split
  · rename_i hb
    rw [← hb.1]
    exact Or.inr rfl
  · exact Or.inl rfl

theorem State.modifyNode_books (s : State) (b : UInt16) {f : Node → Node}
    (hf : ∀ n, (f n).users = n.users ∧ (f n).msha = n.msha) : SameBooks s (s.modifyNode b f) := by
  refine ⟨⟨rfl, rfl, rfl, fun b' => ?_, fun _ => rfl, rfl, rfl⟩, rfl, rfl, fun b' => ?_⟩ <;>
    obtain heq | heq := s.node_modifyNode_cases b b' f <;> rw [heq]
  · exact (hf _).1
  · exact (hf _).2

theorem commitKeys_books (s : State) : SameBooks s (commitKeys s) :=
  Map.foldl_invariant (fun _ s₁ => SameBooks s s₁) (.refl s) fun _ _ node s₁ _ _ h =>
    h.trans (s₁.modifyNode_books node fun _ => ⟨rfl, rfl⟩)

theorem Votes.close_books (v : Votes) (put : UInt32 → UInt32 → UInt32) :
    SameBooks v.s (v.close put).s :=
  v.s.modifyNode_books v.lbbank fun _ => ⟨rfl, rfl⟩

theorem Votes.enter_books (v : Votes) (put : UInt32 → UInt32 → UInt32) (bbank : UInt16) :
    SameBooks v.s (v.enter put bbank).s := by
  rw [Votes.enter]
  split
  · exact .refl v.s
  · exact v.close_books put

theorem statusStep_books (put : UInt32 → UInt32 → UInt32) (v : Votes) (vote : UInt64 × UInt32) :
    SameBooks v.s (statusStep put v vote).s := by
  have henter := v.enter_books put (ppiBbank vote.1)
  rw [statusStep]
  generalize v.enter put (ppiBbank vote.1) = v₁ at henter
  have hown : SameBooks v₁.s (if ppiAbank vote.1 = ppiBbank vote.1 then
      v₁.s.modifyNode (ppiBbank vote.1) fun n =>
        { n with status := put n.status (vote.2 &&& 0xFFF8) }
      else v₁.s) := by
    split
    · exact v₁.s.modifyNode_books _ fun _ => ⟨rfl, rfl⟩
    · exact .refl v₁.s
  generalize (if ppiAbank vote.1 = ppiBbank vote.1 then
    v₁.s.modifyNode (ppiBbank vote.1) fun n => { n with status := put n.status (vote.2 &&& 0xFFF8) }
    else v₁.s) = s₂ at hown
  have hboth := henter.trans hown
  split
  · exact hboth.trans (s₂.modifyNode_books _ fun _ => ⟨rfl, rfl⟩)
  · exact hboth

theorem Votes.count_books (v : Votes) (put : UInt32 → UInt32 → UInt32) (votes : Map UInt64 UInt32) :
    SameBooks v.s (v.count put votes).s := by
  have hloop : SameBooks v.s (votes.toList.reverse.foldl (statusStep put) v).s :=
    foldl_invariant (fun _ (v₁ : Votes) => SameBooks v.s v₁.s) (.refl v.s)
      fun _ vote _ v₁ _ h => h.trans (statusStep_books put v₁ vote)
  rw [Votes.count]
  dsimp only
  split
  · exact hloop
  · exact hloop.trans (Votes.close_books _ put)

theorem commitStatus_books (s : State) : SameBooks s (commitStatus s) :=
  (Votes.count_books { s := s } _ _).trans (Votes.count_books _ _ _)

theorem State.putUser_usr (s : State) (peer : UInt16) (uid : UInt32) (u : User) :
    (s.putUser peer uid u).usr = Function.update s.usr peer ((s.usr peer).write uid.toNat u) :=
  rfl

theorem State.size_putUser (s : State) (peer b : UInt16) (uid : UInt32) (u : User) :
    ((s.putUser peer uid u).usr b).size =
      if b = peer then max (s.usr peer).size (uid.toNat + 1) else (s.usr b).size := by
  rw [State.putUser_usr]
  split
  · rename_i hb
    rw [hb, Function.update_self, Table.size_write]
  · rename_i hb
    rw [Function.update_of_ne hb]

/-- `put_user` counts a record that it appends. -/
theorem State.putUser_extends (s : State) (peer : UInt16) (uid : UInt32) (u : User) :
    Extends s (s.putUser peer uid u) := by
  refine ⟨rfl, rfl, le_rfl, fun h => h, fun b => ?_, fun hfiled b hb => ?_, ?_, rfl⟩
  · rw [State.size_putUser]
    split
    · rename_i hb
      rw [hb]
      exact le_max_left _ _
    · exact le_rfl
  · have hold := hfiled b hb
    rw [State.size_putUser]
    by_cases hpeer : b = peer
    · subst hpeer
      have hnode : (s.putUser b uid u).srvs.node b = { s.srvs.node b with
          users := ((s.accounts b).putUser u uid).users
          changed := ((s.accounts b).putUser u uid).changed } :=
        s.node_modifyNode b _ hb
      rw [hnode, if_pos rfl]
      show (if (s.srvs.node b).users ≤ uid then uid + 1 else (s.srvs.node b).users).toNat ≤ _
      split
      · rw [UInt32.toNat_add]
        exact (Nat.mod_le _ _).trans (le_max_right _ _)
      · exact hold.trans (le_max_left _ _)
    · have hnode : (s.putUser peer uid u).srvs.node b = s.srvs.node b :=
        s.node_modifyNode_ne _ hpeer
      rw [hnode, if_neg hpeer]
      exact hold
  · exact fun b hle hlt => absurd hlt (not_lt.mpr hle)

/-- A takeover pays the bank's mass to its owner account. -/
theorem State.putNode_step (env : Env) (s : State) (ou : User) (peer : UInt16) :
    OwnerStep s (s.putNode env ou peer) (bankMinUmass + bankMinTmass).toInt := by
  have hread : readUser (s.usr peer) 0 {} = (s.usr peer).get 0 := readUser_default _ 0
  have hhash := s.modifyNode_books peer (f := fun n =>
    { n with hash := n.hash ^^^ (readUser (s.usr peer) 0 {}).csum }) fun _ => ⟨rfl, rfl⟩
  have hundo := hhash.trans ((State.saveUndo_same _ peer
    ((∅ : Map UInt32 User).insert 0 (readUser (s.usr peer) 0 {}))).books rfl)
  rw [State.putNode]
  generalize State.saveUndo _ _ _ _ = s₂ at hundo
  have hlast := fun (u : User) => (s₂.putUser peer 0 u).modifyNode_books peer (f := fun n =>
    { n with
      hash := n.hash ^^^ u.csum
      mtim := (s₂.putUser peer 0 u).srvs.now }) fun _ => ⟨rfl, rfl⟩
  refine .intro (b := peer) (u := initUser env.sha256 (s₂.srvs.node 0).msha peer 0
    ((readUser (s.usr peer) 0 {}).weight + bankMinUmass + bankMinTmass) ou.pkey s₂.srvs.now)
    ((hundo.extends.trans (s₂.putUser_extends peer 0 _)).trans (hlast _).extends) (by decide)
    ?_ (Or.inl rfl) ?_ ?_ hundo.deposit
  · show Function.update s₂.usr peer ((s₂.usr peer).write 0 _) = _
    rw [hundo.usr]
  · rw [initUser_weight, hread, Int64.add_assoc]
  · rw [initUser_rpath, hundo.now]

theorem State.size_pushNode (s : State) (n : Node) :
    (s.pushNode n).srvs.nodes.size = s.srvs.nodes.size + 1 :=
  max_eq_right (Nat.le_succ _)

theorem State.pushNode_filed {s : State} {n : Node} (hn : n.users = 0) (h : s.Filed) :
    (s.pushNode n).Filed := by
  intro b hb
  rw [State.size_pushNode] at hb
  by_cases hlt : b.toNat < s.srvs.nodes.size
  · have hnode : (s.pushNode n).srvs.node b = s.srvs.node b := Table.get_write_ne _ _ hlt.ne
    rw [hnode]
    exact h b hlt
  · have hnode : (s.pushNode n).srvs.node b = n := by
      have heq : b.toNat = s.srvs.nodes.size := by omega
      rw [Servers.node, heq]
      exact Table.get_write_self _ _ _
    rw [hnode, hn]
    exact Nat.zero_le _

/-- A new bank has the bank's mass on its owner account. -/
theorem State.addNode_step (env : Env) (s : State) (ou : User)
    (h : s.srvs.nodes.size < bankMax - 1) :
    OwnerStep s (s.addNode env ou) (bankMinUmass + bankMinTmass).toInt ∧
      (s.addNode env ou).srvs.nodes.size = s.srvs.nodes.size + 1 := by
  rw [bankMax] at h
  have hpeer : (UInt16.ofNat s.srvs.nodes.size).toNat = s.srvs.nodes.size := by
    rw [UInt16.toNat_ofNat']
    omega
  rw [State.addNode]
  generalize hnn : initNodeHash env.sha256 _ _ = nn
  have hzero : nn.users = 0 := by
    rw [← hnn]
    rfl
  clear hnn
  generalize UInt16.ofNat s.srvs.nodes.size = peer at hpeer
  generalize hnu : initUser env.sha256 _ _ _ _ _ _ = nu
  have hput := (s.pushNode nn).putUser_extends peer 0 nu
  have hbooks := ((s.pushNode nn).putUser peer 0 nu).modifyNode_books peer (f := fun n =>
    { n with weight := nu.weight, hash := nu.csum }) fun _ => ⟨rfl, rfl⟩
  have hsize := s.size_pushNode nn
  have hextends : Extends s (((s.pushNode nn).putUser peer 0 nu).modifyNode peer fun n =>
      { n with weight := nu.weight, hash := nu.csum }) := by
    refine ⟨rfl, rfl, ?_, fun _ => ?_, hput.files, ?_, fun b hle hlt => ?_, rfl⟩
    · exact (Nat.le_succ _).trans hsize.ge
    · refine hsize.le.trans ?_
      rw [bankMax]
      omega
    · exact fun hfiled => hbooks.filed (hput.filed (State.pushNode_filed hzero hfiled))
    · have heq : b = peer := by
        apply UInt16.toNat_inj.mp
        have hb : b.toNat < s.srvs.nodes.size + 1 := lt_of_lt_of_eq hlt hsize
        omega
      refine hbooks.toSameShape.onFile ?_
      rw [State.onFile, State.size_putUser, if_pos heq]
      exact lt_of_lt_of_le (Nat.lt_succ_self _) (le_max_right _ _)
  refine ⟨@OwnerStep.intro s _ peer nu 0 _ ?_ (by decide) rfl (Or.inr rfl) ?_ ?_ rfl, hsize⟩
  · exact ⟨hextends.now, hextends.div, hextends.size, hextends.banks, hextends.files,
      hextends.filed, hextends.owned, hextends.blk⟩
  · rw [← hnu, initUser_weight, Int64.zero_add]
  · rw [← hnu, initUser_rpath]
    rfl

theorem State.rewriteUser_usr {env : Env} {s : State} {b : UInt16} {uid : UInt32} (u : User)
    (h : s.onFile b uid) : (s.rewriteUser env b uid u).usr =
      Function.update s.usr b ((s.usr b).write uid.toNat (userCsum env.sha256 u b uid)) := by
  have hindex : tailIndex (s.usr b) uid = uid.toNat := if_pos h
  show Function.update s.usr b ((s.usr b).write (tailIndex (s.usr b) uid) _) = _
  rw [hindex]

theorem State.pushGup_books (env : Env) (s : State) (b : UInt16) (uid : UInt32) (u : User)
    (delta : Int64) : SameBooks s (s.pushGup env b uid u delta) := by
  obtain ⟨o, ho⟩ := s.callOffice_eq env b fun o =>
    { o with gup := o.gup ++ [⟨uid, u.node, u.user, u.time, delta⟩] }
  rw [State.pushGup, ho]
  exact ⟨⟨rfl, rfl, rfl, fun _ => rfl, fun _ => rfl, rfl, rfl⟩, rfl, rfl, fun _ => rfl⟩

theorem GetPass.enter_books (p : GetPass) (b : UInt16) : SameBooks p.s (p.enter b).s := by
  rw [GetPass.enter]
  split
  · exact .refl _
  · exact (p.s.saveUndo_same p.svid p.undo).books rfl

end Esc
