import Esc.Server.BankBooks
import Esc.Server.BlockSteps
import Esc.Server.ProcessMessage

/-!
# Withdrawals from another bank

A `GET` request names an account of another bank that has the key of the requester.
Its first commit locks the account for the requester, the next one after the lock
time moves all its funds. `Withdrawal` says this in terms of the record of the account.
`commit_block` reads the account file without checking that the account exists, so it
takes such a step only for an account on file.
-/

namespace Esc

open Lib

/-- The request is considered: both banks exist. -/
def State.considers (s : State) (key : UInt64) : Prop :=
  ppiAbank key ≠ 0 ∧ ppiBbank key ≠ 0 ∧ (ppiAbank key).toNat < s.srvs.nodes.size ∧
    (ppiBbank key).toNat < s.srvs.nodes.size

instance (s : State) (key : UInt64) : Decidable (s.considers key) :=
  inferInstanceAs (Decidable (_ ∧ _ ∧ _ ∧ _))

/-- The record admits the request: it has the key of the requester, is not locked at
present and holds more than the fee, after its dividend. -/
structure Admits (v : Servers) (u : User) (tx : Get) : Prop where
  pkey : u.pkey = tx.pkey
  time : u.time + lockTime ≤ v.now
  funds : 0 < (dividend v u 0).2.1.weight - txsGokFee (dividend v u 0).2.1.weight

/-- The account is locked for the requester. -/
def LockedFor (u : User) (abank : UInt16) (auser : UInt32) : Prop :=
  u.node = abank ∧ u.user = auser

/-- One withdrawal, decided on the record of the account it names. -/
inductive Withdrawal (env : Env) (s s' : State) (key : UInt64) (tx : Get) : Prop where
  | refused (hrefused : s.considers key → s.onFile (ppiBbank key) tx.buser ∧
      ¬ Admits s.srvs (s.record (ppiBbank key) tx.buser) tx) (h : SameLedger s s')
  | lock (hconsiders : s.considers key)
      (hadmits : Admits s.srvs (s.record (ppiBbank key) tx.buser) tx)
      (hother : ¬ LockedFor (s.record (ppiBbank key) tx.buser) (ppiAbank key) tx.auser)
      (h : Posting env s s' (ppiBbank key) tx.buser 0 (userCsum env.sha256
        (lockUser (dividend s.srvs (s.record (ppiBbank key) tx.buser) 0).2.1 (ppiAbank key)
          tx.auser s.srvs.now) (ppiBbank key) tx.buser))
      (hdeposit : ∀ k, s'.deposit.val k = s.deposit.val k)
  | empty (hconsiders : s.considers key)
      (hadmits : Admits s.srvs (s.record (ppiBbank key) tx.buser) tx)
      (hlocked : LockedFor (s.record (ppiBbank key) tx.buser) (ppiAbank key) tx.auser)
      (h : Posting env s s' (ppiBbank key) tx.buser
        (-(dividend s.srvs (s.record (ppiBbank key) tx.buser) 0).2.1.weight)
        (userCsum env.sha256 (emptyUser
          (dividend s.srvs (s.record (ppiBbank key) tx.buser) 0).2.1 s.srvs.now)
          (ppiBbank key) tx.buser))
      (hdeposit : ∀ k, s'.deposit.val k = (s.deposit.adjust (markedKey (ppiAbank key) tx.auser)
        (· + withdrawal (dividend s.srvs (s.record (ppiBbank key) tx.buser) 0).2.1.weight)).val k)

/-- The accounts of `s`, with an amount added to the weight of one node. -/
structure Reweighed (s s' : State) (b : UInt16) (delta : Int64) : Prop where
  now : s'.srvs.now = s.srvs.now
  div : s'.srvs.div = s.srvs.div
  size : s'.srvs.nodes.size = s.srvs.nodes.size
  node : s'.srvs.node b = { s.srvs.node b with
    weight := (s.srvs.node b).weight + delta
    changed := (s'.srvs.node b).changed }
  node_ne : ∀ b', b' ≠ b →
    s'.srvs.node b' = { s.srvs.node b' with changed := (s'.srvs.node b').changed }
  last : s'.last = s.last
  usr : s'.usr = s.usr
  msgUndo : s'.msgUndo = s.msgUndo
  blk : s'.blk = s.blk

section Reweighed

variable {env : Env} {s s₁ s₂ : State} {b : UInt16} {uid : UInt32} {delta amount : Int64} {u : User}

theorem SameAccounts.reweighed (h : SameAccounts s s₁) (b : UInt16) : Reweighed s s₁ b 0 where
  now := h.now
  div := h.div
  size := h.size
  node := by rw [Int64.add_zero]; exact h.node b
  node_ne b' _ := h.node b'
  last := h.last
  usr := h.usr
  msgUndo := h.msgUndo
  blk := h.blk

theorem Reweighed.same (h : Reweighed s s₁ b delta) (h' : SameAccounts s₁ s₂) :
    Reweighed s s₂ b delta where
  now := h'.now.trans h.now
  div := h'.div.trans h.div
  size := h'.size.trans h.size
  node := by rw [h'.node b, h.node]
  node_ne b' hb := by rw [h'.node b', h.node_ne b' hb]
  last := h'.last.trans h.last
  usr := h'.usr.trans h.usr
  msgUndo := h'.msgUndo.trans h.msgUndo
  blk := h'.blk.trans h.blk

theorem Reweighed.add (h : Reweighed s s₁ b delta) (hb : b.toNat < s.srvs.nodes.size)
    {f : Node → Node} (hf : ∀ n, f n = { n with weight := n.weight + amount }) :
    Reweighed s (s₁.modifyNode b f) b (delta + amount) where
  now := h.now
  div := h.div
  size := h.size
  node := by
    rw [State.node_modifyNode _ _ _ (h.size ▸ hb), hf, h.node, Int64.add_assoc]
  node_ne b' hb' := by
    rw [State.node_modifyNode_ne _ _ hb']
    exact h.node_ne b' hb'
  last := h.last
  usr := h.usr
  msgUndo := h.msgUndo
  blk := h.blk

/-- Noting a dividend and adding it to the node. -/
theorem SameAccounts.noteDividend (h : SameAccounts s s₁) (hb : b.toNat < s.srvs.nodes.size)
    (div fee : Int64) :
    Reweighed s (((s₁.logDividend b uid div).addFee b fee).modifyNode b fun n =>
      { n with weight := n.weight + paid div }) b (paid div) := by
  have hsame := (h.trans (s₁.logDividend_same b uid div)).trans
    (State.addFee_same _ b fee).toSameAccounts
  have hadd : Reweighed s _ b (0 + paid div) := (hsame.reweighed b).add hb fun _ => rfl
  rw [Int64.zero_add] at hadd
  exact hadd

/-- Taking funds from the node and adding them to a deposit. -/
theorem Reweighed.moveOut (h : Reweighed s s₁ b delta) (hb : b.toNat < s.srvs.nodes.size)
    (funds fee mass : Int64) (abank : UInt16) (auser : UInt32) :
    Reweighed s (((s₁.modifyNode b fun n => { n with weight := n.weight - funds }).addFee abank
      fee).addDeposit abank auser mass) b (delta + -funds) := by
  have htake : Reweighed s (s₁.modifyNode b fun n => { n with weight := n.weight - funds }) b
      (delta + -funds) := h.add hb fun n => by rw [Int64.sub_eq_add_neg]
  refine htake.same ?_
  constructor <;> intros <;> rfl

/-- Writing the record after its node was reweighed is a posting. -/
theorem Reweighed.posting
    (h : Reweighed s s₁ b (paid (dividend s.srvs (s.record b uid) 0).1 + amount))
    (hb : b.toNat < s.srvs.nodes.size) (hfile : s.onFile b uid)
    (hcsum : u.csum = (s.record b uid).csum)
    (hweight : u.weight = (dividend s.srvs (s.record b uid) 0).2.1.weight + amount)
    (hlpath : u.lpath = (s.record b uid).lpath)
    (hrpath : u.rpath = (dividend s.srvs (s.record b uid) 0).2.1.rpath)
    (hdiv : s₁.dividends =
      dividendEntry b uid (dividend s.srvs (s.record b uid) 0).1 ++ s.dividends) :
    Posting env s (s₁.rewriteUser env b uid u) b uid amount (userCsum env.sha256 u b uid) := by
  have hfile₁ : s₁.onFile b uid := by
    rw [State.onFile, h.usr]
    exact hfile
  refine ⟨hb, hfile, h.now, h.div, h.size, h.last, h.msgUndo, h.blk, ?_, ?_, ?_, rfl, hweight,
    hlpath, Or.inl hrpath, hdiv⟩
  · rw [State.rewriteUser_usr u hfile₁, h.usr, Table.write_eq_set _ _ hfile]
  · have hnode : (s₁.rewriteUser env b uid u).srvs.node b = { s₁.srvs.node b with
        hash := (s₁.srvs.node b).hash ^^^ u.csum ^^^ (userCsum env.sha256 u b uid).csum
        weight := (s₁.srvs.node b).weight + 0 } :=
      s₁.node_modifyNode b _ (h.size ▸ hb)
    rw [hnode, h.node, hcsum, Int64.add_zero]
  · intro b' hb'
    have hnode : (s₁.rewriteUser env b uid u).srvs.node b' = s₁.srvs.node b' :=
      s₁.node_modifyNode_ne _ hb'
    rw [hnode]
    exact h.node_ne b' hb'

end Reweighed

theorem State.pushGup_same (env : Env) (s : State) (b : UInt16) (uid : UInt32) (u : User)
    (delta : Int64) : SameLedger s (s.pushGup env b uid u delta) :=
  s.callOffice_same env b _

theorem GetPass.enter_same (p : GetPass) (b : UInt16) : SameLedger p.s (p.enter b).s := by
  rw [GetPass.enter]
  split
  · exact .refl _
  · exact p.s.saveUndo_same p.svid p.undo

section Decided

variable {env : Env} {s s₁ : State} {key : UInt64} {tx : Get}

/-- Locking the account, after its dividend has been booked. -/
theorem Reweighed.lock (h : Reweighed s s₁ (ppiBbank key)
      (paid (dividend s.srvs (s.record (ppiBbank key) tx.buser) 0).1))
    (hconsiders : s.considers key) (hfile : s.onFile (ppiBbank key) tx.buser)
    (hadmits : Admits s.srvs (s.record (ppiBbank key) tx.buser) tx)
    (hother : ¬ LockedFor (s.record (ppiBbank key) tx.buser) (ppiAbank key) tx.auser)
    (hdeposit : s₁.deposit = s.deposit) (hdividends : s₁.dividends = dividendEntry (ppiBbank key)
      tx.buser (dividend s.srvs (s.record (ppiBbank key) tx.buser) 0).1 ++ s.dividends) :
    let u := lockUser (dividend s.srvs (s.record (ppiBbank key) tx.buser) 0).2.1 (ppiAbank key)
      tx.auser s₁.srvs.now
    Withdrawal env s ((s₁.rewriteUser env (ppiBbank key) tx.buser u).pushGup env (ppiBbank key)
      tx.buser u 0) key tx := by
  intro u
  have hrecord := dividend_record s.srvs (s.record (ppiBbank key) tx.buser) 0
  have hlock : Reweighed s s₁ (ppiBbank key)
      (paid (dividend s.srvs (s.record (ppiBbank key) tx.buser) 0).1 + 0) := by
    rw [Int64.add_zero]
    exact h
  have hu : u = lockUser (dividend s.srvs (s.record (ppiBbank key) tx.buser) 0).2.1 (ppiAbank key)
      tx.auser s.srvs.now := by rw [← h.now]
  rw [hu]
  refine .lock hconsiders hadmits hother (Posting.trans (hlock.posting hconsiders.2.2.2 hfile
    ?_ ?_ ?_ rfl hdividends) (State.pushGup_same ..)) ?_
  · rw [lockUser, hrecord]
  · rw [Int64.add_zero]
    rfl
  · rw [lockUser, hrecord]
  · intro k
    rw [(State.pushGup_books ..).deposit]
    exact congrArg (Map.val · k) hdeposit

/-- Emptying the account, after its dividend has been booked. -/
theorem Reweighed.empty (h : Reweighed s s₁ (ppiBbank key)
      (paid (dividend s.srvs (s.record (ppiBbank key) tx.buser) 0).1))
    (hconsiders : s.considers key) (hfile : s.onFile (ppiBbank key) tx.buser)
    (hadmits : Admits s.srvs (s.record (ppiBbank key) tx.buser) tx)
    (hlocked : LockedFor (s.record (ppiBbank key) tx.buser) (ppiAbank key) tx.auser)
    (hdeposit : s₁.deposit = s.deposit) (hdividends : s₁.dividends = dividendEntry (ppiBbank key)
      tx.buser (dividend s.srvs (s.record (ppiBbank key) tx.buser) 0).1 ++ s.dividends)
    (fee : Int64) :
    let funds := (dividend s.srvs (s.record (ppiBbank key) tx.buser) 0).2.1.weight
    let s₂ := ((s₁.modifyNode (ppiBbank key) fun n => { n with weight := n.weight - funds }).addFee
      (ppiAbank key) fee).addDeposit (ppiAbank key) tx.auser (withdrawal funds)
    let u := emptyUser (dividend s.srvs (s.record (ppiBbank key) tx.buser) 0).2.1 s₂.srvs.now
    Withdrawal env s ((s₂.rewriteUser env (ppiBbank key) tx.buser u).pushGup env (ppiBbank key)
      tx.buser u funds) key tx := by
  intro funds s₂ u
  have hrecord := dividend_record s.srvs (s.record (ppiBbank key) tx.buser) 0
  have hempty : Reweighed s s₂ (ppiBbank key)
      (paid (dividend s.srvs (s.record (ppiBbank key) tx.buser) 0).1 + -funds) :=
    h.moveOut hconsiders.2.2.2 ..
  have hdeposit₂ : s₂.deposit = s.deposit.adjust (markedKey (ppiAbank key) tx.auser)
      (· + withdrawal funds) := by
    rw [← hdeposit]
    rfl
  have hu :
      u = emptyUser (dividend s.srvs (s.record (ppiBbank key) tx.buser) 0).2.1 s.srvs.now := by
    rw [← hempty.now]
  rw [hu]
  refine .empty hconsiders hadmits hlocked (Posting.trans (hempty.posting hconsiders.2.2.2 hfile
    ?_ ?_ ?_ rfl hdividends) (State.pushGup_same ..)) ?_
  · rw [emptyUser, hrecord]
  · rw [emptyUser, Int64.add_neg_eq_sub]
    exact (Int64.sub_self _).symm
  · rw [emptyUser, hrecord]
  · intro k
    rw [(State.pushGup_books ..).deposit]
    exact congrArg (Map.val · k) hdeposit₂

end Decided

/-- A request for an account on file is decided on the record of the account. -/
theorem getStep_withdrawal {env : Env} {p : GetPass} {key : UInt64} {tx : Get}
    (hfile : p.s.considers key → p.s.onFile (ppiBbank key) tx.buser) :
    Withdrawal env p.s (getStep env p key tx).s key tx := by
  rw [getStep]
  split
  · rename_i hskip
    refine .refused (fun h => ?_) (.refl _)
    obtain ⟨ha, hb, halt, hblt⟩ := h
    rcases hskip with h | h | h | h
    · exact absurd h ha
    · exact absurd h hb
    · exact absurd halt (Nat.not_lt.mpr h)
    · exact absurd hblt (Nat.not_lt.mpr h)
  rename_i hskip
  simp only [not_or, not_le] at hskip
  have hconsiders : p.s.considers key := hskip
  replace hfile := hfile hconsiders
  have henter := p.enter_same (ppiBbank key)
  have hdep := (p.enter_books (ppiBbank key)).deposit
  generalize p.enter (ppiBbank key) = q at *
  have hread : readUser (q.s.usr (ppiBbank key)) tx.buser env.junk =
      p.s.record (ppiBbank key) tx.buser := by
    rw [henter.usr]
    exact readUser_of_lt hfile _
  dsimp only
  rw [hread, henter.dividend, henter.now]
  split
  · rename_i hrefused
    refine .refused (fun _ => ⟨hfile, fun h => ?_⟩) henter
    rcases hrefused with hkey | htime
    · exact hkey h.pkey
    · exact absurd htime (UInt32.not_lt.mpr h.time)
  rename_i hadmitted
  rw [not_or, not_not, UInt32.not_lt] at hadmitted
  split
  · rename_i hfunds
    exact .refused (fun _ => ⟨hfile, fun h => absurd hfunds (Int64.not_le.mpr h.funds)⟩) henter
  rename_i hfunds
  have hadmits : Admits p.s.srvs (p.s.record (ppiBbank key) tx.buser) tx :=
    ⟨hadmitted.1, hadmitted.2, Int64.not_le.mp hfunds⟩
  have hrecord := dividend_record p.s.srvs (p.s.record (ppiBbank key) tx.buser) 0
  generalize hs₁ : State.modifyNode (State.addFee _ _ _) (ppiBbank key) _ = s₁
  have hweighed : Reweighed p.s s₁ (ppiBbank key)
      (paid (dividend p.s.srvs (p.s.record (ppiBbank key) tx.buser) 0).1) := by
    rw [← hs₁]
    exact henter.toSameAccounts.noteDividend hconsiders.2.2.2 _ _
  have hdeposit : s₁.deposit = p.s.deposit := by
    rw [← hs₁, ← hdep]
    rfl
  have hdividends : s₁.dividends = dividendEntry (ppiBbank key) tx.buser
      (dividend p.s.srvs (p.s.record (ppiBbank key) tx.buser) 0).1 ++ p.s.dividends := by
    rw [← hs₁, ← henter.dividends]
    rfl
  clear hs₁
  split
  · rename_i hother
    refine hweighed.lock hconsiders hfile hadmits (fun h => ?_) hdeposit hdividends
    rw [hrecord] at hother
    exact hother.elim (fun hne => hne h.1) fun hne => hne h.2
  · rename_i hlocked
    rw [not_or, not_not, not_not, hrecord] at hlocked
    exact hweighed.empty hconsiders hfile hadmits hlocked hdeposit hdividends _

theorem SameShape.considers {s s' : State} (h : SameShape s s') {key : UInt64} :
    s'.considers key ↔ s.considers key := by
  rw [State.considers, State.considers, h.size]

section Withdrawal

variable {env : Env} {s s₁ s₂ : State} {key : UInt64} {tx : Get}

theorem Withdrawal.same (h : Withdrawal env s s₁ key tx) (h' : SameLedger s₁ s₂) :
    Withdrawal env s s₂ key tx := by
  cases h with
  | refused hrefused h => exact .refused hrefused (h.trans h')
  | lock hconsiders hadmits hother h hdeposit =>
      exact .lock hconsiders hadmits hother (h.trans h') fun k =>
        (h'.deposit k).trans (hdeposit k)
  | empty hconsiders hadmits hlocked h hdeposit =>
      exact .empty hconsiders hadmits hlocked (h.trans h') fun k =>
        (h'.deposit k).trans (hdeposit k)

/-- The request locked the account, or emptied it after it had been locked. -/
structure Claimed (s s' : State) (b : UInt16) (uid : UInt32) (key : UInt64) (tx : Get) : Prop where
  considers : s.considers key
  bank : ppiBbank key = b
  user : tx.buser = uid
  admits : Admits s.srvs (s.record b uid) tx
  time : (s'.record b uid).time = s.srvs.now
  locked : LockedFor (s'.record b uid) (ppiAbank key) tx.auser
  funds : (s'.record b uid).weight = (dividend s.srvs (s.record b uid) 0).2.1.weight ∨
    LockedFor (s.record b uid) (ppiAbank key) tx.auser

theorem Admits.congr {v v' : Servers} {u : User} (h : Admits v' u tx) (hnow : v'.now = v.now)
    (hdiv : v'.div = v.div) : Admits v u tx := by
  obtain ⟨hpkey, htime, hfunds⟩ := h
  rw [(dividend_congr hnow hdiv u 0).2.2] at hfunds
  exact ⟨hpkey, hnow ▸ htime, hfunds⟩

/-- A record of the present block is locked. -/
theorem Admits.time_ne {v : Servers} {u : User} (h : Admits v u tx)
    (hwrap : v.now.toNat + lockTime.toNat < 2 ^ 32) : u.time ≠ v.now := by
  intro heq
  have htime := h.time
  rw [heq, UInt32.le_iff_toNat_le, UInt32.toNat_add, Nat.mod_eq_of_lt hwrap] at htime
  have hpos : 0 < lockTime.toNat := by decide
  omega

section Claimed

variable {b : UInt16} {uid : UInt32}

theorem Claimed.trans (h : Claimed s s₁ b uid key tx) (heq : s₂.record b uid = s₁.record b uid) :
    Claimed s s₂ b uid key tx where
  considers := h.considers
  bank := h.bank
  user := h.user
  admits := h.admits
  time := heq ▸ h.time
  locked := heq ▸ h.locked
  funds := heq ▸ h.funds

theorem Claimed.congr (h : Claimed s₁ s₂ b uid key tx) (hshape : SameShape s s₁)
    (heq : s₁.record b uid = s.record b uid) : Claimed s s₂ b uid key tx where
  considers := hshape.considers.mp h.considers
  bank := h.bank
  user := h.user
  admits := heq ▸ h.admits.congr hshape.now hshape.div
  time := h.time.trans hshape.now
  locked := h.locked
  funds := by
    rw [← heq, ← (dividend_congr hshape.now hshape.div _ 0).2.2]
    exact h.funds

/-- A claim dates the record, which was older before. -/
theorem Claimed.ne (h : Claimed s s₁ b uid key tx)
    (hwrap : s.srvs.now.toNat + lockTime.toNat < 2 ^ 32) : s₁.record b uid ≠ s.record b uid :=
  fun heq => h.admits.time_ne hwrap (heq ▸ h.time)

/-- An account is claimed once in a block. -/
theorem Claimed.not_again {key' : UInt64} {tx' : Get} (h : Claimed s s₁ b uid key tx)
    (hnow : s₁.srvs.now = s.srvs.now) (hwrap : s.srvs.now.toNat + lockTime.toNat < 2 ^ 32) :
    ¬ Claimed s₁ s₂ b uid key' tx' :=
  fun h' => h'.admits.time_ne (hnow ▸ hwrap) (h.time.trans hnow.symm)

/-- A withdrawal is refused and changes nothing, or it is a posting that claims the account
it names. -/
theorem Withdrawal.elim (h : Withdrawal env s s₁ key tx) :
    ((s.considers key → s.onFile (ppiBbank key) tx.buser ∧
        ¬ Admits s.srvs (s.record (ppiBbank key) tx.buser) tx) ∧ SameLedger s s₁) ∨
      Claimed s s₁ (ppiBbank key) tx.buser key tx ∧
        ∃ amount u, Posting env s s₁ (ppiBbank key) tx.buser amount u := by
  have hrecord := dividend_record s.srvs (s.record (ppiBbank key) tx.buser) 0
  cases h with
  | refused hrefused h => exact Or.inl ⟨hrefused, h⟩
  | lock hconsiders hadmits _ h =>
      refine Or.inr ⟨⟨hconsiders, rfl, rfl, hadmits, ?_, ?_, Or.inl ?_⟩, _, _, h⟩ <;>
        rw [h.record_self]
      · rfl
      · exact ⟨rfl, rfl⟩
      · rfl
  | empty hconsiders hadmits hlocked h =>
      refine Or.inr ⟨⟨hconsiders, rfl, rfl, hadmits, ?_, ?_, Or.inr hlocked⟩, _, _, h⟩ <;>
        rw [h.record_self]
      · rfl
      · rw [emptyUser, hrecord]
        exact hlocked

theorem Withdrawal.shape (h : Withdrawal env s s₁ key tx) : SameShape s s₁ := by
  obtain ⟨-, hsame⟩ | ⟨-, _, _, hpost⟩ := h.elim
  · exact hsame.toSameAccounts.shape
  · exact hpost.shape

theorem Withdrawal.account (h : Withdrawal env s s₁ key tx) (b : UInt16) (uid : UInt32) :
    s₁.record b uid = s.record b uid ∨ Claimed s s₁ b uid key tx := by
  obtain ⟨-, hsame⟩ | ⟨hclaimed, _, _, hpost⟩ := h.elim
  · exact Or.inl (hsame.record b uid)
  · by_cases hat : ppiBbank key = b ∧ tx.buser = uid
    · obtain ⟨rfl, rfl⟩ := hat
      exact Or.inr hclaimed
    · refine Or.inl (hpost.record_ne fun hi => hat ⟨hi.1.symm, ?_⟩)
      exact UInt32.toNat_inj.mp hi.2.symm

theorem Withdrawal.onFile (h : Withdrawal env s s₁ key tx) (hconsiders : s.considers key) :
    s.onFile (ppiBbank key) tx.buser := by
  obtain ⟨hrefused, -⟩ | ⟨-, _, _, hpost⟩ := h.elim
  · exact (hrefused hconsiders).1
  · exact hpost.onFile

/-- A request that is admitted claims its account. -/
theorem Withdrawal.claims (h : Withdrawal env s s₁ key tx) (hconsiders : s.considers key)
    (hadmits : Admits s.srvs (s.record (ppiBbank key) tx.buser) tx) :
    Claimed s s₁ (ppiBbank key) tx.buser key tx := by
  obtain ⟨hrefused, -⟩ | ⟨hclaimed, -⟩ := h.elim
  · exact absurd hadmits (hrefused hconsiders).2
  · exact hclaimed

end Claimed

/-- The withdrawals of a list, one after the other. -/
inductive Withdrawals (env : Env) (s : State) : List (UInt64 × Get) → State → Prop where
  | nil {s' : State} (h : SameLedger s s') : Withdrawals env s [] s'
  | snoc {gets : List (UInt64 × Get)} {s₁ s₂ : State} {key : UInt64} {tx : Get}
      (hrun : Withdrawals env s gets s₁) (hstep : Withdrawal env s₁ s₂ key tx) :
      Withdrawals env s (gets ++ [(key, tx)]) s₂

namespace Withdrawals

variable {gets : List (UInt64 × Get)}

theorem same (h : Withdrawals env s gets s₁) (h' : SameLedger s₁ s₂) :
    Withdrawals env s gets s₂ := by
  cases h with
  | nil h => exact .nil (h.trans h')
  | snoc hrun hstep => exact .snoc hrun (hstep.same h')

theorem shape (h : Withdrawals env s gets s₁) : SameShape s s₁ := by
  induction h with
  | nil h => exact h.toSameAccounts.shape
  | snoc _ hstep ih => exact ih.trans hstep.shape

theorem onFile (h : Withdrawals env s gets s₁) (hmem : (key, tx) ∈ gets)
    (hconsiders : s.considers key) : s.onFile (ppiBbank key) tx.buser := by
  induction h with
  | nil _ => exact absurd hmem List.not_mem_nil
  | @snoc gets s₁ s₂ key' tx' hrun hstep ih =>
      rcases List.mem_append.mp hmem with hmem | hmem
      · exact ih hmem
      · cases List.mem_singleton.mp hmem
        have hfile := hstep.onFile (hrun.shape.considers.mpr hconsiders)
        exact lt_of_lt_of_eq hfile (hrun.shape.files _)

/-- What the withdrawals did to one account: nothing, or one of them claimed it. A second
one of the same block finds the account locked. -/
theorem account (h : Withdrawals env s gets s₁)
    (hwrap : s.srvs.now.toNat + lockTime.toNat < 2 ^ 32) (b : UInt16) (uid : UInt32) :
    s₁.record b uid = s.record b uid ∨
      ∃ key tx, (key, tx) ∈ gets ∧ Claimed s s₁ b uid key tx := by
  induction h with
  | nil h => exact Or.inl (h.record b uid)
  | @snoc gets s₁ s₂ key tx hrun hstep ih =>
      obtain hsame | hclaimed := hstep.account b uid
      · obtain heq | ⟨key', tx', hmem, hclaimed⟩ := ih
        · exact Or.inl (hsame.trans heq)
        · exact Or.inr ⟨key', tx', List.mem_append_left _ hmem, hclaimed.trans hsame⟩
      · obtain heq | ⟨key', tx', -, hbefore⟩ := ih
        · exact Or.inr ⟨key, tx, List.mem_append_right _ List.mem_cons_self,
            hclaimed.congr hrun.shape heq⟩
        · exact absurd hclaimed (hbefore.not_again hrun.shape.now hwrap)

/-- A claim finds the account as it was before the withdrawals. -/
theorem fresh (h : Withdrawals env s gets s₁)
    (hwrap : s.srvs.now.toNat + lockTime.toNat < 2 ^ 32) {b : UInt16} {uid : UInt32}
    (hclaimed : Claimed s₁ s₂ b uid key tx) : s₁.record b uid = s.record b uid := by
  obtain heq | ⟨key', tx', -, hbefore⟩ := h.account hwrap b uid
  · exact heq
  · exact absurd hclaimed (hbefore.not_again h.shape.now hwrap)

/-- An account that a withdrawal changed stays changed. -/
theorem kept (h : Withdrawals env s gets s₁)
    (hwrap : s.srvs.now.toNat + lockTime.toNat < 2 ^ 32) (hstep : Withdrawal env s₁ s₂ key tx)
    {b : UInt16} {uid : UInt32} (hne : s₁.record b uid ≠ s.record b uid) :
    s₂.record b uid ≠ s.record b uid := by
  obtain hsame | hclaimed := hstep.account b uid
  · rwa [hsame]
  · exact absurd (h.fresh hwrap hclaimed) hne

/-- The account of an admitted request is changed. -/
theorem changed (h : Withdrawals env s gets s₁)
    (hwrap : s.srvs.now.toNat + lockTime.toNat < 2 ^ 32) (hmem : (key, tx) ∈ gets)
    (hconsiders : s.considers key)
    (hadmits : Admits s.srvs (s.record (ppiBbank key) tx.buser) tx) :
    s₁.record (ppiBbank key) tx.buser ≠ s.record (ppiBbank key) tx.buser := by
  induction h with
  | nil _ => exact absurd hmem List.not_mem_nil
  | @snoc gets s₁ s₂ key' tx' hrun hstep ih =>
      rcases List.mem_append.mp hmem with hmem | hmem
      · exact hrun.kept hwrap hstep (ih hmem)
      · cases List.mem_singleton.mp hmem
        by_cases hbefore : s₁.record (ppiBbank key) tx.buser = s.record (ppiBbank key) tx.buser
        · have hnow := hrun.shape.now
          have hclaimed := hstep.claims (hrun.shape.considers.mpr hconsiders)
            (hbefore.symm ▸ hadmits.congr hnow.symm hrun.shape.div.symm)
          exact (hclaimed.congr hrun.shape hbefore).ne hwrap
        · exact hrun.kept hwrap hstep hbefore

end Withdrawals

/-- The accounts of a bank that changed and whose dividend had the reserved value. -/
def missed (s s₁ : State) (b : UInt16) : Finset Nat :=
  (Finset.range (s.srvs.node b).users.toNat).filter fun i =>
    (s₁.usr b).get i ≠ (s.usr b).get i ∧ ¬ Plain s.srvs ((s.usr b).get i)

theorem missed_congr {b : UInt16} (h : ∀ i, (s₂.usr b).get i = (s₁.usr b).get i) :
    missed s s₂ b = missed s s₁ b :=
  Finset.filter_congr fun i _ => by rw [h i]

/-- A posting to an account that had not changed is missed if its dividend is. -/
theorem card_missed {b : UInt16} {uid : UInt32} {amount : Int64} {u : User}
    (hpost : Posting env s₁ s₂ b uid amount u) (huser : uid < (s.srvs.node b).users)
    (hfresh : s₁.record b uid = s.record b uid) (hne : s₂.record b uid ≠ s.record b uid) :
    Int64.ofNat (missed s s₂ b).card * noDividend =
      Int64.ofNat (missed s s₁ b).card * noDividend + unbooked s.srvs (s.record b uid) := by
  have hother : ∀ i, i ≠ uid.toNat → (s₂.usr b).get i = (s₁.usr b).get i :=
    fun i hi => hpost.record_ne fun hat => hi hat.2
  by_cases hplain : Plain s.srvs (s.record b uid)
  · have hmissed : missed s s₂ b = missed s s₁ b := by
      refine Finset.filter_congr fun i _ => ?_
      by_cases hi : i = uid.toNat
      · subst hi
        exact iff_of_false (fun h => h.2 hplain) fun h => h.2 hplain
      · rw [hother i hi]
    rw [hmissed, unbooked, if_pos hplain, Int64.add_zero]
  · have hnew : uid.toNat ∉ missed s s₁ b := fun h => (Finset.mem_filter.mp h).2.1 hfresh
    have hmissed : missed s s₂ b = insert uid.toNat (missed s s₁ b) := by
      ext i
      rw [missed, Finset.mem_insert, missed, Finset.mem_filter, Finset.mem_filter]
      by_cases hi : i = uid.toNat
      · subst hi
        exact iff_of_true ⟨Finset.mem_range.mpr (UInt32.lt_iff_toNat_lt.mp huser), hne, hplain⟩
          (Or.inl rfl)
      · rw [hother i hi]
        exact (or_iff_right hi).symm
    have hone : Int64.ofNat 1 = 1 := rfl
    rw [hmissed, Finset.card_insert_of_notMem hnew, Int64.ofNat_add, Int64.add_mul, hone,
      Int64.one_mul, unbooked, if_neg hplain]

/-- Withdrawals from counted accounts keep the hash of a bank, and its total but for the
dividends that they miss. -/
theorem Withdrawals.excess {gets : List (UInt64 × Get)} (h : Withdrawals env s gets s₁)
    (hwrap : s.srvs.now.toNat + lockTime.toNat < 2 ^ 32) {b : UInt16}
    (huser : ∀ uid, s₁.record b uid ≠ s.record b uid → uid < (s.srvs.node b).users) :
    s₁.excess b = s.excess b + Int64.ofNat (missed s s₁ b).card * noDividend ∧
      s₁.hashError b = s.hashError b := by
  induction h with
  | @nil s₁ h =>
      have hnone : missed s s₁ b = ∅ :=
        Finset.filter_eq_empty_iff.mpr fun i _ hi => hi.1 (by rw [h.usr])
      have hzero : Int64.ofNat 0 = 0 := rfl
      obtain ⟨hexcess, hhash⟩ := h.toSameAccounts.excess (b := b)
      rw [hexcess, hnone, Finset.card_empty, hzero, Int64.zero_mul, Int64.add_zero]
      exact ⟨rfl, hhash⟩
  | @snoc gets s₁ s₂ key tx hrun hstep ih =>
      obtain ⟨ihexcess, ihhash⟩ := ih fun uid hne => huser uid (hrun.kept hwrap hstep hne)
      obtain ⟨-, hsame⟩ | ⟨hclaimed, _, _, hpost⟩ := hstep.elim
      · obtain ⟨hexcess, hhash⟩ := hsame.toSameAccounts.excess (b := b)
        rw [hexcess, hhash, ihexcess, ihhash, missed_congr fun i => by rw [hsame.usr]]
        exact ⟨rfl, rfl⟩
      · by_cases hb : b = ppiBbank key
        · subst hb
          have hfresh := hrun.fresh hwrap hclaimed
          have hne := (hclaimed.congr hrun.shape hfresh).ne hwrap
          have hlt := huser tx.buser hne
          obtain ⟨hexcess, hhash⟩ := hpost.excess (by rw [hrun.shape.users]; exact hlt)
          rw [hexcess, hhash, ihexcess, ihhash, card_missed hpost hlt hfresh hne, hfresh,
            unbooked_congr hrun.shape.now hrun.shape.div, Int64.add_assoc]
          exact ⟨rfl, rfl⟩
        · obtain ⟨hexcess, hhash⟩ := hpost.excess_ne hb
          rw [hexcess, hhash, ihexcess, ihhash,
            missed_congr fun i => hpost.record_ne fun hat => hb hat.1]
          exact ⟨rfl, rfl⟩

/-- The books of a bank stay correct exactly if no dividend is missed. -/
theorem Withdrawals.booked_iff {gets : List (UInt64 × Get)} (h : Withdrawals env s gets s₁)
    (hwrap : s.srvs.now.toNat + lockTime.toNat < 2 ^ 32) {b : UInt16} (hbooked : s.Booked b)
    (huser : ∀ uid, s₁.record b uid ≠ s.record b uid → uid < (s.srvs.node b).users) :
    s₁.Booked b ↔
      ∀ uid, s₁.record b uid ≠ s.record b uid → Plain s.srvs (s.record b uid) := by
  obtain ⟨hexcess, hhash⟩ := h.excess hwrap huser
  obtain ⟨hzero, hhash₀⟩ := State.booked_iff.mp hbooked
  rw [hzero, Int64.zero_add] at hexcess
  have hcard : (missed s s₁ b).card < 2 ^ 63 := by
    have hle := Finset.card_filter_le (Finset.range (s.srvs.node b).users.toNat)
      fun i => (s₁.usr b).get i ≠ (s.usr b).get i ∧ ¬ Plain s.srvs ((s.usr b).get i)
    have hlt := (s.srvs.node b).users.toNat_lt
    rw [Finset.card_range] at hle
    rw [missed]
    omega
  rw [State.booked_iff, hexcess, hhash, hhash₀]
  constructor
  · intro hbooks uid hne
    have hempty := Finset.card_eq_zero.mp (ofNat_mul_noDividend hcard hbooks.1)
    by_contra hplain
    refine Finset.notMem_empty uid.toNat (hempty ▸ Finset.mem_filter.mpr ⟨?_, hne, hplain⟩)
    exact Finset.mem_range.mpr (UInt32.lt_iff_toNat_lt.mp (huser uid hne))
  · intro hplain
    have hempty : missed s s₁ b = ∅ := by
      refine Finset.filter_eq_empty_iff.mpr fun i hi hmissed => ?_
      have hnat : (UInt32.ofNat i).toNat = i := UInt32.toNat_ofNat_of_lt'
        (lt_trans (Finset.mem_range.mp hi) (s.srvs.node b).users.toNat_lt)
      have hrecord := hplain (UInt32.ofNat i)
      rw [State.record, State.record, hnat] at hrecord
      exact hmissed.2 (hrecord hmissed.1)
    have hzero : Int64.ofNat 0 = 0 := rfl
    rw [hempty, Finset.card_empty, hzero, Int64.zero_mul]
    exact ⟨rfl, rfl⟩

end Withdrawal

/-- The withdrawals of a block from accounts on file. -/
theorem commitGets_withdrawals {env : Env} {s : State}
    (hfile : ∀ key tx, s.blk.get[key]? = some tx → s.considers key →
      s.onFile (ppiBbank key) tx.buser) :
    Withdrawals env s s.blk.get.toList (commitGets env s) := by
  have hloop := Map.foldl_invariant (f := getStep env) (m := s.blk.get) (s := { s := s })
    (fun gets p => Withdrawals env s gets p.s) (.nil (.refl s)) ?_
  · rw [commitGets]
    split
    · exact hloop
    · exact hloop.same (State.saveUndo_same _ _ _)
  · intro gets key tx p _ htx hrun
    refine .snoc hrun (getStep_withdrawal fun hconsiders => ?_)
    exact hrun.shape.onFile (hfile key tx htx (hrun.shape.considers.mp hconsiders))

/-- The request names a record on file. If the record admits it, the record is an account
of the bank, and its dividend is booked. -/
structure State.HasTarget (s : State) (key : UInt64) (tx : Get) : Prop where
  onFile : s.onFile (ppiBbank key) tx.buser
  user : Admits s.srvs (s.record (ppiBbank key) tx.buser) tx →
    tx.buser < (s.srvs.node (ppiBbank key)).users
  plain : Admits s.srvs (s.record (ppiBbank key) tx.buser) tx →
    Plain s.srvs (s.record (ppiBbank key) tx.buser)

instance (v : Servers) (u : User) (tx : Get) : Decidable (Admits v u tx) :=
  decidable_of_iff (u.pkey = tx.pkey ∧ u.time + lockTime ≤ v.now ∧
      0 < (dividend v u 0).2.1.weight - txsGokFee (dividend v u 0).2.1.weight)
    ⟨fun h => ⟨h.1, h.2.1, h.2.2⟩, fun h => ⟨h.pkey, h.time, h.funds⟩⟩

instance (s : State) (key : UInt64) (tx : Get) : Decidable (s.HasTarget key tx) :=
  decidable_of_iff (tx.buser.toNat < (s.usr (ppiBbank key)).size ∧
      (Admits s.srvs (s.record (ppiBbank key) tx.buser) tx →
        tx.buser < (s.srvs.node (ppiBbank key)).users) ∧
      (Admits s.srvs (s.record (ppiBbank key) tx.buser) tx →
        Plain s.srvs (s.record (ppiBbank key) tx.buser)))
    ⟨fun h => ⟨h.1, h.2.1, h.2.2⟩, fun h => ⟨h.onFile, h.user, h.plain⟩⟩

/-- What the withdrawals of a block are for: each request is decided on the record that it
names, only named accounts of the banks change, and the books stay correct. -/
structure GetsExisting (env : Env) (s : State) : Prop where
  decided : Withdrawals env s s.blk.get.toList (commitGets env s)
  changed : ∀ b uid, (commitGets env s).record b uid ≠ s.record b uid →
    uid < (s.srvs.node b).users ∧
      ∃ key tx, s.blk.get[key]? = some tx ∧ ppiBbank key = b ∧ tx.buser = uid
  booked : ∀ b, s.Booked b → (commitGets env s).Booked b

namespace Sample

/-- An account of bank 2. -/
def target (pkey : Hash) (weight : Int64) : User where
  msid := 1
  pkey := pkey
  weight := weight
  lpath := 0x60000000
  rpath := 0x60000000

/-- The read buffer keeps the record that was read before. -/
def getEnv : Env where
  svid := 1
  sha256 _ := 0
  signOpenBatch2 _ := true
  findKey key := some key
  junk := target 9 3000

/-- Two banks with two accounts each. -/
def getState : State where
  srvs :=
    { now := 0x60000000
      nodes := Table.ofList
        [{}, { users := 2, weight := 2000000000000 }, { users := 2, weight := 8000 }] }
  last := { now := 0x5FFFFE00, nodes := Table.ofList [{}, { users := 2 }, { users := 2 }] }
  usr b :=
    if b = 1 then Table.ofList [target 7 1000000000000, target 9 1000000000000]
    else if b = 2 then Table.ofList [target 9 3000, target 8 5000]
    else Table.empty

/-- A request of an account of bank 1. -/
def getTx (auser buser : UInt32) : UserTxs where
  ttype := .get
  abank := 1
  auser := auser
  amsid := 1
  ttime := 0x60000000
  bbank := 2
  buser := buser

/-- The first account has another key than its target; the second one asks for an account
behind the last one. -/
def getMessage (buser : UInt32) : Message where
  svid := 1
  msid := 1
  now := 0x60000000
  txs := [getTx 0 0, getTx 1 buser]
  bounded := by simp [getTx, UserTxs.size, txslen]

end Sample

/-- The withdrawals of a block change only accounts that exist, decide on their records and
keep the books of the banks, if and only if every request has its target. -/
theorem commitGets_existing {env : Env} {s : State}
    (hwrap : s.srvs.now.toNat + lockTime.toNat < 2 ^ 32)
    (hbooked : ∀ key tx, s.blk.get[key]? = some tx → s.considers key → s.Booked (ppiBbank key)) :
    GetsExisting env s ↔
      ∀ key tx, s.blk.get[key]? = some tx → s.considers key → s.HasTarget key tx := by
  constructor
  · intro h key tx htx hconsiders
    have hmem : (key, tx) ∈ s.blk.get.toList := Map.mem_toList.mpr htx
    have hchanged := h.decided.changed hwrap hmem hconsiders
    have hplain := (h.decided.booked_iff hwrap (hbooked key tx htx hconsiders) fun uid hne =>
      (h.changed _ uid hne).1).mp (h.booked _ (hbooked key tx htx hconsiders))
    exact ⟨h.decided.onFile hmem hconsiders, fun hadmits => (h.changed _ _ (hchanged hadmits)).1,
      fun hadmits => hplain tx.buser (hchanged hadmits)⟩
  · intro htarget
    have hrun : Withdrawals env s s.blk.get.toList (commitGets env s) :=
      commitGets_withdrawals fun key tx htx hconsiders => (htarget key tx htx hconsiders).onFile
    -- Every account that changed was claimed by a request, so it is the target of one.
    have hclaimed : ∀ b uid, (commitGets env s).record b uid ≠ s.record b uid →
        uid < (s.srvs.node b).users ∧ Plain s.srvs (s.record b uid) ∧
          ∃ key tx, s.blk.get[key]? = some tx ∧ ppiBbank key = b ∧ tx.buser = uid := by
      intro b uid hne
      obtain heq | ⟨key, tx, hmem, hclaimed⟩ := hrun.account hwrap b uid
      · exact absurd heq hne
      · have htx := Map.mem_toList.mp hmem
        have hhas := htarget key tx htx hclaimed.considers
        obtain ⟨rfl, rfl⟩ := And.intro hclaimed.bank hclaimed.user
        exact ⟨hhas.user hclaimed.admits, hhas.plain hclaimed.admits, key, tx, htx, rfl, rfl⟩
    refine ⟨hrun, fun b uid hne => ?_, fun b hb => ?_⟩
    · obtain ⟨hlt, -, hnamed⟩ := hclaimed b uid hne
      exact ⟨hlt, hnamed⟩
    · exact (hrun.booked_iff hwrap hb fun uid hne => (hclaimed b uid hne).1).mpr fun uid hne =>
        (hclaimed b uid hne).2.1

/-- The second account may lock the account that has its key. -/
theorem commitGets_existing_lock :
    ∃ s rs, processMessage Sample.getEnv Sample.getState (Sample.getMessage 0) = .accept s rs ∧
      ((commitGets Sample.getEnv s).record 2 0).user = 1 ∧
      GetsExisting Sample.getEnv s := by
  obtain ⟨s, rs, haccept, htest⟩ := Outcome.exists_of_accepts
    (o := processMessage Sample.getEnv Sample.getState (Sample.getMessage 0))
    (p := fun s _ => decide (s.srvs.now.toNat + lockTime.toNat < 2 ^ 32 ∧
      (∀ e ∈ s.blk.get.toList, s.considers e.1 → s.Booked (ppiBbank e.1) ∧ s.HasTarget e.1 e.2) ∧
      ((commitGets Sample.getEnv s).record 2 0).user = 1)) (by decide +kernel)
  obtain ⟨hwrap, htarget, hlock⟩ := of_decide_eq_true htest
  have hboth : ∀ key tx, s.blk.get[key]? = some tx → s.considers key →
      s.Booked (ppiBbank key) ∧ s.HasTarget key tx :=
    fun key tx htx => htarget (key, tx) (Map.mem_toList.mpr htx)
  exact ⟨s, rs, haccept, hlock, (commitGets_existing hwrap fun key tx htx hconsiders =>
    (hboth key tx htx hconsiders).1).mpr fun key tx htx hconsiders =>
      (hboth key tx htx hconsiders).2⟩

/-- A request for an account that does not exist overwrites the account before it. -/
theorem commitGets_overwrites :
    ∃ s rs, processMessage Sample.getEnv Sample.getState (Sample.getMessage 2) = .accept s rs ∧
      (s.blk.get.toList.map fun e => (ppiBbank e.1, e.2.buser)) = [(2, 0), (2, 2)] ∧
      (s.srvs.node 2).users = 2 ∧ s.Booked 2 ∧
      (commitGets Sample.getEnv s).record 2 1 ≠ s.record 2 1 ∧
      ¬ (commitGets Sample.getEnv s).Booked 2 := by
  obtain ⟨s, rs, haccept, htest⟩ := Outcome.exists_of_accepts
    (o := processMessage Sample.getEnv Sample.getState (Sample.getMessage 2))
    (p := fun s _ => decide
      ((s.blk.get.toList.map fun e => (ppiBbank e.1, e.2.buser)) = [(2, 0), (2, 2)] ∧
      (s.srvs.node 2).users = 2 ∧ s.Booked 2 ∧
      (commitGets Sample.getEnv s).record 2 1 ≠ s.record 2 1 ∧
      ¬ (commitGets Sample.getEnv s).Booked 2)) (by decide +kernel)
  exact ⟨s, rs, haccept, of_decide_eq_true htest⟩

end Esc
