import Esc.Server.Commits

/-!
# Postings

The functions that end a block change accounts one at a time: each change pays the
dividend if it is due, adds an amount, and keeps checksum and node in step with the
record. `Posting` is such a change; `AccountStep` is one in which the amount is a
pending deposit. What the block-end functions do is a sequence of these steps, so a
property of the ledger has to be checked for a step only.
-/

namespace Esc

open Lib

variable {env : Env} {s s' s₁ s₂ : State} {b svid : UInt16} {uid : UInt32} {u : User}
  {amount : Int64}

/-- The record of an account. -/
def State.record (s : State) (b : UInt16) (uid : UInt32) : User := (s.usr b).get uid.toNat

/-- The file of the bank holds the account. -/
def State.onFile (s : State) (b : UInt16) (uid : UInt32) : Prop := uid.toNat < (s.usr b).size

/-- Two states with the same accounts and nodes. They may differ in changed bits, undo
files, bank fees, deposits, calls on the office and the record of dividends. -/
structure SameAccounts (s s' : State) : Prop where
  now : s'.srvs.now = s.srvs.now
  div : s'.srvs.div = s.srvs.div
  size : s'.srvs.nodes.size = s.srvs.nodes.size
  node : ∀ b, s'.srvs.node b = { s.srvs.node b with changed := (s'.srvs.node b).changed }
  last : s'.last = s.last
  usr : s'.usr = s.usr
  msgUndo : s'.msgUndo = s.msgUndo
  blk : s'.blk = s.blk

namespace SameAccounts

theorem refl (s : State) : SameAccounts s s := by
  constructor <;> intros <;> rfl

theorem trans (h : SameAccounts s s₁) (h' : SameAccounts s₁ s₂) : SameAccounts s s₂ where
  now := h'.now.trans h.now
  div := h'.div.trans h.div
  size := h'.size.trans h.size
  node b := by rw [h'.node b, h.node b]
  last := h'.last.trans h.last
  usr := h'.usr.trans h.usr
  msgUndo := h'.msgUndo.trans h.msgUndo
  blk := h'.blk.trans h.blk

theorem record (h : SameAccounts s s₁) (b : UInt16) (uid : UInt32) :
    s₁.record b uid = s.record b uid := by
  rw [State.record, State.record, h.usr]

theorem dividend (h : SameAccounts s s₁) (u : User) (fee : Int64) :
    Esc.dividend s₁.srvs u fee = Esc.dividend s.srvs u fee :=
  (dividend_congr h.now h.div u fee).2.2

end SameAccounts

/-- The deposits and the dividends are the same, too. A zero entry is no deposit. -/
structure SameLedger (s s' : State) : Prop extends SameAccounts s s' where
  deposit : ∀ k, s'.deposit.val k = s.deposit.val k
  dividends : s'.dividends = s.dividends

theorem SameLedger.refl (s : State) : SameLedger s s := ⟨.refl s, fun _ => rfl, rfl⟩

theorem SameLedger.trans (h : SameLedger s s₁) (h' : SameLedger s₁ s₂) : SameLedger s s₂ :=
  ⟨h.toSameAccounts.trans h'.toSameAccounts, fun k => (h'.deposit k).trans (h.deposit k),
    h'.dividends.trans h.dividends⟩

theorem State.addFee_same (s : State) (b : UInt16) (fee : Int64) :
    SameLedger s (s.addFee b fee) := by
  refine ⟨?_, fun _ => rfl, rfl⟩
  constructor <;> intros <;> rfl

theorem State.logDividend_same (s : State) (b : UInt16) (uid : UInt32) (div : Int64) :
    SameAccounts s (s.logDividend b uid div) := by
  constructor <;> intros <;> rfl

theorem State.callOffice_eq (env : Env) (s : State) (b : UInt16) (f : Office → Office) :
    ∃ o, s.callOffice env b f = { s with office := o } := by
  rw [State.callOffice]
  split
  · exact ⟨_, rfl⟩
  · exact ⟨s.office, rfl⟩

theorem State.callOffice_same (env : Env) (s : State) (b : UInt16) (f : Office → Office) :
    SameLedger s (s.callOffice env b f) := by
  obtain ⟨o, ho⟩ := s.callOffice_eq env b f
  rw [ho]
  refine ⟨?_, fun _ => rfl, rfl⟩
  constructor <;> intros <;> rfl

theorem State.saveUndo_same (s : State) (b : UInt16) (undo : Map UInt32 User) :
    SameLedger s (s.saveUndo b undo 0) := by
  refine ⟨⟨rfl, rfl, rfl, ?_, rfl, rfl, rfl, rfl⟩, fun _ => rfl, rfl⟩
  intro b'
  have hget := Table.get_modify s.srvs.nodes b.toNat b'.toNat fun _ =>
    (Esc.saveUndo (s.srvs.node b) (s.und s.srvs.now b) undo 0).1
  change (s.saveUndo b undo 0).srvs.node b' = _ at hget
  rw [hget]
  split
  · rename_i hb
    have heq : b' = b := UInt16.toNat_inj.mp hb.1
    subst heq
    have husers : (if (s.srvs.node b').users ≤ 0 then 0 else (s.srvs.node b').users) =
        (s.srvs.node b').users := by
      split
      · rename_i hle
        exact (UInt32.le_antisymm hle (UInt32.le_iff_toNat_le.mpr (Nat.zero_le _))).symm
      · rfl
    rw [saveUndo_node, husers]
  · rfl

theorem State.saveUndo_bankFee (s : State) (b : UInt16) (undo : Map UInt32 User) (users : UInt32) :
    (s.saveUndo b undo users).bankFee = s.bankFee := rfl

theorem State.bookUser_bankFee (env : Env) (s : State) (b : UInt16) (uid : UInt32) (u : User)
    (delta : Int64) (write : Table User → UInt32 → User → Table User) :
    (s.bookUser env b uid u delta write).bankFee = s.bankFee := rfl

/-- The accounts and deposits of `s`, with the dividend of one account noted. -/
structure Noted (s s' : State) (b : UInt16) (uid : UInt32) : Prop extends SameAccounts s s' where
  deposit : ∀ k, s'.deposit.val k = s.deposit.val k
  dividends : s'.dividends =
    dividendEntry b uid (dividend s.srvs (s.record b uid) 0).1 ++ s.dividends

theorem SameLedger.noted (h : SameLedger s s₁) (b : UInt16) (uid : UInt32) :
    Noted s (s₁.logDividend b uid (dividend s.srvs (s.record b uid) 0).1) b uid :=
  ⟨h.toSameAccounts.trans (s₁.logDividend_same b uid _), h.deposit, by rw [← h.dividends]; rfl⟩

theorem Noted.trans (h : Noted s s₁ b uid) (h' : SameLedger s₁ s₂) : Noted s s₂ b uid :=
  ⟨h.toSameAccounts.trans h'.toSameAccounts, fun k => (h'.deposit k).trans (h.deposit k),
    h'.dividends.trans h.dividends⟩

/-- Rewriting the tail of a record that was read from the file replaces the record. -/
theorem writeTail_eq_set {file : Table User} (h : uid.toNat < file.size)
    (hu : { file.get uid.toNat with rpath := u.rpath, weight := u.weight, csum := u.csum } = u) :
    writeTail file uid u = file.set uid.toNat u := by
  rw [writeTail, tailIndex, if_pos h, hu, file.write_eq_set u h]

theorem writeStat_eq_set {file : Table User} (h : uid.toNat < file.size)
    (hu : { file.get uid.toNat with
      stat := u.stat, rpath := u.rpath, weight := u.weight, csum := u.csum } = u) :
    writeStat file uid u = file.set uid.toNat u := by
  rw [writeStat, tailIndex, if_pos h, hu, file.write_eq_set u h]

/-- The account record `u` is written with the amount and the dividend that is due. -/
structure Posting (env : Env) (s s' : State) (b : UInt16) (uid : UInt32) (amount : Int64)
    (u : User) : Prop where
  bank : b.toNat < s.srvs.nodes.size
  onFile : s.onFile b uid
  now : s'.srvs.now = s.srvs.now
  div : s'.srvs.div = s.srvs.div
  size : s'.srvs.nodes.size = s.srvs.nodes.size
  last : s'.last = s.last
  msgUndo : s'.msgUndo = s.msgUndo
  blk : s'.blk = s.blk
  usr : s'.usr = Function.update s.usr b ((s.usr b).set uid.toNat u)
  node : s'.srvs.node b = { s.srvs.node b with
    weight := (s.srvs.node b).weight + (paid (dividend s.srvs (s.record b uid) 0).1 + amount)
    hash := (s.srvs.node b).hash ^^^ (s.record b uid).csum ^^^ u.csum
    changed := (s'.srvs.node b).changed }
  node_ne : ∀ b', b' ≠ b →
    s'.srvs.node b' = { s.srvs.node b' with changed := (s'.srvs.node b').changed }
  csum : u.csum = csumOf env.sha256 u b uid
  weight : u.weight = (dividend s.srvs (s.record b uid) 0).2.1.weight + amount
  lpath : u.lpath = (s.record b uid).lpath
  rpath : u.rpath = (dividend s.srvs (s.record b uid) 0).2.1.rpath ∨ u.rpath = s.srvs.now
  dividends : s'.dividends =
    dividendEntry b uid (dividend s.srvs (s.record b uid) 0).1 ++ s.dividends

/-- A posted account is not due. -/
theorem Posting.not_due (h : Posting env s s' b uid amount u) : ¬ dividendDue s.srvs u := by
  rintro ⟨hrpath, hlpath⟩
  rcases h.rpath with heq | heq
  · refine not_due_dividend s.srvs (s.record b uid) 0 ⟨heq ▸ hrpath, ?_⟩
    rw [dividend_record]
    exact h.lpath ▸ hlpath
  · rw [heq] at hrpath
    exact UInt32.lt_irrefl _ (UInt32.lt_of_lt_of_le hrpath s.srvs.periodStart_le)

/-- Booking a record in a state `s₁` that has the accounts of `s`. -/
theorem bookUser_posting {delta : Int64} {write : Table User → UInt32 → User → Table User}
    (hsame : SameAccounts s s₁) (hbank : b.toNat < s.srvs.nodes.size) (hfile : s.onFile b uid)
    (hwrite : write (s.usr b) uid (userCsum env.sha256 u b uid) =
      (s.usr b).set uid.toNat (userCsum env.sha256 u b uid))
    (hcsum : u.csum = (s.record b uid).csum)
    (hdelta : delta = paid (dividend s.srvs (s.record b uid) 0).1 + amount)
    (hweight : u.weight = (dividend s.srvs (s.record b uid) 0).2.1.weight + amount)
    (hlpath : u.lpath = (s.record b uid).lpath)
    (hrpath : u.rpath = (dividend s.srvs (s.record b uid) 0).2.1.rpath ∨ u.rpath = s.srvs.now)
    (hdiv : s₁.dividends =
      dividendEntry b uid (dividend s.srvs (s.record b uid) 0).1 ++ s.dividends) :
    Posting env s (s₁.bookUser env b uid u delta write) b uid amount
      (userCsum env.sha256 u b uid) := by
  have hbank₁ : b.toNat < s₁.srvs.nodes.size := by rwa [hsame.size]
  have hnode : (s₁.bookUser env b uid u delta write).srvs.node b = { s₁.srvs.node b with
      hash := (s₁.srvs.node b).hash ^^^ u.csum ^^^ (userCsum env.sha256 u b uid).csum
      weight := (s₁.srvs.node b).weight + delta } :=
    s₁.node_modifyNode b _ hbank₁
  have hnode_ne : ∀ b', b' ≠ b →
      (s₁.bookUser env b uid u delta write).srvs.node b' = s₁.srvs.node b' :=
    fun b' hb' => s₁.node_modifyNode_ne _ hb'
  refine ⟨hbank, hfile, hsame.now, hsame.div, hsame.size, hsame.last, hsame.msgUndo, hsame.blk,
    ?_, ?_, ?_, rfl, hweight, hlpath, hrpath, hdiv⟩
  · have husr : (s₁.bookUser env b uid u delta write).usr =
        Function.update s₁.usr b (write (s₁.usr b) uid (userCsum env.sha256 u b uid)) := rfl
    rw [husr, hsame.usr, hwrite]
  · rw [hnode, hsame.node b, hcsum, hdelta]
  · intro b' hb'
    rw [hnode_ne b' hb']
    exact hsame.node b'

theorem Posting.trans (h : Posting env s s₁ b uid amount u) (h' : SameLedger s₁ s₂) :
    Posting env s s₂ b uid amount u where
  bank := h.bank
  onFile := h.onFile
  now := h'.now.trans h.now
  div := h'.div.trans h.div
  size := h'.size.trans h.size
  last := h'.last.trans h.last
  msgUndo := h'.msgUndo.trans h.msgUndo
  blk := h'.blk.trans h.blk
  usr := h'.usr.trans h.usr
  node := by rw [h'.node b, h.node]
  node_ne b' hb := by rw [h'.node b', h.node_ne b' hb]
  csum := h.csum
  weight := h.weight
  lpath := h.lpath
  rpath := h.rpath
  dividends := h'.dividends.trans h.dividends

/-- One step of a block-end function: the accounts stay, or the deposit under one key is
posted and taken from the map. -/
inductive AccountStep (env : Env) : State → State → Prop where
  | same {s s' : State} (h : SameLedger s s') : AccountStep env s s'
  | post {s s' : State} {key : UInt64} {u : User}
      (h : Posting env s s' (depositBank key) (depositUser key) (s.deposit.val key) u)
      (huser : depositUser key < (s.srvs.node (depositBank key)).users ∨ s.deposit.val key ≠ 0)
      (hdeposit : ∀ k, s'.deposit.val k = if k = key then 0 else s.deposit.val k) :
      AccountStep env s s'

/-- The deposit of an account is posted under the account's own key. -/
theorem AccountStep.of_posting (h : Posting env s s' b uid (s.deposit.val (depositKey b uid)) u)
    (huser : uid < (s.srvs.node b).users)
    (hdeposit : ∀ k, s'.deposit.val k = if k = depositKey b uid then 0 else s.deposit.val k) :
    AccountStep env s s' := by
  have hpost : Posting env s s' (depositBank (depositKey b uid)) (depositUser (depositKey b uid))
      (s.deposit.val (depositKey b uid)) u := by
    rwa [depositBank_depositKey, depositUser_depositKey]
  refine .post hpost (Or.inl ?_) hdeposit
  rwa [depositBank_depositKey, depositUser_depositKey]

/-- What no step changes. -/
structure SameShape (s s' : State) : Prop where
  now : s'.srvs.now = s.srvs.now
  div : s'.srvs.div = s.srvs.div
  size : s'.srvs.nodes.size = s.srvs.nodes.size
  users : ∀ b, (s'.srvs.node b).users = (s.srvs.node b).users
  files : ∀ b, (s'.usr b).size = (s.usr b).size
  msgUndo : s'.msgUndo = s.msgUndo
  blk : s'.blk = s.blk

theorem SameShape.refl (s : State) : SameShape s s := by
  constructor <;> intros <;> rfl

theorem SameShape.trans (h : SameShape s s₁) (h' : SameShape s₁ s₂) :
    SameShape s s₂ where
  now := h'.now.trans h.now
  div := h'.div.trans h.div
  size := h'.size.trans h.size
  users b := (h'.users b).trans (h.users b)
  files b := (h'.files b).trans (h.files b)
  msgUndo := h'.msgUndo.trans h.msgUndo
  blk := h'.blk.trans h.blk

theorem SameAccounts.shape (h : SameAccounts s s') : SameShape s s' :=
  ⟨h.now, h.div, h.size, fun b => by rw [h.node b], fun b => by rw [h.usr], h.msgUndo, h.blk⟩

theorem Posting.shape (h : Posting env s s' b uid amount u) : SameShape s s' := by
  refine ⟨h.now, h.div, h.size, ?_, ?_, h.msgUndo, h.blk⟩
  · intro b'
    by_cases hb : b' = b
    · rw [hb, h.node]
    · rw [h.node_ne b' hb]
  · intro b'
    rw [h.usr]
    by_cases hb : b' = b
    · rw [hb, Function.update_self, Table.size_set]
    · rw [Function.update_of_ne hb]

theorem AccountStep.shape (h : AccountStep env s s') : SameShape s s' := by
  cases h with
  | same h => exact h.toSameAccounts.shape
  | post h => exact h.shape

theorem AccountStep.shape_of_run (h : Relation.ReflTransGen (AccountStep env) s s') :
    SameShape s s' := by
  induction h with
  | refl => exact .refl s
  | tail _ hstep ih => exact ih.trans hstep.shape

/-- A deposit is taken out of the map and added to the buffered record. -/
theorem takeDeposit_spec (env : Env) (p : Pass) (svid : UInt16) (user : UInt32) :
    (p.takeDeposit env svid user).2 = p.s.deposit.val (depositKey svid user) ∧
      (p.takeDeposit env svid user).1.u =
        { p.u with weight := p.u.weight + p.s.deposit.val (depositKey svid user) } ∧
      SameAccounts p.s (p.takeDeposit env svid user).1.s ∧
      (p.takeDeposit env svid user).1.s.dividends = p.s.dividends ∧
      ∀ k, (p.takeDeposit env svid user).1.s.deposit.val k =
        if k = depositKey svid user then 0 else p.s.deposit.val k := by
  rw [Pass.takeDeposit]
  cases hdep : p.s.deposit[depositKey svid user]? with
  | none =>
      have hval : p.s.deposit.val (depositKey svid user) = 0 := by rw [Map.val, hdep]; rfl
      rw [hval]
      refine ⟨rfl, ?_, .refl _, rfl, ?_⟩
      · simp
      · intro k
        show p.s.deposit.val k = _
        split
        · rename_i hk
          rw [hk, hval]
        · rfl
  | some dep =>
      have hval : p.s.deposit.val (depositKey svid user) = dep := Map.val_of_getElem? hdep
      have hsame := (p.s.addFee_same svid (bankProfit (txsLngFee dep))).trans
        ((p.s.addFee svid (bankProfit (txsLngFee dep))).callOffice_same env svid fun o =>
          { o with deposits := o.deposits ++ [(user, dep)] })
      rw [hval]
      refine ⟨rfl, rfl, ?_, hsame.dividends, ?_⟩
      · exact ⟨hsame.now, hsame.div, hsame.size, hsame.node, hsame.last, hsame.usr, hsame.msgUndo,
          hsame.blk⟩
      · intro k
        dsimp only
        rw [← hsame.deposit]
        exact Map.val_adjust _ (depositKey svid user) k fun _ => 0

/-- Dividend and amount are booked together, and the account counts as touched. -/
theorem bookNow_posting (amount : Int64) (hnoted : SameAccounts s s₁) (hdivs : s₁.dividends =
      dividendEntry b uid (dividend s.srvs (s.record b uid) 0).1 ++ s.dividends)
    (hbank : b.toNat < s.srvs.nodes.size) (hfile : s.onFile b uid)
    (hu : u = { (dividend s.srvs (s.record b uid) 0).2.1 with
      weight := (dividend s.srvs (s.record b uid) 0).2.1.weight + amount
      rpath := s.srvs.now }) :
    Posting env s
      (s₁.bookUser env b uid u (amount + paid (dividend s.srvs (s.record b uid) 0).1) writeTail)
      b uid amount (userCsum env.sha256 u b uid) := by
  have hrecord := dividend_record s.srvs (s.record b uid) 0
  have hwrite : writeTail (s.usr b) uid (userCsum env.sha256 u b uid) = (s.usr b).set uid.toNat _ :=
    writeTail_eq_set hfile (by rw [userCsum, hu, hrecord]; rfl)
  refine bookUser_posting hnoted hbank hfile hwrite ?_ (Int64.add_comm _ _) ?_ ?_ ?_ hdivs
  · rw [hu, hrecord]
  · rw [hu]
  · rw [hu, hrecord]
  · rw [hu]
    exact Or.inr rfl

theorem takeDeposit_bankFee (env : Env) (p : Pass) (svid : UInt16) (user : UInt32) :
    (p.takeDeposit env svid user).1.s.bankFee = p.s.bankFee.modify svid.toNat
      (· + bankProfit (txsLngFee (p.s.deposit.val (depositKey svid user)))) := by
  rw [Pass.takeDeposit]
  cases hdep : p.s.deposit[depositKey svid user]? with
  | none =>
      have hval : p.s.deposit.val (depositKey svid user) = 0 := by rw [Map.val, hdep]; rfl
      have hzero : bankProfit (txsLngFee 0) = 0 := by decide
      refine Table.ext rfl fun i => ?_
      rw [hval, hzero, Table.get_modify, Int64.add_zero]
      change p.s.bankFee.get i = _
      split
      · rename_i hi
        rw [hi.1]
      · rfl
  | some dep =>
      rw [Map.val_of_getElem? hdep]
      obtain ⟨o, ho⟩ := (p.s.addFee svid (bankProfit (txsLngFee dep))).callOffice_eq env svid
        fun o => { o with deposits := o.deposits ++ [(user, dep)] }
      dsimp only
      rw [ho]
      rfl

/-- The record that a visit writes: with its dividend and its deposit, and marked deleted
when it has expired. -/
def sweptUser (env : Env) (v : Servers) (b : UInt16) (uid : UInt32) (u : User) (dep : Int64) :
    User :=
  let u := { (dividend v u 0).2.1 with weight := (dividend v u 0).2.1.weight + dep }
  userCsum env.sha256
    (if expired v.now u then { u with stat := u.stat ||| userStatDeleted } else u) b uid

/-- A visit finds nothing to do, or it posts the deposit of the account. -/
inductive Visited (env : Env) (s s' : State) (b : UInt16) (uid : UInt32) : Prop where
  | idle (hdiv : (dividend s.srvs (s.record b uid) 0).1 = noDividend)
      (hweight : (dividend s.srvs (s.record b uid) 0).2.1.weight ≠ 0)
      (h : s' = s.addFee b (bankProfit (dividend s.srvs (s.record b uid) 0).2.2)) :
      Visited env s s' b uid
  | post
      (hseen : ¬((dividend s.srvs (s.record b uid) 0).1 = noDividend ∧
        (dividend s.srvs (s.record b uid) 0).2.1.weight ≠ 0))
      (h : Posting env s s' b uid (s.deposit.val (depositKey b uid))
        (sweptUser env s.srvs b uid (s.record b uid) (s.deposit.val (depositKey b uid))))
      (hdeposit : ∀ k, s'.deposit.val k = if k = depositKey b uid then 0 else s.deposit.val k)
      (hfee : s'.bankFee =
        (s.bankFee.modify b.toNat
          (· + bankProfit (dividend s.srvs (s.record b uid) 0).2.2)).modify b.toNat
            (· + bankProfit (txsLngFee (s.deposit.val (depositKey b uid))))) :
      Visited env s s' b uid

theorem dividendUser_visited {p p' : Pass} {user : UInt32}
    (hbank : svid.toNat < p.s.srvs.nodes.size) (hfile : p.s.onFile svid user)
    (h : dividendUser env svid p user = some p') : Visited env p.s p'.s svid user := by
  have hread : readUser (p.s.usr svid) user p.u = p.s.record svid user := readUser_of_lt hfile p.u
  have hrecord := dividend_record p.s.srvs (p.s.record svid user) 0
  rw [dividendUser, dividendUserAt, hread] at h
  simp only [State.bookUser_at] at h
  split at h
  · cases h
  split at h
  · rename_i hidle
    cases h
    exact .idle hidle.1 hidle.2 rfl
  rename_i hseen
  generalize hp₁ : ({ s := State.logDividend _ _ _ _, u := _, undo := _ } : Pass) = p₁ at h
  have hnoted : Noted p.s p₁.s svid user := by
    subst hp₁
    exact (p.s.addFee_same svid _).noted svid user
  have hu₁ : p₁.u = (dividend p.s.srvs (p.s.record svid user) 0).2.1 := by
    subst hp₁
    rfl
  have hfee₁ : p₁.s.bankFee = p.s.bankFee.modify svid.toNat
      (· + bankProfit (dividend p.s.srvs (p.s.record svid user) 0).2.2) := by
    subst hp₁
    rfl
  clear hp₁
  obtain ⟨hdep, hu, hsame, hdivs, hmap⟩ := takeDeposit_spec env p₁ svid user
  have hfee := takeDeposit_bankFee env p₁ svid user
  generalize p₁.takeDeposit env svid user = t at h hdep hu hsame hdivs hmap hfee
  obtain ⟨p₂, dep⟩ := t
  dsimp only at h hdep hu hsame hdivs hmap hfee
  simp only [hnoted.deposit] at hdep hu hmap hfee
  rw [hfee₁] at hfee
  rw [hu₁] at hu
  have hsame₂ := hnoted.toSameAccounts.trans hsame
  have hcsum : p₂.u.csum = (p.s.record svid user).csum := by rw [hu, hrecord]
  have hlpath : p₂.u.lpath = (p.s.record svid user).lpath := by rw [hu, hrecord]
  have hrpath : p₂.u.rpath = (dividend p.s.srvs (p.s.record svid user) 0).2.1.rpath := by rw [hu]
  have hweight : p₂.u.weight = (dividend p.s.srvs (p.s.record svid user) 0).2.1.weight +
      p.s.deposit.val (depositKey svid user) := by rw [hu]
  have hnow : p₂.s.srvs.now = p.s.srvs.now := hsame₂.now
  split at h
  · rename_i hexpired
    cases h
    have hswept : sweptUser env p.s.srvs svid user (p.s.record svid user)
        (p.s.deposit.val (depositKey svid user)) = userCsum env.sha256
          { p₂.u with stat := p₂.u.stat ||| userStatDeleted } svid user := by
      rw [sweptUser, ← hu, ← hnow, if_pos hexpired]
    have hoffice := p₂.s.callOffice_same env svid fun o =>
      { o with deletedUsers := o.deletedUsers ++ [user] }
    have hwrite : writeStat (p.s.usr svid) user
        (userCsum env.sha256 { p₂.u with stat := p₂.u.stat ||| userStatDeleted } svid user) =
        (p.s.usr svid).set user.toNat _ :=
      writeStat_eq_set hfile (by rw [userCsum, hu, hrecord]; rfl)
    have hpost := bookUser_posting (hsame₂.trans hoffice.toSameAccounts) hbank hfile hwrite hcsum
      (congrArg _ hdep) hweight hlpath (Or.inl hrpath)
      (hoffice.dividends.trans (hdivs.trans hnoted.dividends))
    refine .post hseen (hswept ▸ hpost) (fun k => ?_) ?_
    · show (p₂.s.callOffice env svid _).deposit.val k = _
      rw [hoffice.deposit k, hmap]
    · obtain ⟨o, ho⟩ := p₂.s.callOffice_eq env svid fun o =>
        { o with deletedUsers := o.deletedUsers ++ [user] }
      rw [State.bookUser_bankFee, ho]
      exact hfee
  · rename_i hexpired
    cases h
    have hswept : sweptUser env p.s.srvs svid user (p.s.record svid user)
        (p.s.deposit.val (depositKey svid user)) = userCsum env.sha256 p₂.u svid user := by
      rw [sweptUser, ← hu, ← hnow, if_neg hexpired]
    have hwrite : writeTail (p.s.usr svid) user (userCsum env.sha256 p₂.u svid user) =
        (p.s.usr svid).set user.toNat _ :=
      writeTail_eq_set hfile (by rw [userCsum, hu, hrecord]; rfl)
    have hpost := bookUser_posting hsame₂ hbank hfile hwrite hcsum (congrArg _ hdep) hweight hlpath
      (Or.inl hrpath) (hdivs.trans hnoted.dividends)
    exact .post hseen (hswept ▸ hpost) hmap hfee

/-- The dividend of one account is a step. -/
theorem dividendUser_step {p p' : Pass} {user : UInt32} (hbank : svid.toNat < p.s.srvs.nodes.size)
    (hfile : p.s.onFile svid user) (huser : user < (p.s.srvs.node svid).users)
    (h : dividendUser env svid p user = some p') :
    AccountStep env p.s p'.s := by
  cases dividendUser_visited hbank hfile h with
  | idle _ _ hidle => exact .same (hidle ▸ p.s.addFee_same svid _)
  | post _ hpost hdeposit _ => exact .of_posting hpost huser hdeposit

/-- The accounts of every bank are on file. -/
def State.Filed (s : State) : Prop :=
  ∀ b : UInt16, b.toNat < s.srvs.nodes.size → (s.srvs.node b).users.toNat ≤ (s.usr b).size

theorem SameShape.filed (h : SameShape s s') (hfiled : s.Filed) : s'.Filed := by
  intro b hb
  rw [h.users, h.files]
  exact hfiled b (h.size ▸ hb)

theorem SameShape.onFile (h : SameShape s s') (hfile : s.onFile b uid) : s'.onFile b uid := by
  rw [State.onFile, h.files]
  exact hfile

theorem lt_of_mem_dividendUsers {now users : UInt32} (h : uid ∈ dividendUsers now svid users) :
    uid < users := by
  obtain ⟨i, hi, rfl⟩ := List.mem_map.mp h
  have hlt := List.mem_range.mp (List.mem_filter.mp hi).1
  rw [UInt32.lt_iff_toNat_lt, UInt32.toNat_ofNat']
  exact lt_of_le_of_lt (Nat.mod_le _ _) hlt

theorem State.lt_of_mem_banks (h : b ∈ s.banks) : b.toNat < s.srvs.nodes.size := by
  obtain ⟨i, hi, rfl⟩ := List.mem_map.mp h
  rw [UInt16.toNat_ofNat']
  exact lt_of_le_of_lt (Nat.mod_le _ _) (List.mem_range.mp (List.mem_of_mem_tail hi))

theorem State.nodup_banks (h : s.srvs.nodes.size ≤ bankMax) : s.banks.Nodup := by
  refine List.Nodup.map_on ?_ (List.nodup_range.sublist (List.tail_sublist _))
  intro i hi j hj hij
  have hi := List.mem_range.mp (List.mem_of_mem_tail hi)
  have hj := List.mem_range.mp (List.mem_of_mem_tail hj)
  have heq := congrArg UInt16.toNat hij
  rw [UInt16.toNat_ofNat', UInt16.toNat_ofNat'] at heq
  rw [bankMax] at h
  omega

theorem State.mem_banks_iff (hbanks : s.srvs.nodes.size ≤ bankMax) :
    b ∈ s.banks ↔ 1 ≤ b.toNat ∧ b.toNat < s.srvs.nodes.size := by
  rw [bankMax] at hbanks
  constructor
  · intro hb
    refine ⟨?_, State.lt_of_mem_banks hb⟩
    obtain ⟨i, hi, rfl⟩ := List.mem_map.mp hb
    rw [List.tail_range, List.mem_range'_1] at hi
    rw [UInt16.toNat_ofNat']
    omega
  · rintro ⟨hpos, hlt⟩
    refine List.mem_map.mpr ⟨b.toNat, ?_, UInt16.ofNat_toNat⟩
    rw [List.tail_range, List.mem_range'_1]
    omega

/-- The dividends of a bank are a run of steps. -/
theorem dividendBank_run {u' : User} (hbank : svid.toNat < s.srvs.nodes.size) (hfiled : s.Filed)
    (h : dividendBank env (s, u) svid = some (s', u')) :
    Relation.ReflTransGen (AccountStep env) s s' := by
  rw [dividendBank] at h
  split at h
  · cases h
    exact .refl
  obtain ⟨p, hfold, hret⟩ := Option.bind_eq_some_iff.mp h
  cases hret
  have hrun : Relation.ReflTransGen (AccountStep env) s p.s := by
    refine foldlM_option_invariant (fun p : Pass => Relation.ReflTransGen (AccountStep env) s p.s)
      .refl ?_ hfold
    intro uid huid p p' hrun hstep
    have hshape := AccountStep.shape_of_run hrun
    have hlt := lt_of_mem_dividendUsers huid
    have hfile : uid.toNat < (s.usr svid).size :=
      lt_of_lt_of_le (UInt32.lt_iff_toNat_lt.mp hlt) (hfiled svid hbank)
    refine hrun.tail (dividendUser_step ?_ (hshape.onFile hfile) ?_ hstep)
    · rwa [hshape.size]
    · rwa [hshape.users]
  exact hrun.tail (.same (p.s.saveUndo_same svid p.undo))

theorem commitDividends_run (hfiled : s.Filed) (h : commitDividends env s = some s') :
    Relation.ReflTransGen (AccountStep env) s s' := by
  rw [commitDividends] at h
  split at h
  · cases h
    exact .refl
  obtain ⟨⟨s₁, u₁⟩, hfold, rfl⟩ := Option.map_eq_some_iff.mp h
  refine foldlM_option_invariant
    (fun acc : State × User => Relation.ReflTransGen (AccountStep env) s acc.1) .refl ?_ hfold
  rintro b hb ⟨s₂, u₂⟩ ⟨s₃, u₃⟩ hrun hstep
  have hshape := AccountStep.shape_of_run hrun
  refine hrun.trans (dividendBank_run ?_ (hshape.filed hfiled) hstep)
  rw [hshape.size]
  exact State.lt_of_mem_banks hb

/-- The pending deposits are for accounts on file. -/
def State.Payable (s : State) : Prop :=
  ∀ k, s.deposit.val k ≠ 0 → (depositBank k).toNat < s.srvs.nodes.size ∧
    s.onFile (depositBank k) (depositUser k)

/-- Replace the deposits. -/
def State.withDeposit (s : State) (deposit : Map UInt64 Int64) : State :=
  { s with deposit := deposit }

theorem SameAccounts.withDeposit (h : SameAccounts s s') (d d' : Map UInt64 Int64) :
    SameAccounts (s.withDeposit d) (s'.withDeposit d') :=
  ⟨h.now, h.div, h.size, h.node, h.last, h.usr, h.msgUndo, h.blk⟩

theorem DepositPass.enter_same (p : DepositPass) (svid : UInt16) :
    SameLedger p.s (p.enter svid).s ∧ (p.enter svid).u = p.u := by
  rw [DepositPass.enter]
  split
  · exact ⟨.refl _, rfl⟩
  · exact ⟨p.s.saveUndo_same _ _, rfl⟩

theorem Posting.withDeposit (h : Posting env s s' b uid amount u) (d d' : Map UInt64 Int64) :
    Posting env (s.withDeposit d) (s'.withDeposit d') b uid amount u :=
  ⟨h.bank, h.onFile, h.now, h.div, h.size, h.last, h.msgUndo, h.blk, h.usr, h.node, h.node_ne,
    h.csum, h.weight, h.lpath, h.rpath, h.dividends⟩

/-- A deposit is posted to its account, after the records of another bank are saved. -/
structure Deposited (env : Env) (s s' : State) (key : UInt64) (dep : Int64) : Prop where
  posting : ∃ s₁ u, SameLedger s s₁ ∧
    Posting env s₁ s' (depositBank key) (depositUser key) dep u ∧ s₁.bankFee = s.bankFee
  bankFee : s'.bankFee =
    let r := dividend s.srvs (s.record (depositBank key) (depositUser key)) 0
    let fees := s.bankFee.modify (depositBank key).toNat (· + bankProfit r.2.2)
    if depositMarked key then fees
    else fees.modify (depositBank key).toNat (· + bankProfit (txsLngFee dep))

theorem depositStep_deposited {p : DepositPass} {key : UInt64} {dep : Int64} (hdep : dep ≠ 0)
    (hbank : (depositBank key).toNat < p.s.srvs.nodes.size)
    (hfile : p.s.onFile (depositBank key) (depositUser key)) :
    Deposited env p.s (depositStep env p key dep).s key dep := by
  rw [depositStep, if_neg hdep]
  obtain ⟨henter, -⟩ := p.enter_same (depositBank key)
  have hsaved : (p.enter (depositBank key)).s.bankFee = p.s.bankFee := by
    rw [DepositPass.enter]
    split <;> rfl
  have hfile := henter.shape.onFile hfile
  rw [← henter.size] at hbank
  dsimp only
  generalize p.enter (depositBank key) = q at hbank hfile henter hsaved
  have hread : readUser (q.s.usr (depositBank key)) (depositUser key) q.u =
      q.s.record (depositBank key) (depositUser key) := readUser_of_lt hfile q.u
  rw [hread]
  have hnoted := ((SameLedger.refl q.s).noted (depositBank key) (depositUser key)).trans
    (State.addFee_same _ (depositBank key)
      (bankProfit (dividend q.s.srvs (q.s.record (depositBank key) (depositUser key)) 0).2.2))
  generalize hs₁ : State.addFee _ _ _ = s₁ at hnoted
  have hfee₁ : s₁.bankFee = q.s.bankFee.modify (depositBank key).toNat (· + bankProfit
      (dividend q.s.srvs (q.s.record (depositBank key) (depositUser key)) 0).2.2) := by
    rw [← hs₁]
    rfl
  clear hs₁
  generalize hs₂ : (if depositMarked key then s₁
    else s₁.addFee (depositBank key) (bankProfit (txsLngFee dep))) = s₂
  have hfees : SameLedger s₁ s₂ := by
    rw [← hs₂]
    split
    · exact .refl s₁
    · exact s₁.addFee_same _ _
  have hfee₂ : s₂.bankFee = if depositMarked key then s₁.bankFee
      else s₁.bankFee.modify (depositBank key).toNat (· + bankProfit (txsLngFee dep)) := by
    rw [← hs₂]
    split <;> rfl
  clear hs₂
  replace hnoted := hnoted.trans hfees
  rw [hnoted.now]
  obtain ⟨o, ho⟩ := s₂.callOffice_eq env (depositBank key) fun o =>
    { o with deposits := o.deposits ++ [(depositUser key, dep)] }
  replace hnoted := hnoted.trans (s₂.callOffice_same env (depositBank key) fun o =>
    { o with deposits := o.deposits ++ [(depositUser key, dep)] })
  have hpost := @bookNow_posting env _ _ _ _ _ dep hnoted.toSameAccounts hnoted.dividends hbank
    hfile rfl
  refine ⟨⟨q.s, _, henter, hpost, hsaved⟩, ?_⟩
  rw [State.bookUser_bankFee, ho]
  dsimp only
  rw [hfee₂, hfee₁, hsaved, henter.record, henter.dividend]

/-- One deposit is a run of steps, seen with the deposits that are not booked yet. -/
theorem depositStep_run {p : DepositPass} {key : UInt64} {dep : Int64} {rest : Map UInt64 Int64}
    (hrest : rest.val key = dep) (hbank : dep ≠ 0 → (depositBank key).toNat < p.s.srvs.nodes.size)
    (hfile : dep ≠ 0 → p.s.onFile (depositBank key) (depositUser key)) :
    Relation.ReflTransGen (AccountStep env) (p.s.withDeposit rest)
      ((depositStep env p key dep).s.withDeposit (rest.erase key)) := by
  have herase : ∀ k, Map.val (rest.erase key) k = if k = key then 0 else rest.val k :=
    fun k => Map.val_erase rest key k
  by_cases hdep : dep = 0
  · rw [depositStep, if_pos hdep]
    refine .single (.same ⟨(SameAccounts.refl p.s).withDeposit _ _, fun k => ?_, rfl⟩)
    refine (herase k).trans ?_
    split
    · rename_i hk
      rw [hk]
      exact (hrest.trans hdep).symm
    · rfl
  · have hdeposited : Deposited env p.s (depositStep env p key dep).s key dep :=
      depositStep_deposited hdep (hbank hdep) (hfile hdep)
    obtain ⟨s₁, u, hsame, hpost, -⟩ := hdeposited.posting
    have hfirst : AccountStep env (p.s.withDeposit rest) (s₁.withDeposit rest) :=
      .same ⟨hsame.withDeposit _ _, fun _ => rfl, hsame.dividends⟩
    refine (Relation.ReflTransGen.single hfirst).tail ?_
    have hpost := hpost.withDeposit rest (rest.erase key)
    subst hrest
    exact .post hpost (Or.inr hdep) herase

/-- Invariant rule for the loop over the deposits, which is a run of steps. -/
theorem depositLoop_invariant (hpay : s.Payable)
    (P : List (UInt64 × Int64) → DepositPass → Prop) (hinit : P [] { s := s, u := env.junk })
    (hstep : ∀ pre key dep (p : DepositPass), (s.deposit.without pre).val key = dep →
      s.deposit.val key = dep →
      Relation.ReflTransGen (AccountStep env) s (p.s.withDeposit (s.deposit.without pre)) →
      P pre p → P (pre ++ [(key, dep)]) (depositStep env p key dep)) :
    P s.deposit.toList (s.deposit.foldl (depositStep env) { s := s, u := env.junk }) ∧
      Relation.ReflTransGen (AccountStep env) s
        ((s.deposit.foldl (depositStep env) { s := s, u := env.junk }).s.withDeposit ∅) := by
  rw [← Map.without_toList s.deposit]
  refine Map.foldl_invariant (fun pre (p : DepositPass) => P pre p ∧
    Relation.ReflTransGen (AccountStep env) s (p.s.withDeposit (s.deposit.without pre)))
    ⟨hinit, .refl⟩ ?_
  intro pre key dep p hkey hdep ⟨hp, hrun⟩
  have hshape := AccountStep.shape_of_run hrun
  have hval : s.deposit.val key = dep := Map.val_of_getElem? hdep
  have hleft : (s.deposit.without pre).val key = dep := by
    rw [← hval, Map.val, Map.getElem?_without, if_neg hkey]
    rfl
  refine ⟨hstep pre key dep p hleft hval hrun hp, ?_⟩
  rw [Map.without_concat]
  refine hrun.trans (depositStep_run hleft ?_ ?_)
  · intro hne
    exact hshape.size ▸ (hpay key (hval ▸ hne)).1
  · intro hne
    exact hshape.onFile (hpay key (hval ▸ hne)).2

theorem commitDeposit_run (hpay : s.Payable) :
    Relation.ReflTransGen (AccountStep env) s (commitDeposit env s) := by
  obtain ⟨-, hloop⟩ := @depositLoop_invariant env s hpay (fun _ _ => True) trivial
    fun _ _ _ _ _ _ _ _ => trivial
  rw [commitDeposit]
  generalize s.deposit.foldl (depositStep env) { s := s, u := env.junk } = p at hloop
  refine hloop.trans ?_
  split
  · exact .refl
  · exact .single (.same
      ⟨(p.s.saveUndo_same p.lastsvid p.undo).withDeposit _ _, fun _ => rfl, rfl⟩)

/-- The amount that `commit_bankfee` books for a bank. -/
def bankfeeAmount (s : State) (sharing receiving : List UInt16) (share : Int64) (svid : UInt16) :
    Int64 :=
  let net := netFeeShare s sharing receiving share svid
  let r := dividend s.srvs (s.record svid 0) 0
  let fees := (s.bankFee.modify svid.toNat (· + net)).modify svid.toNat (· + bankProfit r.2.2)
  let profit := fees.get svid.toNat - bankUserFee (s.srvs.node svid).users
  if profit < -r.2.1.weight then -r.2.1.weight else profit

/-- Each bank gets its profit on account 0; its own entry of the profits is the only one
that changes. -/
theorem bankfeeStep_posting (env : Env) (sharing receiving : List UInt16) (share : Int64)
    (buf : User) (hbank : svid.toNat < s.srvs.nodes.size) (hfile : s.onFile svid 0) :
    ∃ u, Posting env s (bankfeeStep env sharing receiving share (s, buf) svid).1 svid 0
        (bankfeeAmount s sharing receiving share svid) u ∧
      (bankfeeStep env sharing receiving share (s, buf) svid).1.deposit = s.deposit ∧
      ∀ b, b ≠ svid →
        (bankfeeStep env sharing receiving share (s, buf) svid).1.bankFee.get b.toNat =
          s.bankFee.get b.toNat := by
  have hread : readUser (s.usr svid) 0 buf = s.record svid 0 := readUser_of_lt hfile buf
  simp only [bankfeeStep, State.addFee, State.logDividend, hread]
  obtain ⟨o, ho⟩ := State.callOffice_eq env _ svid _
  rw [ho]
  refine ⟨_, (bookNow_posting (bankfeeAmount s sharing receiving share svid) ?_ rfl hbank hfile
    rfl).trans (State.saveUndo_same _ svid _), rfl, ?_⟩
  · constructor <;> intros <;> rfl
  · intro b hb
    have hne : b.toNat ≠ svid.toNat := fun h => hb (UInt16.toNat_inj.mp h)
    rw [State.saveUndo_bankFee, State.bookUser_bankFee]
    dsimp only
    rw [Table.get_modify_ne _ _ hne, Table.get_modify_ne _ _ hne]

end Esc
