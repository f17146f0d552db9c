import Esc.Server.CommitSpec
import Esc.Server.EffectSpec

/-!
# One account through a message

The transactions of a message change the record of one account in four ways: they
leave it alone, create it, book a transaction that it sends, or do both. `AccountTx`
says which. At the end of the message the pending deposits change balances only.
-/

namespace Esc

open Lib

variable {c : Ctx} {L L' : Loop} {t : UserTxs} {nuser uid : UInt32} {u : User} {mass : Int64}

/-- The fields that deposits and dividends leave alone. -/
structure Credited (u u' : User) : Prop where
  msid : u'.msid = u.msid
  time : u'.time = u.time
  pkey : u'.pkey = u.pkey
  hash : u'.hash = u.hash
  lpath : u'.lpath = u.lpath
  user : u'.user = u.user
  node : u'.node = u.node

namespace Credited

variable {u₁ u₂ : User}

theorem refl (u : User) : Credited u u := by
  constructor <;> rfl

theorem trans (h : Credited u u₁) (h' : Credited u₁ u₂) : Credited u u₂ where
  msid := h'.msid.trans h.msid
  time := h'.time.trans h.time
  pkey := h'.pkey.trans h.pkey
  hash := h'.hash.trans h.hash
  lpath := h'.lpath.trans h.lpath
  user := h'.user.trans h.user
  node := h'.node.trans h.node

theorem dividend (v : Servers) (u : User) (fee : Int64) :
    Credited u (Esc.dividend v u fee).2.1 := by
  by_cases h : dividendDue v u
  · rw [dividend_of_due fee h]
    constructor <;> rfl
  · rw [dividend_of_not_due fee h]
    exact .refl u

theorem dsuUser (c : Ctx) (uid : UInt32) (d : Dsu) (u : User) : Credited u (dsuUser c uid d u) := by
  constructor <;> rfl

end Credited

/-- The transaction has a sender that pays for it. -/
def UserTxs.sends (t : UserTxs) : Prop :=
  t.ttype ≠ .non ∧ t.ttype ≠ .con ∧ t.ttype ≠ .uok ∧ t.ttype ≠ .inf

instance (t : UserTxs) : Decidable t.sends := inferInstanceAs (Decidable (_ ∧ _ ∧ _ ∧ _))

/-- The key of the created account. -/
def UserTxs.newKey (t : UserTxs) : Hash := if t.ttype = .uok then t.upkey else t.npkey

/-- The account sends the transaction. -/
def UserTxs.sentBy (t : UserTxs) (uid : UInt32) : Prop := t.sends ∧ t.auser = uid

/-- The transaction is one of the account, or creates it. -/
def UserTxs.touches (t : UserTxs) (uid : UInt32) : Prop := t.created = some uid ∨ t.sentBy uid

instance (t : UserTxs) (uid : UInt32) : Decidable (t.touches uid) :=
  inferInstanceAs (Decidable (_ ∨ (_ ∧ _)))

/-- The record of an account after one transaction. -/
inductive AccountTx (c : Ctx) (uid : UInt32) (t : UserTxs) (u : User) : User → Prop where
  | idle (h : ¬ t.touches uid) : AccountTx c uid t u u
  | create {mass : Int64} (hcreated : t.created = some uid) (hsent : ¬ t.sentBy uid) :
      AccountTx c uid t u (newUser c uid mass t.newKey t.ttime)
  | send {cost : Cost} {d : Dsu} {u₁ : User} (hcreated : t.created ≠ some uid)
      (hsent : t.sentBy uid) (hmsid : u.msid = t.amsid) (hpaid : Credited u u₁) :
      AccountTx c uid t u (settleUser c t cost u₁ d)
  | createSend {mass : Int64} {cost : Cost} {d : Dsu} {u₁ : User} (hcreated : t.created = some uid)
      (hsent : t.sentBy uid) (hmsid : 1 = t.amsid)
      (hpaid : Credited (newUser c uid mass t.newKey t.ttime) u₁) :
      AccountTx c uid t u (settleUser c t cost u₁ d)

/-- The account table after a transaction of an existing sender. -/
theorem senderTx_user (h : senderTx c L t = .ok L') :
    (L.user t.auser.toNat).msid = t.amsid ∧
      ∃ cost d, ∀ i, i < 2 ^ 32 → L'.user i =
        if i = t.auser.toNat then settleUser c t cost (c.paidUser L t) d else L.user i := by
  obtain ⟨L₂, cost, -, hmsid, heffect, -, -, -, rfl⟩ := senderTx_ok h
  refine ⟨hmsid, cost, L₂.localDsu.val t.auser, fun i hi => ?_⟩
  have hold : L₂.user i = L.user i := by
    rw [(lockedEffect_frame heffect).user, L.sender_user c t hi]
  rw [← hold]
  refine Loop.user_insert L₂ _ t.auser _ ?_ ?_ hi
  · rfl
  · intros
    rfl

/-- A creation, if there is one, comes before the transaction of the sender. -/
theorem AccountTx.of_stages {u₁ u₂ : User}
    (hstart : u₁ = if t.created = some uid then newUser c uid mass t.newKey t.ttime else u)
    (hsent : t.sentBy uid → u₁.msid = t.amsid ∧
      ∃ cost d v, Credited u₁ v ∧ u₂ = settleUser c t cost v d)
    (hidle : ¬ t.sentBy uid → u₂ = u₁) : AccountTx c uid t u u₂ := by
  by_cases hcreated : t.created = some uid
  · rw [if_pos hcreated] at hstart
    subst hstart
    by_cases hs : t.sentBy uid
    · obtain ⟨hmsid, cost, d, v, hpaid, rfl⟩ := hsent hs
      exact .createSend hcreated hs hmsid hpaid
    · obtain rfl := hidle hs
      exact .create hcreated hs
  · rw [if_neg hcreated] at hstart
    subst hstart
    by_cases hs : t.sentBy uid
    · obtain ⟨hmsid, cost, d, v, hpaid, rfl⟩ := hsent hs
      exact .send hcreated hs hmsid hpaid
    · obtain rfl := hidle hs
      exact .idle fun htouch => htouch.elim hcreated hs

/-- The transaction of a sender, seen from an account. -/
theorem senderTx_account (hsends : t.sends) (h : senderTx c L t = .ok L') (uid : UInt32) :
    (t.sentBy uid → (L.user uid.toNat).msid = t.amsid ∧
      ∃ cost d v, Credited (L.user uid.toNat) v ∧ L'.user uid.toNat = settleUser c t cost v d) ∧
      (¬ t.sentBy uid → L'.user uid.toNat = L.user uid.toNat) := by
  obtain ⟨hmsid, cost, d, huser⟩ := senderTx_user h
  replace huser := huser uid.toNat uid.toNat_lt
  constructor
  · rintro ⟨-, rfl⟩
    rw [if_pos rfl] at huser
    exact ⟨hmsid, cost, d, _, .dividend .., huser⟩
  · intro hother
    rwa [if_neg fun heq => hother ⟨hsends, (UInt32.toNat_inj.mp heq).symm⟩] at huser

/-- A creation, seen from an account. -/
theorem createAccount_account {L₁ : Loop} (hcreated : t.created = some nuser)
    (h : createAccount c L nuser mass t.newKey t.ttime = .ok L₁) (uid : UInt32) :
    L₁.user uid.toNat =
      if t.created = some uid then newUser c uid mass t.newKey t.ttime else L.user uid.toNat := by
  rw [createAccount_user h uid.toNat_lt, hcreated]
  by_cases hself : nuser = uid
  · subst hself
    rw [if_pos rfl, if_pos rfl]
  · rw [if_neg fun heq => hself (UInt32.toNat_inj.mp heq.symm),
      if_neg fun heq => hself (Option.some.inj heq)]

/-- One transaction, seen from an account. -/
theorem processTx_account (h : processTx c L t = .ok L') (uid : UInt32) :
    AccountTx c uid t (L.user uid.toNat) (L'.user uid.toNat) := by
  obtain ⟨hty, rfl⟩ | ⟨hty, rfl⟩ | ⟨hty, -, L₁, hcreate, rfl⟩ |
    ⟨hty, hlocal, -, L₁, hcreate, hsender⟩ |
    ⟨⟨hnon, hcon, huok, hinf, husr⟩, -, hsender⟩ := processTx_cases h
  · exact .idle (by simp [UserTxs.touches, UserTxs.created, UserTxs.sentBy, UserTxs.sends, hty])
  · exact .idle (by simp [UserTxs.touches, UserTxs.created, UserTxs.sentBy, UserTxs.sends, hty])
  · have hcreated : t.created = some t.auser := if_pos hty
    have hkey : t.newKey = t.upkey := if_pos hty
    rw [← hkey] at hcreate
    exact AccountTx.of_stages (createAccount_account hcreated hcreate uid)
      (fun hs => absurd hty hs.1.2.2.1) fun _ => rfl
  · have hcreated : t.created = some t.nuser := by simp [UserTxs.created, hty, hlocal]
    have hkey : t.newKey = t.npkey := by simp [UserTxs.newKey, hty]
    have hsends : t.sends := by simp [UserTxs.sends, hty]
    rw [← hkey] at hcreate
    obtain ⟨hsent, hidle⟩ := senderTx_account hsends hsender uid
    exact AccountTx.of_stages (createAccount_account hcreated hcreate uid) hsent hidle
  · have hcreated : t.created = none := by rw [UserTxs.created, if_neg huok, if_neg husr]
    obtain ⟨hsent, hidle⟩ := senderTx_account ⟨hnon, hcon, huok, hinf⟩ hsender uid
    refine @AccountTx.of_stages c t uid _ 0 _ _ ?_ hsent hidle
    rw [hcreated, if_neg (Option.some_ne_none uid).symm]
    rfl

/-- The record of an account through a list of transactions. -/
inductive AccountTxs (c : Ctx) (uid : UInt32) (u : User) : List UserTxs → User → Prop where
  | nil : AccountTxs c uid u [] u
  | snoc {txs : List UserTxs} {t : UserTxs} {u₁ u₂ : User}
      (hrun : AccountTxs c uid u txs u₁) (hstep : AccountTx c uid t u₁ u₂) :
      AccountTxs c uid u (txs ++ [t]) u₂

theorem foldlM_account {txs : List UserTxs} (h : txs.foldlM (processTx c) L = .ok L')
    (uid : UInt32) :
    AccountTxs c uid (L.user uid.toNat) txs (L'.user uid.toNat) := by
  refine foldlM_invariant (fun pre L₁ =>
    AccountTxs c uid (L.user uid.toNat) pre (L₁.user uid.toNat)) .nil ?_ h
  rintro pre t post L₁ L₂ - hrun hstep
  exact .snoc hrun (processTx_account hstep uid)

/-- An effect leaves pending deposits to accounts of the bank only. -/
theorem effect_localDsu {L₂ : Loop} {cost : Cost} (h : effect c L t u = .ok (L₂, cost))
    (huid : uid ∈ L₂.localDsu) :
    uid ∈ L.localDsu ∨ c.checkUser L t.abank uid = true := by
  cases hty : t.ttype <;> simp only [effect, hty] at h
  case put =>
    obtain ⟨hcheck, rfl, -⟩ := putTx_ok h
    obtain hmem | ⟨a, ha, hbank, rfl⟩ := @Loop.mem_localDsu_creditAll L t.abank
      [⟨t.bbank, t.buser, t.putMass⟩] uid huid
    · exact Or.inl hmem
    · obtain rfl := List.mem_singleton.mp ha
      exact Or.inr (hbank ▸ hcheck)
  case mpt =>
    obtain ⟨htargets, -, rfl, -⟩ := mptTx_ok h
    obtain hmem | ⟨a, ha, hbank, rfl⟩ := Loop.mem_localDsu_creditAll huid
    · exact Or.inl hmem
    · exact Or.inr (hbank ▸ (htargets a ha).2)
  case sus | uus =>
    simp only [susTx, uusTx, bitsTx] at h
    split at h
    · cases h
    rename_i hcheck
    split at h
    · rename_i hbank
      cases h
      rw [Map.adjust, Map.mem_insert_iff] at huid
      rcases huid with rfl | hmem
      · refine Or.inr ?_
        rw [← hbank]
        simpa using hcheck
      · exact Or.inl hmem
    · cases h
      exact Or.inl huid
  case bky =>
    simp only [bkyTx] at h
    split at h
    · cases h
    split at h
    · cases h
    split at h
    · cases h
      exact Or.inl huid
    split at h <;> cases h
    exact Or.inl huid
  case sbs | ubs =>
    obtain rfl := statusTx_ok h
    exact Or.inl huid
  case usr =>
    rw [usrTx] at h
    split at h <;> cases h <;> exact Or.inl huid
  case bro | get | sav =>
    split at h <;> cases h
    exact Or.inl huid
  case non | con | uok | key | inf | bnk =>
    cases h
    exact Or.inl huid

/-- What the loop wrote to the account file: new accounts, and nothing else. -/
structure Stored (c : Ctx) (a : Accounts) : Prop where
  filled : a.users.toNat ≤ a.file.size
  file : (c.s.usr c.msg.svid).size ≤ a.file.size
  records : ∀ uid : UInt32, a.file.get uid.toNat = (c.s.usr c.msg.svid).get uid.toNat ∨
    ∃ mass pkey time, a.file.get uid.toNat = newUser c uid mass pkey time

theorem Stored.putUser {a : Accounts} (h : Stored c a) (nuser : UInt32) (mass : Int64) (pkey : Hash)
    (time : UInt32) :
    Stored c (a.putUser (newUser c nuser mass pkey time) nuser) := by
  have hsize : (a.putUser (newUser c nuser mass pkey time) nuser).file.size =
      max a.file.size (nuser.toNat + 1) := Table.size_write ..
  refine ⟨?_, ?_, ?_⟩
  · rw [hsize, Accounts.putUser]
    dsimp only
    split
    · have hle : (nuser + 1).toNat ≤ nuser.toNat + 1 := by
        rw [UInt32.toNat_add]
        exact Nat.mod_le _ _
      exact hle.trans (le_max_right _ _)
    · exact h.filled.trans (le_max_left _ _)
  · rw [hsize]
    exact h.file.trans (le_max_left _ _)
  · intro uid
    have hget : (a.putUser (newUser c nuser mass pkey time) nuser).file.get uid.toNat =
        if uid.toNat = nuser.toNat then newUser c nuser mass pkey time else a.file.get uid.toNat :=
      Table.get_write ..
    rw [hget]
    split
    · rename_i heq
      obtain rfl := UInt32.toNat_inj.mp heq
      exact Or.inr ⟨mass, pkey, time, rfl⟩
    · exact h.records uid

/-- The bookkeeping of the loop about accounts: those that are not in the cache stand in
the file as they did at the start, and the undo records are the records of the start. -/
structure Tracked (c : Ctx) (L : Loop) : Prop where
  stored : Stored c L.acc
  users_eq : L.acc.users = L.users
  dsu : ∀ uid, uid ∈ L.localDsu → uid.toNat < L.acc.file.size
  untouched : ∀ uid : UInt32, uid ∉ L.changes →
    L.acc.file.get uid.toNat = (c.s.usr c.msg.svid).get uid.toNat
  undo : ∀ (uid : UInt32) (u : User), L.undo[uid]? = some u →
    u = (c.s.usr c.msg.svid).get uid.toNat

namespace Tracked

theorem init (hfile : (c.s.srvs.node c.msg.svid).users.toNat ≤ (c.s.usr c.msg.svid).size) :
    Tracked c c.init where
  stored := ⟨hfile, le_rfl, fun _ => Or.inl rfl⟩
  users_eq := rfl
  dsu _ h := absurd h Std.ExtTreeMap.not_mem_empty
  untouched _ _ := rfl
  undo _ _ h := by
    rw [Ctx.init, Std.ExtTreeMap.getElem?_empty] at h
    cases h

/-- Changes outside of the account bookkeeping. -/
theorem congr (h : Tracked c L) (hacc : L'.acc = L.acc) (husers : L'.users = L.users)
    (hchanges : L'.changes = L.changes) (hundo : L'.undo = L.undo)
    (hdsu : ∀ uid, uid ∈ L'.localDsu → uid.toNat < L.acc.file.size) : Tracked c L' where
  stored := hacc ▸ h.stored
  users_eq := by rw [hacc, husers, h.users_eq]
  dsu := by rw [hacc]; exact hdsu
  untouched := by rw [hchanges, hacc]; exact h.untouched
  undo := hundo ▸ h.undo

/-- A record enters the cache; its undo record is the one of the start. -/
theorem insert (h : Tracked c L) (hacc : L'.acc = L.acc) (husers : L'.users = L.users)
    (hchanges : L'.changes = L.changes.insert uid u)
    (hundo : L'.undo = L.undo ∨
      uid ∉ L.changes ∧ L'.undo = L.undo.insert uid (L.acc.file.get uid.toNat))
    (hdsu : ∀ uid, uid ∈ L'.localDsu → uid.toNat < L.acc.file.size) : Tracked c L' where
  stored := hacc ▸ h.stored
  users_eq := by rw [hacc, husers, h.users_eq]
  dsu := by rw [hacc]; exact hdsu
  untouched a ha := by
    rw [hchanges, Map.mem_insert_iff, not_or] at ha
    rw [hacc]
    exact h.untouched a ha.2
  undo a v hv := by
    rcases hundo with hundo | ⟨huid, hundo⟩
    · exact h.undo a v (hundo ▸ hv)
    · rw [hundo, Map.getElem?_insert] at hv
      split at hv
      · rename_i ha
        cases hv
        rw [ha]
        exact h.untouched uid huid
      · exact h.undo a v hv

theorem fetch (h : Tracked c L) (uid : UInt32) : Tracked c (L.fetch uid) := by
  cases hu : L.changes[uid]? with
  | some u => rwa [L.fetch_of_some uid hu]
  | none =>
      have huid : uid ∉ L.changes := by
        rwa [Std.ExtTreeMap.mem_iff_isSome_getElem?, Option.not_isSome_iff_eq_none]
      rw [L.fetch_of_none uid hu]
      exact h.insert rfl rfl rfl (Or.inr ⟨huid, rfl⟩) h.dsu

/-- A new account is written to the file at once. -/
theorem put (h : Tracked c L) (mass : Int64) (pkey : Hash) (time : UInt32)
    (hacc : L'.acc = L.acc.putUser (newUser c nuser mass pkey time) nuser)
    (husers : L'.users = if L.users ≤ nuser then nuser + 1 else L.users)
    (hchanges : L'.changes = L.changes.insert nuser u) (hundo : L'.undo = L.undo)
    (hdsu : L'.localDsu = L.localDsu) : Tracked c L' where
  stored := hacc ▸ h.stored.putUser nuser mass pkey time
  users_eq := by
    rw [hacc, husers, ← h.users_eq]
    rfl
  dsu a ha := by
    rw [hdsu] at ha
    have hsize : L'.acc.file.size = max L.acc.file.size (nuser.toNat + 1) := by
      rw [hacc]
      exact Table.size_write ..
    rw [hsize]
    exact lt_of_lt_of_le (h.dsu a ha) (le_max_left _ _)
  untouched a ha := by
    rw [hchanges, Map.mem_insert_iff, not_or] at ha
    rw [hacc]
    refine Eq.trans ?_ (h.untouched a ha.2)
    exact Table.get_write_ne _ _ fun heq => ha.1 (UInt32.toNat_inj.mp heq)
  undo := hundo ▸ h.undo

theorem create {pkey : Hash} {time : UInt32} (h : Tracked c L)
    (hcreate : createAccount c L nuser mass pkey time = .ok L') : Tracked c L' := by
  obtain ⟨hlt, -, rfl⟩ | ⟨heq, rfl⟩ := createAccount_cases hcreate
  · have hle : ¬ L.users ≤ nuser := UInt32.not_le.mpr hlt
    refine (h.fetch nuser).put mass pkey time ?_ ?_ rfl rfl rfl
    · rw [L.fetch_acc]
    · rw [L.fetch_users, if_neg hle]
  · refine h.put mass pkey time rfl ?_ rfl rfl rfl
    rw [heq, if_pos (UInt32.le_refl _)]

theorem sender (h : Tracked c L) (hbank : t.abank = c.msg.svid)
    (hsender : senderTx c L t = .ok L') : Tracked c L' := by
  obtain ⟨L₂, cost, hlt, -, heffect, -, -, -, rfl⟩ := senderTx_ok hsender
  have hframe := lockedEffect_frame heffect
  have hstart : Tracked c (L.sender c t) := by
    refine (h.fetch t.auser).congr ?_ ?_ ?_ ?_ ?_ <;> rw [L.sender_eq c t]
    · rw [L.fetch_acc]
    · rw [L.fetch_users]
    · intro a ha
      rw [L.fetch_acc]
      exact h.dsu a ha
  have hsize : (L.sender c t).acc = L.acc := by rw [L.sender_eq c t]
  have hdsu : ∀ uid, uid ∈ L₂.localDsu → uid.toNat < (L.sender c t).acc.file.size := by
    intro a ha
    obtain ⟨-, rfl, -⟩ | heffect := lockedEffect_cases heffect
    · exact hstart.dsu a ha
    obtain hmem | hcheck := effect_localDsu heffect ha
    · exact hstart.dsu a hmem
    · rw [Ctx.checkUser, hbank, if_pos rfl, Bool.and_eq_true, decide_eq_true_eq,
        decide_eq_true_eq] at hcheck
      exact lt_of_lt_of_le (UInt32.lt_iff_toNat_lt.mp hcheck.2) hstart.stored.filled
  have hsecond : Tracked c L₂ :=
    hstart.congr hframe.acc hframe.users hframe.changes hframe.undo hdsu
  refine hsecond.insert rfl rfl rfl (Or.inl rfl) fun a ha => ?_
  rcases Map.mem_insert_iff.mp ha with rfl | hmem
  · rw [hframe.acc, hsize]
    refine lt_of_lt_of_le (UInt32.lt_iff_toNat_lt.mp hlt) ?_
    rw [← h.users_eq]
    exact h.stored.filled
  · exact hsecond.dsu a hmem

theorem processTx (h : Tracked c L) (hstep : processTx c L t = .ok L') : Tracked c L' := by
  have hcount : Tracked c { L with tmpos := L.tmpos + 1 } := h.congr rfl rfl rfl rfl h.dsu
  obtain ⟨-, rfl⟩ | ⟨-, rfl⟩ | ⟨-, -, L₁, hcreate, rfl⟩ | ⟨-, -, htimely, L₁, hcreate, hsender⟩ |
    ⟨-, htimely, hsender⟩ := processTx_cases hstep
  · exact hcount
  · exact h.congr rfl rfl rfl rfl h.dsu
  · exact (hcount.create hcreate).congr rfl rfl rfl rfl (hcount.create hcreate).dsu
  · exact (hcount.create hcreate).sender htimely.2 hsender
  · exact hcount.sender htimely.2 hsender

theorem foldlM {txs : List UserTxs} (h : Tracked c L)
    (hrun : txs.foldlM (Esc.processTx c) L = .ok L') : Tracked c L' :=
  foldlM_remaining (fun _ => Tracked c) (fun _ _ _ _ hL hstep => hL.processTx hstep) h hrun

/-- A pending deposit of an account on file changes balances only. -/
theorem commitDsu (h : Tracked c L) (buf : User) (d : Dsu) (huid : uid.toNat < L.acc.file.size) :
    Tracked c (commitDsu c (L, buf) uid d).1 ∧ (commitDsu c (L, buf) uid d).1.acc = L.acc ∧
      (commitDsu c (L, buf) uid d).1.localDsu = L.localDsu ∧
      ∀ a : UInt32, Credited (L.user a.toNat) ((commitDsu c (L, buf) uid d).1.user a.toNat) := by
  have hother : ∀ {L' : Loop} {u : User}, L'.acc = L.acc → L'.changes = L.changes.insert uid u →
      Credited (L.user uid.toNat) u → ∀ a : UInt32,
        Credited (L.user a.toNat) (L'.user a.toNat) := by
    intro L' u hacc hchanges hu a
    rw [Loop.user_insert L L' uid u hchanges (fun _ _ => by rw [hacc]) a.toNat_lt]
    split
    · rename_i heq
      rw [heq]
      exact hu
    · exact .refl _
  cases hu : L.changes[uid]? with
  | some u =>
      have huser : L.user uid.toNat = u := by rw [Loop.user_toNat, hu, Option.getD_some]
      rw [commitDsu_of_some buf d hu]
      refine ⟨h.insert rfl rfl rfl (Or.inl rfl) h.dsu, rfl, rfl, hother rfl rfl ?_⟩
      rw [huser]
      exact .dsuUser ..
  | none =>
      have hmem : uid ∉ L.changes := by
        rwa [Std.ExtTreeMap.mem_iff_isSome_getElem?, Option.not_isSome_iff_eq_none]
      have huser : L.user uid.toNat = L.acc.file.get uid.toNat := by
        rw [Loop.user_toNat, hu, Option.getD_none]
      rw [commitDsu_of_none buf d hu huid]
      refine ⟨h.insert rfl rfl rfl (Or.inr ⟨hmem, ?_⟩) h.dsu, rfl, rfl, hother rfl rfl ?_⟩
      · rw [huser]
      · exact (Credited.dividend ..).trans (.dsuUser ..)

theorem commitLocal (h : Tracked c L) :
    Tracked c (commitLocal c L) ∧ (commitLocal c L).acc = L.acc ∧
      ∀ a : UInt32, Credited (L.user a.toNat) ((commitLocal c L).user a.toNat) := by
  have hloop := Map.foldl_invariant (f := Esc.commitDsu c) (m := L.localDsu) (s := (L, c.env.junk))
    (fun _ acc => Tracked c acc.1 ∧ acc.1.acc = L.acc ∧ acc.1.localDsu = L.localDsu ∧
      ∀ a : UInt32, Credited (L.user a.toNat) (acc.1.user a.toNat))
    ⟨h, rfl, rfl, fun _ => .refl _⟩ ?_
  · exact ⟨hloop.1, hloop.2.1, hloop.2.2.2⟩
  · rintro pre uid d ⟨L₁, buf⟩ - hd ⟨htracked, hacc, hdsu, hcredit⟩
    have hmem : uid ∈ L.localDsu := Std.ExtTreeMap.mem_iff_isSome_getElem?.mpr (by rw [hd]; rfl)
    obtain ⟨htracked', hacc', hdsu', hcredit'⟩ := htracked.commitDsu buf d (by
      rw [hacc]
      exact h.dsu uid hmem)
    exact ⟨htracked', hacc'.trans hacc, hdsu'.trans hdsu, fun a => (hcredit a).trans (hcredit' a)⟩

end Tracked

theorem mptTx_error (h : mptTx c L t = .error L') : L'.acc = L.acc := by
  rcases bind_eq_error h with hfail | ⟨m, -, hret⟩
  · obtain ⟨pre, a, post, m, -, hrun, hstep⟩ := foldlM_eq_error hfail
    have hacc : m.loop.acc = L.acc := by
      refine foldlM_invariant (fun _ m => m.loop.acc = L.acc) rfl ?_ hrun
      rintro pre a post m m' - hm hok
      obtain ⟨-, -, -, rfl⟩ := mptStep_ok hok
      exact (EffectFrame.credit ..).acc.trans hm
    rw [mptStep] at hstep
    split at hstep
    · cases hstep
      exact hacc
    split at hstep
    · cases hstep
      exact hacc
    split at hstep <;> cases hstep
    exact hacc
  · cases hret

/-- A failing effect has not touched the accounts. -/
theorem effect_error (h : effect c L t u = .error L') : L'.acc = L.acc := by
  cases hty : t.ttype <;> simp only [effect, hty] at h
  case put =>
    rw [putTx] at h
    split at h <;> cases h
    rfl
  case mpt => exact mptTx_error h
  case bky =>
    simp only [bkyTx] at h
    split at h
    · cases h
      rfl
    split at h
    · cases h
      rfl
    split at h
    · cases h
    split at h <;> cases h
    rfl
  case sbs | ubs =>
    simp only [sbsTx, ubsTx, statusTx] at h
    split at h
    · cases h
      rfl
    split at h
    · cases h
      rfl
    split at h <;> cases h
  case sus | uus =>
    simp only [susTx, uusTx, bitsTx] at h
    split at h
    · cases h
      rfl
    split at h <;> cases h
  case bro | get | sav =>
    split at h <;> cases h
    rfl
  case non | con | uok | usr | bnk | key | inf => cases h

theorem senderTx_error (h : senderTx c L t = .error L') : L'.acc = L.acc := by
  have hsender : (L.sender c t).acc = L.acc := by rw [L.sender_eq c t]
  rw [senderTx] at h
  split at h
  · cases h
    rfl
  dsimp only at h
  split at h
  · cases h
    exact hsender
  rcases bind_eq_error h with hfail | ⟨⟨L₂, cost⟩, hok, hsettle⟩
  · rw [lockedEffect] at hfail
    split at hfail
    · split at hfail <;> cases hfail
      exact hsender
    · exact (effect_error hfail).trans hsender
  · have hframe := (lockedEffect_frame hok).acc.trans hsender
    simp only [settle] at hsettle
    split at hsettle
    · cases hsettle
      exact hframe
    split at hsettle <;> cases hsettle
    exact hframe

/-- A failing creation has not touched the accounts. -/
theorem createAccount_error {pkey : Hash} {time : UInt32}
    (h : createAccount c L nuser mass pkey time = .error L') : L'.acc = L.acc := by
  rw [createAccount] at h
  split at h
  · cases h
    rfl
  split at h
  · dsimp only at h
    split at h <;> cases h
    exact L.fetch_acc nuser
  · cases h

/-- What a rejected message leaves in the accounts of its bank. -/
theorem processTx_error (hstored : Stored c L.acc) (h : processTx c L t = .error L') :
    Stored c L'.acc := by
  unfold processTx at h
  dsimp only at h
  split at h
  · cases h
  · cases h
  · cases h
    exact hstored
  split at h
  · cases h
    exact hstored
  split at h
  · cases h
    exact hstored
  split at h
  · rcases bind_eq_error h with hfail | ⟨L₁, -, hret⟩
    · rw [createAccount_error hfail]
      exact hstored
    · cases hret
  split at h
  · rcases bind_eq_error h with hfail | ⟨L₁, hok, hsender⟩
    · rw [createAccount_error hfail]
      exact hstored
    · rw [senderTx_error hsender, createAccount_acc hok]
      exact hstored.putUser ..
  · rw [senderTx_error h]
    exact hstored

/-- A rejected message leaves nothing behind in the accounts, or the accounts that it has
created before it failed. -/
theorem processMessage_reject {env : Env} {s s' : State} {msg : Message}
    (hfile : (s.srvs.node msg.svid).users.toNat ≤ (s.usr msg.svid).size)
    (h : processMessage env s msg = .reject s') :
    s' = s ∨ ∃ L : Loop, s' = L.effects ⟨env, s, msg⟩ ∧ Stored ⟨env, s, msg⟩ L.acc := by
  have hinit := Tracked.init (c := ⟨env, s, msg⟩) hfile
  simp only [processMessage] at h
  split at h
  · cases h
    exact Or.inl rfl
  split at h
  · cases h
    exact Or.inl rfl
  split at h
  · rename_i L hloop
    cases h
    obtain ⟨pre, t, post, L₁, -, hrun, hstep⟩ := foldlM_eq_error hloop
    exact Or.inr ⟨L, rfl, processTx_error (hinit.foldlM hrun).stored hstep⟩
  · rename_i L hloop
    split at h
    · cases h
      exact Or.inr ⟨L, rfl, (hinit.foldlM hloop).stored⟩
    split at h <;> cases h

/-- An accepted message, seen from an account of its bank. -/
theorem processMessage_account {env : Env} {s s' : State} {msg : Message} {rs : List Receipt}
    (hfile : (s.srvs.node msg.svid).users.toNat ≤ (s.usr msg.svid).size)
    (h : processMessage env s msg = .accept s' rs) (uid : UInt32) :
    ∃ u, AccountTxs ⟨env, s, msg⟩ uid ((s.usr msg.svid).get uid.toNat) msg.txs u ∧
      Credited u ((s'.usr msg.svid).get uid.toNat) := by
  obtain ⟨-, -, L, hloop, hcommit, -⟩ := processMessage_accept h
  have htracked := (Tracked.init (c := ⟨env, s, msg⟩) hfile).foldlM hloop
  refine ⟨_, foldlM_account hloop uid, ?_⟩
  rw [commitMessage_usr hcommit, Function.update_self, Loop.get_writeAll _ uid.toNat_lt]
  exact htracked.commitLocal.2.2 uid

end Esc
