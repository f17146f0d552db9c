import Esc.Lib.Loop
import Esc.Server.ProcessMessage

/-!
# What the transaction loop does

One statement for each part of the loop body, so that later proofs never unfold
it. `Loop.user` is the account table as the loop sees it: the changed record where
there is one, the file elsewhere. On this table fetching an account is invisible,
and creating, settling and committing an account replace one entry each.
-/

namespace Esc

open Lib

variable {c : Ctx} {L L' : Loop} {t : UserTxs} {nuser time : UInt32} {u : User} {i : Nat}
  {mass : Int64} {pkey : Hash} {cost : Cost}

/-- The account that a transaction creates or overwrites. -/
def UserTxs.created (t : UserTxs) : Option UInt32 :=
  if t.ttype = .uok then some t.auser
  else if t.ttype = .usr ∧ t.abank = t.bbank then some t.nuser
  else none

/-- The present record of an account. -/
def Loop.user (L : Loop) (i : Nat) : User := L.changes[UInt32.ofNat i]?.getD (L.acc.file.get i)

theorem Loop.user_toNat (L : Loop) (uid : UInt32) :
    L.user uid.toNat = L.changes[uid]?.getD (L.acc.file.get uid.toNat) := by
  unfold Loop.user
  rw [UInt32.ofNat_toNat]

/-- A table index and the account id it stands for. -/
theorem ofNat_eq_iff (hi : i < 2 ^ 32) (uid : UInt32) : UInt32.ofNat i = uid ↔ i = uid.toNat := by
  constructor
  · intro h
    rw [← h, UInt32.toNat_ofNat', Nat.mod_eq_of_lt hi]
  · intro h
    rw [h, UInt32.ofNat_toNat]

/-- Changing a record replaces one entry of the table. -/
theorem Loop.user_insert (L L' : Loop) (uid : UInt32) (u : User)
    (hchanges : L'.changes = L.changes.insert uid u)
    (hfile : ∀ i, i ≠ uid.toNat → L'.acc.file.get i = L.acc.file.get i) (hi : i < 2 ^ 32) :
    L'.user i = if i = uid.toNat then u else L.user i := by
  unfold Loop.user
  rw [hchanges, Map.getElem?_insert]
  simp only [ofNat_eq_iff hi]
  by_cases h : i = uid.toNat
  · simp [h]
  · simp [h, hfile i h]

section Fetch

variable (L : Loop) (uid : UInt32)

theorem Loop.fetch_of_some (h : L.changes[uid]? = some u) : L.fetch uid = L := by
  simp [Loop.fetch, h]

theorem Loop.fetch_of_none (h : L.changes[uid]? = none) :
    L.fetch uid = { L with
      changes := L.changes.insert uid (L.acc.file.get uid.toNat)
      undo := L.undo.insert uid (L.acc.file.get uid.toNat) } := by
  simp [Loop.fetch, h, readUser_default]

/-- Fetching changes the cache and the undo records only. -/
theorem Loop.fetch_eq :
    L.fetch uid = { L with
      changes := (L.fetch uid).changes
      undo := (L.fetch uid).undo } := by
  unfold Loop.fetch
  split <;> rfl

theorem Loop.fetch_getElem? : (L.fetch uid).changes[uid]? = some (L.user uid.toNat) := by
  rw [Loop.user_toNat]
  cases h : L.changes[uid]? with
  | some u => rw [L.fetch_of_some uid h, h, Option.getD_some]
  | none => rw [L.fetch_of_none uid h, Map.getElem?_insert_same, Option.getD_none]

theorem Loop.fetch_val : (L.fetch uid).changes.val uid = L.user uid.toNat :=
  Map.val_of_getElem? (L.fetch_getElem? uid)

theorem Loop.fetch_user (hi : i < 2 ^ 32) : (L.fetch uid).user i = L.user i := by
  cases h : L.changes[uid]? with
  | some u => rw [L.fetch_of_some uid h]
  | none =>
      have hnew := Loop.user_insert L (L.fetch uid) uid (L.acc.file.get uid.toNat)
        (by rw [L.fetch_of_none uid h]) (by rw [L.fetch_of_none uid h]; exact fun _ _ => rfl) hi
      rw [hnew]
      split
      · rename_i hiu
        rw [hiu, Loop.user_toNat, h, Option.getD_none]
      · rfl

theorem Loop.fetch_users : (L.fetch uid).users = L.users := by
  rw [L.fetch_eq uid]

theorem Loop.fetch_acc : (L.fetch uid).acc = L.acc := by
  rw [L.fetch_eq uid]

end Fetch

/-- The record of a new account. -/
def newUser (c : Ctx) (nuser : UInt32) (mass : Int64) (pkey : Hash) (time : UInt32) : User :=
  initUser c.env.sha256 (c.s.srvs.node 0).msha c.msg.svid nuser mass pkey time

/-- What a successful account creation did: it overwrote an account that may be
overwritten, or appended one. -/
theorem createAccount_cases (h : createAccount c L nuser mass pkey time = .ok L') :
    (nuser < L.users ∧ overwriteDenied c.s.srvs.now (L.user nuser.toNat) = false ∧
      L' = { L.fetch nuser with
        localFee := L.localFee + (L.user nuser.toNat).weight
        weight := L.weight - (L.user nuser.toNat).weight + mass
        receipts := { leftover := (L.user nuser.toNat).weight } :: L.receipts
        csum := L.csum ^^^ (L.user nuser.toNat).csum ^^^ (newUser c nuser mass pkey time).csum
        changes := (L.fetch nuser).changes.insert nuser (newUser c nuser mass pkey time)
        acc := L.acc.putUser (newUser c nuser mass pkey time) nuser }) ∨
    (nuser = L.users ∧
      L' = { L with
        users := L.users + 1
        weight := L.weight + mass
        csum := L.csum ^^^ (newUser c nuser mass pkey time).csum
        changes := L.changes.insert nuser (newUser c nuser mass pkey time)
        acc := L.acc.putUser (newUser c nuser mass pkey time) nuser }) := by
  unfold createAccount at h
  split at h
  · cases h
  · rename_i hle
    split at h
    · rename_i hlt
      simp only [Loop.fetch_val] at h
      split at h
      · cases h
      · rename_i hdenied
        refine Or.inl ⟨hlt, by simpa using hdenied, ?_⟩
        cases h
        rw [L.fetch_eq nuser]
        rfl
    · rename_i hge
      refine Or.inr ⟨?_, ?_⟩
      · grind
      · cases h
        have hzero : L.csum ^^^ (default : User).csum = L.csum := BitVec.xor_zero
        simp only [Loop.initAccount, newUser, hzero]

/-- The account table after a creation. -/
theorem createAccount_user (h : createAccount c L nuser mass pkey time = .ok L') (hi : i < 2 ^ 32) :
    L'.user i = if i = nuser.toNat then newUser c nuser mass pkey time else L.user i := by
  have hfile : ∀ j, j ≠ nuser.toNat →
      (L.acc.putUser (newUser c nuser mass pkey time) nuser).file.get j = L.acc.file.get j :=
    fun j hj => Table.get_write_ne _ _ hj
  rcases createAccount_cases h with ⟨-, -, rfl⟩ | ⟨-, rfl⟩
  · rw [← L.fetch_user nuser hi]
    refine Loop.user_insert (L.fetch nuser) _ nuser _ rfl ?_ hi
    rw [L.fetch_acc]
    exact hfile
  · exact Loop.user_insert L _ nuser _ rfl hfile hi

/-- The user count and the file size after a creation. -/
theorem createAccount_acc (h : createAccount c L nuser mass pkey time = .ok L') :
    L'.acc = L.acc.putUser (newUser c nuser mass pkey time) nuser := by
  rcases createAccount_cases h with ⟨-, -, rfl⟩ | ⟨-, rfl⟩ <;> rfl

/-- The part of the loop state that the effect of a transaction leaves alone: all
but the pending deposits, the block requests, the broadcast log and the office. -/
structure EffectFrame (L L' : Loop) : Prop where
  port : L'.port = L.port
  ipv4 : L'.ipv4 = L.ipv4
  acc : L'.acc = L.acc
  users : L'.users = L.users
  changes : L'.changes = L.changes
  undo : L'.undo = L.undo
  csum : L'.csum = L.csum
  weight : L'.weight = L.weight
  localFee : L'.localFee = L.localFee
  lodivFee : L'.lodivFee = L.lodivFee
  tmpos : L'.tmpos = L.tmpos
  signs : L'.signs = L.signs
  receipts : L'.receipts = L.receipts

namespace EffectFrame

theorem refl (L : Loop) : EffectFrame L L := by
  constructor <;> rfl

theorem trans {L₁ L₂ : Loop} (h : EffectFrame L L₁) (h' : EffectFrame L₁ L₂) :
    EffectFrame L L₂ where
  port := h'.port.trans h.port
  ipv4 := h'.ipv4.trans h.ipv4
  acc := h'.acc.trans h.acc
  users := h'.users.trans h.users
  changes := h'.changes.trans h.changes
  undo := h'.undo.trans h.undo
  csum := h'.csum.trans h.csum
  weight := h'.weight.trans h.weight
  localFee := h'.localFee.trans h.localFee
  lodivFee := h'.lodivFee.trans h.lodivFee
  tmpos := h'.tmpos.trans h.tmpos
  signs := h'.signs.trans h.signs
  receipts := h'.receipts.trans h.receipts

theorem user (h : EffectFrame L L') (i : Nat) : L'.user i = L.user i := by
  unfold Loop.user
  rw [h.changes, h.acc]

theorem checkUser (h : EffectFrame L L') (c : Ctx) (bank : UInt16) (user : UInt32) :
    c.checkUser L' bank user = c.checkUser L bank user := by
  unfold Ctx.checkUser
  rw [h.acc]

theorem credit (L : Loop) (abank bank : UInt16) (user : UInt32) (mass : Int64) :
    EffectFrame L (L.credit abank bank user mass) := by
  unfold Loop.credit
  split <;> constructor <;> rfl

end EffectFrame

/-- The transfers of a transaction. -/
def UserTxs.credits (t : UserTxs) : List ToAddress :=
  match t.ttype with
  | .put => [⟨t.bbank, t.buser, t.putMass⟩]
  | .mpt => t.toaddresses
  | _ => []

/-- Several credits in a row. -/
def Loop.creditAll (L : Loop) (abank : UInt16) (cs : List ToAddress) : Loop :=
  cs.foldl (fun L a => L.credit abank a.tbank a.tuser a.tmass) L

theorem EffectFrame.creditAll (L : Loop) (abank : UInt16) (cs : List ToAddress) :
    EffectFrame L (L.creditAll abank cs) := by
  induction cs generalizing L with
  | nil => exact .refl L
  | cons a cs ih => exact (EffectFrame.credit L abank a.tbank a.tuser a.tmass).trans (ih _)

/-- One accepted target of a multiple transfer. -/
theorem mptStep_ok {abank : UInt16} {m m' : Mpt} {a : ToAddress}
    (h : mptStep c abank m a = .ok m') :
    0 < a.tmass ∧ depositKey a.tbank a.tuser ∉ m.out ∧ c.checkUser m.loop a.tbank a.tuser = true ∧
      m' = {
        loop := m.loop.credit abank a.tbank a.tuser a.tmass
        out := depositKey a.tbank a.tuser :: m.out
        tmass := m.tmass + a.tmass
        fee := m.fee + txsMptFee a.tmass + (if abank = a.tbank then 0 else txsLngFee a.tmass)
        remoteFee := m.remoteFee + (if abank = a.tbank then 0 else txsLngFee a.tmass) } := by
  unfold mptStep at h
  split at h
  · cases h
  · rename_i hpos
    split at h
    · cases h
    · rename_i hout
      split at h
      · cases h
      · rename_i huser
        cases h
        exact ⟨by grind, hout, by simpa using huser, rfl⟩

/-- Machine sums over the targets of a multiple transfer. -/
def mptMass (cs : List ToAddress) : Int64 := cs.foldl (fun x a => x + a.tmass) 0

def mptLng (abank : UInt16) (cs : List ToAddress) : Int64 :=
  cs.foldl (fun x a => x + (if abank = a.tbank then 0 else txsLngFee a.tmass)) 0

def mptFee (abank : UInt16) (cs : List ToAddress) : Int64 :=
  cs.foldl (fun x a => x + txsMptFee a.tmass +
    (if abank = a.tbank then 0 else txsLngFee a.tmass)) 0

/-- An accepted multiple transfer has positive amounts and existing, different
targets, and credits each of them. -/
theorem mptTx_ok (h : mptTx c L t = .ok (L', cost)) :
    (∀ a ∈ t.toaddresses, 0 < a.tmass ∧ c.checkUser L a.tbank a.tuser = true) ∧
      (t.toaddresses.map fun a => depositKey a.tbank a.tuser).Nodup ∧
      L' = L.creditAll t.abank t.toaddresses ∧
      cost = {
        deduct := mptMass t.toaddresses
        fee := if mptFee t.abank t.toaddresses < txsMinMptFee (Int64.ofNat t.bbank.toNat)
          then txsMinMptFee (Int64.ofNat t.bbank.toNat) else mptFee t.abank t.toaddresses
        remoteFee := mptLng t.abank t.toaddresses } := by
  obtain ⟨m, hm, hret⟩ := bind_eq_ok h
  have hinv := foldlM_invariant (f := mptStep c t.abank)
    (fun pre m => (∀ a ∈ pre, 0 < a.tmass ∧ c.checkUser L a.tbank a.tuser = true) ∧
      (pre.map fun a => depositKey a.tbank a.tuser).Nodup ∧
      m = {
        loop := L.creditAll t.abank pre
        out := (pre.map fun a => depositKey a.tbank a.tuser).reverse
        tmass := mptMass pre
        fee := mptFee t.abank pre
        remoteFee := mptLng t.abank pre })
    ⟨by simp, by simp, rfl⟩ ?_ hm
  · obtain ⟨htargets, hnodup, rfl⟩ := hinv
    cases hret
    exact ⟨htargets, hnodup, rfl, rfl⟩
  · rintro pre a post m m' - ⟨htargets, hnodup, rfl⟩ hstep
    obtain ⟨hpos, hout, huser, rfl⟩ := mptStep_ok hstep
    rw [(EffectFrame.creditAll L t.abank pre).checkUser] at huser
    refine ⟨?_, ?_, ?_⟩
    · intro b hb
      rcases List.mem_append.mp hb with hb | hb
      · exact htargets b hb
      · rw [List.mem_singleton.mp hb]
        exact ⟨hpos, huser⟩
    · rw [List.map_append, List.nodup_append]
      refine ⟨hnodup, by simp, ?_⟩
      intro k hk k' hk' hkk
      rw [List.mem_reverse] at hout
      simp only [List.map_cons, List.map_nil, List.mem_singleton] at hk'
      exact hout (hk' ▸ hkk ▸ hk)
    · simp [Loop.creditAll, mptMass, mptFee, mptLng, List.foldl_append]

/-- An accepted transfer has an existing target and credits it. -/
theorem putTx_ok (h : putTx c L t = .ok (L', cost)) :
    c.checkUser L t.bbank t.buser = true ∧
      L' = L.credit t.abank t.bbank t.buser t.putMass ∧
      cost = {
        deduct := t.putMass
        fee := putFee t.putMass t.putLng
        remoteFee := t.putLng } := by
  unfold putTx at h
  split at h
  · rename_i huser
    cases h
    exact ⟨huser, rfl, rfl⟩
  · cases h

theorem bkyTx_frame (h : bkyTx c L t = .ok (L', cost)) : EffectFrame L L' := by
  unfold bkyTx at h
  dsimp only at h
  split at h
  · cases h
  · split at h
    · cases h
    · split at h
      · cases h
        exact .refl L
      · split at h
        · cases h
        · cases h
          constructor <;> rfl

theorem statusTx_frame {vote : Requests → UInt64 → UInt32 → Requests} {fee : Int64}
    (h : statusTx c L t vote fee = .ok (L', cost)) : EffectFrame L L' := by
  unfold statusTx at h
  split at h
  · cases h
  · split at h
    · cases h
    · split at h
      · cases h
        constructor <;> rfl
      · cases h
        exact .refl L

theorem bitsTx_frame {f : Dsu → UInt16 → Dsu} {fee : Int64}
    (h : bitsTx c L t f fee = .ok (L', cost)) : EffectFrame L L' := by
  unfold bitsTx at h
  split at h
  · cases h
  · split at h
    · cases h
      constructor <;> rfl
    · cases h
      exact .refl L

/-- The effect of a transaction stays within its frame. -/
theorem effect_frame (h : effect c L t u = .ok (L', cost)) : EffectFrame L L' := by
  cases ht : t.ttype <;> simp only [effect, ht] at h
  case bro =>
    split at h
    · cases h
    · cases h
      constructor <;> rfl
  case put =>
    obtain ⟨-, rfl, -⟩ := putTx_ok h
    exact .credit L _ _ _ _
  case mpt =>
    obtain ⟨-, -, rfl, -⟩ := mptTx_ok h
    exact .creditAll L _ _
  case usr =>
    unfold usrTx at h
    split at h
    · cases h
      exact .refl L
    · cases h
      constructor <;> rfl
  case bnk =>
    cases h
    constructor <;> rfl
  case get =>
    split at h
    · cases h
    · cases h
      constructor <;> rfl
  case sav =>
    split at h
    · cases h
    · cases h
      exact .refl L
  case bky => exact bkyTx_frame h
  case sbs | ubs => exact statusTx_frame h
  case sus | uus => exact bitsTx_frame h
  case non | con | uok | key | inf =>
    cases h
    exact .refl L

/-- Behind the account lock either nothing happens at no cost, or the account is
not locked and the transaction takes effect. -/
theorem lockedEffect_cases (h : lockedEffect c L t u = .ok (L', cost)) :
    (unlocks t = true ∧ L' = L ∧ cost = {}) ∨ effect c L t u = .ok (L', cost) := by
  unfold lockedEffect at h
  split at h
  · split at h
    · rename_i hunlocks
      cases h
      exact Or.inl ⟨hunlocks, rfl, rfl⟩
    · cases h
  · exact Or.inr h

theorem lockedEffect_frame (h : lockedEffect c L t u = .ok (L', cost)) : EffectFrame L L' := by
  rcases lockedEffect_cases h with ⟨-, rfl, -⟩ | h
  · exact .refl _
  · exact effect_frame h

/-- Preparing the sender changes the cache, the undo records and the batch only. -/
theorem Loop.sender_eq (c : Ctx) (L : Loop) (t : UserTxs) :
    L.sender c t = { L with
      changes := (L.fetch t.auser).changes
      undo := (L.fetch t.auser).undo
      signs := (L.sender c t).signs } := by
  unfold Loop.sender
  dsimp only
  split <;> rw [L.fetch_eq t.auser]

theorem Loop.sender_val (c : Ctx) (L : Loop) (t : UserTxs) :
    (L.sender c t).changes.val t.auser = L.user t.auser.toNat := by
  rw [L.sender_eq c t]
  exact L.fetch_val t.auser

theorem Loop.sender_user (c : Ctx) (L : Loop) (t : UserTxs) (hi : i < 2 ^ 32) :
    (L.sender c t).user i = L.user i := by
  rw [← L.fetch_user t.auser hi]
  unfold Loop.user
  rw [L.sender_eq c t, L.fetch_acc]

/-- The sender after its dividend. -/
def Ctx.paidUser (c : Ctx) (L : Loop) (t : UserTxs) : User :=
  (dividend c.s.srvs (L.user t.auser.toNat) L.lodivFee).2.1

/-- The dividend that the sender got. -/
def Ctx.paidDiv (c : Ctx) (L : Loop) (t : UserTxs) : Int64 :=
  paid (dividend c.s.srvs (L.user t.auser.toNat) L.lodivFee).1

/-- What a successful transaction of an existing sender did. `L₂` is the loop state
after the effect of the transaction, before the sender pays for it. -/
theorem senderTx_ok (h : senderTx c L t = .ok L') :
    ∃ L₂ cost, t.auser < L.users ∧ (L.user t.auser.toNat).msid = t.amsid ∧
      lockedEffect c (L.sender c t) t (L.user t.auser.toNat) = .ok (L₂, cost) ∧
      0 ≤ cost.deduct ∧ 0 ≤ cost.fee ∧
      tooLow t cost (c.paidUser L t) (L₂.localDsu.val t.auser) = false ∧
      L' = { L₂ with
        changes := L₂.changes.insert t.auser
          (settleUser c t cost (c.paidUser L t) (L₂.localDsu.val t.auser))
        localDsu := L₂.localDsu.insert t.auser {}
        weight := L.weight + c.paidDiv L t +
          ((L₂.localDsu.val t.auser).deposit - cost.deduct - cost.fee)
        lodivFee := (dividend c.s.srvs (L.user t.auser.toNat) L.lodivFee).2.2
        localFee := L.localFee + (cost.fee - cost.remoteFee)
        receipts := { user := t.auser, div := c.paidDiv L t, fee := cost.fee } :: L.receipts } := by
  unfold senderTx at h
  split at h
  · cases h
  · rename_i husers
    dsimp only at h
    rw [L.sender_val c t] at h
    split at h
    · cases h
    · rename_i hmsid
      obtain ⟨⟨L₂, cost⟩, heffect, hsettle⟩ := bind_eq_ok h
      have hframe := lockedEffect_frame heffect
      have hval : L₂.changes.val t.auser = L.user t.auser.toNat := by
        rw [hframe.changes, L.sender_val c t]
      have hlodiv : L₂.lodivFee = L.lodivFee := by
        rw [hframe.lodivFee, L.sender_eq c t]
      have hweight : L₂.weight = L.weight := by
        rw [hframe.weight, L.sender_eq c t]
      have hfee : L₂.localFee = L.localFee := by
        rw [hframe.localFee, L.sender_eq c t]
      have hreceipts : L₂.receipts = L.receipts := by
        rw [hframe.receipts, L.sender_eq c t]
      unfold settle at hsettle
      dsimp only at hsettle
      rw [hval, hlodiv, hweight, hfee, hreceipts] at hsettle
      split at hsettle
      · cases hsettle
      · rename_i hneg
        split at hsettle
        · cases hsettle
        · rename_i hlow
          refine ⟨L₂, cost, by grind, by simpa using hmsid, heffect, by grind, by grind,
            by simpa [Ctx.paidUser] using hlow, ?_⟩
          cases hsettle
          rfl

/-- The checks that every transaction with an effect passes first. -/
def timely (c : Ctx) (t : UserTxs) : Prop :=
  t.ttime ≤ c.s.srvs.now + blockSec + 5 ∧ t.abank = c.msg.svid

/-- What a successful iteration of the loop did. `L₁` is the loop state with the
transaction counted. -/
theorem processTx_cases (h : processTx c L t = .ok L') :
    (t.ttype = .non ∧ L' = { L with tmpos := L.tmpos + 1 }) ∨
    (t.ttype = .con ∧
      L' = { L with tmpos := L.tmpos + 1, port := t.abank.toUInt32, ipv4 := t.auser }) ∨
    (t.ttype = .uok ∧ timely c t ∧
      ∃ L₁, createAccount c { L with tmpos := L.tmpos + 1 } t.auser 0 t.upkey t.ttime = .ok L₁ ∧
        L' = { L₁ with txs := { L₁.txs with
          uok := L₁.txs.uok.insert (c.ppb L₁ c.msg.svid) ⟨t.auser, t.bbank, t.buser, t.upkey⟩ } }) ∨
    (t.ttype = .usr ∧ t.abank = t.bbank ∧ timely c t ∧
      ∃ L₁, createAccount c { L with tmpos := L.tmpos + 1 } t.nuser userMinMass t.npkey t.ttime =
          .ok L₁ ∧ senderTx c L₁ t = .ok L') ∨
    ((t.ttype ≠ .non ∧ t.ttype ≠ .con ∧ t.ttype ≠ .uok ∧ t.ttype ≠ .inf ∧
        ¬ (t.ttype = .usr ∧ t.abank = t.bbank)) ∧ timely c t ∧
      senderTx c { L with tmpos := L.tmpos + 1 } t = .ok L') := by
  by_cases hnon : t.ttype = .non
  · simp only [processTx, hnon, Except.ok.injEq] at h
    exact Or.inl ⟨hnon, h.symm⟩
  by_cases hcon : t.ttype = .con
  · simp only [processTx, hcon, Except.ok.injEq] at h
    exact Or.inr (Or.inl ⟨hcon, h.symm⟩)
  by_cases hinf : t.ttype = .inf
  · simp [processTx, hinf] at h
  unfold processTx at h
  dsimp only at h
  split at h
  · exact absurd ‹_› hnon
  · exact absurd ‹_› hcon
  · exact absurd ‹_› hinf
  split at h
  · cases h
  rename_i htime
  split at h
  · cases h
  rename_i hbank
  have htimely : timely c t := ⟨by grind, by simpa using hbank⟩
  split at h
  · rename_i huok
    obtain ⟨L₁, hcreate, hret⟩ := bind_eq_ok h
    cases hret
    exact Or.inr (Or.inr (Or.inl ⟨huok, htimely, L₁, hcreate, rfl⟩))
  rename_i huok
  split at h
  · rename_i husr
    obtain ⟨L₁, hcreate, hsender⟩ := bind_eq_ok h
    exact Or.inr (Or.inr (Or.inr (Or.inl ⟨husr.1, husr.2, htimely, L₁, hcreate, hsender⟩)))
  · rename_i husr
    exact Or.inr (Or.inr (Or.inr (Or.inr ⟨⟨hnon, hcon, huok, hinf, husr⟩, htimely, h⟩)))

/-- The record of a local account after its pending deposit and status bits. -/
def dsuUser (c : Ctx) (uid : UInt32) (d : Dsu) (u : User) : User :=
  userCsum c.env.sha256 (d.apply u) c.msg.svid uid

theorem commitDsu_of_some {uid : UInt32} (buf : User) (d : Dsu) (h : L.changes[uid]? = some u) :
    commitDsu c (L, buf) uid d =
      ({ L with
        csum := L.csum ^^^ u.csum ^^^ (dsuUser c uid d u).csum
        weight := L.weight + d.deposit
        changes := L.changes.insert uid (dsuUser c uid d u) }, buf) := by
  simp [commitDsu, h, dsuUser]

theorem commitDsu_of_none {uid : UInt32} (buf : User) (d : Dsu) (h : L.changes[uid]? = none)
    (hlt : uid.toNat < L.acc.file.size) :
    commitDsu c (L, buf) uid d =
      ({ L with
        undo := L.undo.insert uid (L.user uid.toNat)
        csum := L.csum ^^^ (L.user uid.toNat).csum ^^^
          (dsuUser c uid d (dividend c.s.srvs (L.user uid.toNat) L.lodivFee).2.1).csum
        weight := L.weight + paid (dividend c.s.srvs (L.user uid.toNat) L.lodivFee).1 + d.deposit
        lodivFee := (dividend c.s.srvs (L.user uid.toNat) L.lodivFee).2.2
        changes := L.changes.insert uid
          (dsuUser c uid d (dividend c.s.srvs (L.user uid.toNat) L.lodivFee).2.1)
        receipts :=
          { user := uid, div := paid (dividend c.s.srvs (L.user uid.toNat) L.lodivFee).1 } ::
            L.receipts },
        dsuUser c uid d (dividend c.s.srvs (L.user uid.toNat) L.lodivFee).2.1) := by
  have huser : L.user uid.toNat = L.acc.file.get uid.toNat := by
    rw [Loop.user_toNat, h, Option.getD_none]
  simp [commitDsu, h, dsuUser, readUser_of_lt hlt, huser]

/-- The final writes leave the present records in the account file. -/
theorem Loop.get_writeAll (L : Loop) (hi : i < 2 ^ 32) :
    (L.acc.file.writeAll UInt32.toNat L.changes).get i = L.user i := by
  have hinj : Function.Injective UInt32.toNat := fun _ _ => UInt32.toNat_inj.mp
  have hindex : (UInt32.ofNat i).toNat = i := by
    rw [UInt32.toNat_ofNat', Nat.mod_eq_of_lt hi]
  have hget := Table.get_writeAll hinj L.acc.file L.changes (UInt32.ofNat i)
  rw [hindex] at hget
  exact hget

end Esc
