import Esc.Server.LoopSpec

/-!
# Transaction effects in closed form

What the effect of a transaction adds to the maps of its message, as functions of
the transaction. The balance of the sender and the fees are not involved, so these
forms hold of every successful iteration, with or without an account lock.
-/

namespace Esc

open Lib

variable {c : Ctx} {L L' L₂ : Loop} {t : UserTxs} {u : User} {cost : Cost}

/-- Key in the block maps of the transaction at a position of the message. -/
def Ctx.keyAt (c : Ctx) (pos : UInt32) (bbank : UInt16) : UInt64 :=
  makePpi pos c.omsid c.msg.msid c.msg.svid bbank

theorem Ctx.ppb_eq (c : Ctx) (L : Loop) (bbank : UInt16) : c.ppb L bbank = c.keyAt L.tmpos bbank :=
  rfl

/-- The block-level request of a transaction; `pkey` is the key of its sender. -/
def UserTxs.request (t : UserTxs) (c : Ctx) (pos : UInt32) (pkey : Hash) (r : Requests) :
    Requests :=
  match t.ttype with
  | .usr =>
      if t.abank = t.bbank then r
      else { r with usr := r.usr.insert (c.keyAt pos c.msg.svid) ⟨t.auser, t.bbank, t.npkey⟩ }
  | .uok =>
      { r with uok := r.uok.insert (c.keyAt pos c.msg.svid) ⟨t.auser, t.bbank, t.buser, t.upkey⟩ }
  | .bnk => { r with bnk := r.bnk.insert (c.keyAt pos c.msg.svid) t.auser }
  | .get => { r with get := r.get.insert (c.keyAt pos t.bbank) ⟨t.auser, t.buser, pkey⟩ }
  | .sbs =>
      if hasBit (c.s.last.node c.msg.svid).status serverVip || t.abank = t.bbank then
        { r with sbs := r.sbs.insert (c.keyAt pos t.bbank) t.tmass.toUInt64.toUInt32 }
      else r
  | .ubs =>
      if hasBit (c.s.last.node c.msg.svid).status serverVip || t.abank = t.bbank then
        { r with ubs := r.ubs.insert (c.keyAt pos t.bbank) t.tmass.toUInt64.toUInt32 }
      else r
  | _ => r

/-- The node that a transaction gives a new key, 0 when there is none. -/
def UserTxs.rekeyed (t : UserTxs) (c : Ctx) : UInt16 :=
  if t.ttype = .bky then bkyNode c.s c.msg.svid t else 0

/-- The key change of a transaction. -/
def UserTxs.rekey (t : UserTxs) (c : Ctx) (pos : UInt32) (m : Map UInt64 Hash) :
    Map UInt64 Hash :=
  if t.rekeyed c = 0 then m else m.insert (c.keyAt pos (t.rekeyed c)) t.key

/-- The deposits of a transaction in other banks. -/
def creditRemote (abank : UInt16) (cs : List ToAddress) (m : Map UInt64 Int64) :
    Map UInt64 Int64 :=
  cs.foldl (fun m a =>
    if a.tbank = abank then m else m.adjust (depositKey a.tbank a.tuser) (· + a.tmass)) m

/-- The call on the office that a transaction makes at once. -/
def UserTxs.notify (t : UserTxs) (c : Ctx) (o : Office) : Office :=
  if t.ttype = .usr ∧ t.abank ≠ t.bbank ∧ t.bbank = c.env.svid then
    { o with remoteUsers := o.remoteUsers ++ [(t.abank, t.auser, t.npkey)] }
  else if t.rekeyed c ≠ 0 ∧ t.rekeyed c = c.env.svid then { o with pkey := t.key }
  else o

/-- The result of an effect in the maps of the message. -/
structure EffectSpec (c : Ctx) (L : Loop) (t : UserTxs) (u : User) (L₂ : Loop) : Prop where
  txsDeposit : L₂.txsDeposit = creditRemote t.abank t.credits L.txsDeposit
  txs : L₂.txs = t.request c L.tmpos u.pkey L.txs
  txsBky : L₂.txsBky = t.rekey c L.tmpos L.txsBky
  office : L₂.office = t.notify c L.office
  target : ∀ a ∈ t.credits, a.tbank ≠ t.abank → c.checkUser L a.tbank a.tuser = true
  opkey : t.rekeyed c ≠ 0 → (c.s.srvs.node (t.rekeyed c)).pk = t.opkey
  get : t.ttype = .get → t.abank ≠ t.bbank

namespace EffectSpec

/-- Transactions that leave the maps alone. -/
theorem of_same (hbky : t.ttype ≠ .bky) (husr : t.ttype ≠ .usr) (hget : t.ttype ≠ .get)
    (hcredits : t.credits = []) (hrequest : t.request c L.tmpos u.pkey L.txs = L.txs)
    (hdep : L₂.txsDeposit = L.txsDeposit) (htxs : L₂.txs = L.txs) (hmap : L₂.txsBky = L.txsBky)
    (hoffice : L₂.office = L.office) : EffectSpec c L t u L₂ := by
  have hrekeyed : t.rekeyed c = 0 := if_neg hbky
  refine ⟨?_, ?_, ?_, ?_, ?_, ?_, ?_⟩
  · rw [hcredits]
    exact hdep
  · rw [hrequest, htxs]
  · rw [hmap, UserTxs.rekey, if_pos hrekeyed]
  · rw [hoffice, UserTxs.notify, if_neg (fun h => husr h.1), if_neg (fun h => h.1 hrekeyed)]
  · rw [hcredits]
    intro a ha
    cases ha
  · intro h
    exact absurd hrekeyed h
  · intro h
    exact absurd h hget

end EffectSpec

theorem Loop.creditAll_txsDeposit (L : Loop) (abank : UInt16) (cs : List ToAddress) :
    (L.creditAll abank cs).txsDeposit = creditRemote abank cs L.txsDeposit := by
  induction cs generalizing L with
  | nil => rfl
  | cons a cs ih =>
      refine (ih (L.credit abank a.tbank a.tuser a.tmass)).trans ?_
      rw [creditRemote, creditRemote, List.foldl_cons, Loop.credit]
      split <;> rfl

theorem Loop.creditAll_office (L : Loop) (abank : UInt16) (cs : List ToAddress) :
    (L.creditAll abank cs).office = L.office ∧ (L.creditAll abank cs).txs = L.txs ∧
      (L.creditAll abank cs).txsBky = L.txsBky := by
  induction cs generalizing L with
  | nil => exact ⟨rfl, rfl, rfl⟩
  | cons a cs ih =>
      obtain ⟨ho, ht, hb⟩ := ih (L.credit abank a.tbank a.tuser a.tmass)
      have hcredit : (L.credit abank a.tbank a.tuser a.tmass).office = L.office ∧
          (L.credit abank a.tbank a.tuser a.tmass).txs = L.txs ∧
          (L.credit abank a.tbank a.tuser a.tmass).txsBky = L.txsBky := by
        rw [Loop.credit]
        split <;> exact ⟨rfl, rfl, rfl⟩
      exact ⟨ho.trans hcredit.1, ht.trans hcredit.2.1, hb.trans hcredit.2.2⟩

theorem Loop.mem_localDsu_creditAll {abank : UInt16} {cs : List ToAddress} {uid : UInt32}
    (h : uid ∈ (L.creditAll abank cs).localDsu) :
    uid ∈ L.localDsu ∨ ∃ a ∈ cs, a.tbank = abank ∧ a.tuser = uid := by
  induction cs generalizing L with
  | nil => exact Or.inl h
  | cons a cs ih =>
      rcases ih h with hmem | ⟨b, hb, hbank⟩
      · change uid ∈ (L.credit abank a.tbank a.tuser a.tmass).localDsu at hmem
        by_cases hbank : a.tbank = abank
        · rw [Loop.credit, if_pos hbank] at hmem
          rcases Std.ExtTreeMap.mem_insert.mp hmem with heq | hmem
          · exact Or.inr ⟨a, List.mem_cons_self, hbank, Std.compare_eq_iff_eq.mp heq⟩
          · exact Or.inl hmem
        · rw [Loop.credit, if_neg hbank] at hmem
          exact Or.inl hmem
      · exact Or.inr ⟨b, List.mem_cons_of_mem _ hb, hbank⟩

/-- Transfers change the deposits only. -/
theorem EffectSpec.of_transfer (hty : t.ttype = .put ∨ t.ttype = .mpt)
    (htarget : ∀ a ∈ t.credits, a.tbank ≠ t.abank → c.checkUser L a.tbank a.tuser = true) :
    EffectSpec c L t u (L.creditAll t.abank t.credits) := by
  obtain ⟨ho, ht, hb⟩ := L.creditAll_office t.abank t.credits
  have hrekeyed : t.rekeyed c = 0 := if_neg (by rcases hty with h | h <;> simp [h])
  refine ⟨L.creditAll_txsDeposit _ _, ?_, ?_, ?_, htarget, fun h => absurd hrekeyed h, ?_⟩
  · rw [ht]
    rcases hty with h | h <;> simp [UserTxs.request, h]
  · rw [hb, UserTxs.rekey, if_pos hrekeyed]
  · rw [ho, UserTxs.notify, if_neg (by rcases hty with h | h <;> simp [h]),
      if_neg (fun h => h.1 hrekeyed)]
  · rcases hty with h | h <;> simp [h]

theorem bkyTx_spec (hty : t.ttype = .bky) (h : bkyTx c L t = .ok (L₂, cost)) :
    EffectSpec c L t u L₂ := by
  have hrekeyed : t.rekeyed c = bkyNode c.s c.msg.svid t := if_pos hty
  have hcredits : t.credits = [] := by simp [UserTxs.credits, hty]
  simp only [bkyTx] at h
  split at h
  · cases h
  split at h
  · cases h
  split at h
  · rename_i hnode
    cases h
    rw [hnode] at hrekeyed
    refine ⟨?_, ?_, ?_, ?_, ?_, fun h => absurd hrekeyed h, ?_⟩
    · rw [hcredits]
      rfl
    · simp [UserTxs.request, hty]
    · rw [UserTxs.rekey, if_pos hrekeyed]
    · simp [UserTxs.notify, hty, hrekeyed]
    · simp [hcredits]
    · simp [hty]
  rename_i hnode
  split at h
  · cases h
  rename_i hpk
  cases h
  have hne : t.rekeyed c ≠ 0 := by rwa [hrekeyed]
  refine ⟨?_, ?_, ?_, ?_, ?_, ?_, ?_⟩
  · rw [hcredits]
    rfl
  · simp [UserTxs.request, hty]
  · rw [UserTxs.rekey, if_neg hne, hrekeyed]
    rfl
  · simp [UserTxs.notify, hty, hrekeyed, hnode]
  · simp [hcredits]
  · intro _
    rw [hrekeyed]
    exact not_not.mp hpk
  · simp [hty]

/-- A request of a transaction without transfer or key change. -/
theorem EffectSpec.of_request (hbky : t.ttype ≠ .bky) (hcredits : t.credits = [])
    (hget : t.ttype = .get → t.abank ≠ t.bbank) (hdep : L₂.txsDeposit = L.txsDeposit)
    (htxs : L₂.txs = t.request c L.tmpos u.pkey L.txs) (hmap : L₂.txsBky = L.txsBky)
    (hoffice : L₂.office = t.notify c L.office) :
    EffectSpec c L t u L₂ := by
  have hrekeyed : t.rekeyed c = 0 := if_neg hbky
  refine ⟨?_, htxs, ?_, hoffice, ?_, fun h => absurd hrekeyed h, hget⟩
  · rw [hcredits]
    exact hdep
  · rw [hmap, UserTxs.rekey, if_pos hrekeyed]
  · rw [hcredits]
    intro a ha
    cases ha

theorem UserTxs.notify_eq (c : Ctx) (o : Office) (hbky : t.ttype ≠ .bky) (husr : t.ttype ≠ .usr) :
    t.notify c o = o := by
  have hrekeyed : t.rekeyed c = 0 := if_neg hbky
  rw [UserTxs.notify, if_neg (fun h => husr h.1), if_neg (fun h => h.1 hrekeyed)]

theorem statusTx_ok {vote : Requests → UInt64 → UInt32 → Requests} {fee : Int64}
    (h : statusTx c L t vote fee = .ok (L₂, cost)) :
    L₂ = { L with
      txs := if hasBit (c.s.last.node c.msg.svid).status serverVip || t.abank = t.bbank then
          vote L.txs (c.ppb L t.bbank) t.tmass.toUInt64.toUInt32
        else L.txs } := by
  rw [statusTx] at h
  split at h
  · cases h
  split at h
  · cases h
  split at h
  · rename_i hvip
    cases h
    rw [if_pos hvip]
  · rename_i hvip
    cases h
    rw [if_neg hvip]

theorem bitsTx_ok {f : Dsu → UInt16 → Dsu} {fee : Int64} (h : bitsTx c L t f fee = .ok (L₂, cost)) :
    L₂.txsDeposit = L.txsDeposit ∧ L₂.txs = L.txs ∧ L₂.txsBky = L.txsBky ∧
      L₂.office = L.office := by
  rw [bitsTx] at h
  split at h
  · cases h
  split at h <;> cases h <;> exact ⟨rfl, rfl, rfl, rfl⟩

theorem usrTx_spec (c : Ctx) (L : Loop) (u : User) (hty : t.ttype = .usr) :
    EffectSpec c L t u (usrTx c L t).1 := by
  have hrekeyed : t.rekeyed c = 0 := if_neg (by simp [hty])
  have hcredits : t.credits = [] := by simp [UserTxs.credits, hty]
  rw [usrTx]
  split
  · rename_i hbank
    refine .of_request (by simp [hty]) hcredits (by simp [hty]) rfl ?_ rfl ?_
    · simp [UserTxs.request, hty, hbank]
    · simp [UserTxs.notify, hty, hbank, hrekeyed]
  · rename_i hbank
    refine .of_request (by simp [hty]) hcredits (by simp [hty]) rfl ?_ rfl ?_
    · simp [UserTxs.request, hty, hbank, c.ppb_eq]
    · simp [UserTxs.notify, hty, hbank, hrekeyed]

/-- The effect of a transaction with a sender. -/
theorem effect_spec (huok : t.ttype ≠ .uok) (h : effect c L t u = .ok (L₂, cost)) :
    EffectSpec c L t u L₂ := by
  cases hty : t.ttype <;> simp only [effect, hty] at h
  case uok => exact absurd hty huok
  case put =>
    obtain ⟨hcheck, rfl, -⟩ := putTx_ok h
    have hcredits : t.credits = [⟨t.bbank, t.buser, t.putMass⟩] := by simp [UserTxs.credits, hty]
    have hspec : EffectSpec c L t u (L.creditAll t.abank t.credits) := by
      refine .of_transfer (Or.inl hty) ?_
      rw [hcredits]
      intro a ha _
      rw [List.mem_singleton.mp ha]
      exact hcheck
    rwa [hcredits] at hspec
  case mpt =>
    obtain ⟨htargets, -, rfl, -⟩ := mptTx_ok h
    have hcredits : t.credits = t.toaddresses := by simp [UserTxs.credits, hty]
    have hspec : EffectSpec c L t u (L.creditAll t.abank t.credits) := by
      refine .of_transfer (Or.inr hty) ?_
      rw [hcredits]
      exact fun a ha _ => (htargets a ha).2
    rwa [hcredits] at hspec
  case usr =>
    have hspec := usrTx_spec c L u hty
    rwa [Except.ok.inj h] at hspec
  case bky => exact bkyTx_spec hty h
  case bnk =>
    cases h
    refine .of_request (by simp [hty]) (by simp [UserTxs.credits, hty])
      (by simp [hty]) rfl ?_ rfl ?_
    · simp [UserTxs.request, hty, c.ppb_eq]
    · exact (t.notify_eq c _ (by simp [hty]) (by simp [hty])).symm
  case get =>
    split at h
    · cases h
    rename_i hbank
    cases h
    refine .of_request (by simp [hty]) (by simp [UserTxs.credits, hty])
      (fun _ => hbank) rfl ?_ rfl ?_
    · simp [UserTxs.request, hty, c.ppb_eq]
    · exact (t.notify_eq c _ (by simp [hty]) (by simp [hty])).symm
  case sbs | ubs =>
    obtain rfl := statusTx_ok h
    refine .of_request (by simp [hty]) (by simp [UserTxs.credits, hty])
      (by simp [hty]) rfl ?_ rfl ?_
    · simp only [UserTxs.request, hty, c.ppb_eq]
    · exact (t.notify_eq c _ (by simp [hty]) (by simp [hty])).symm
  case sus | uus =>
    obtain ⟨hdep, htxs, hmap, hoffice⟩ := bitsTx_ok h
    exact .of_same (by simp [hty]) (by simp [hty]) (by simp [hty]) (by simp [UserTxs.credits, hty])
      (by simp [UserTxs.request, hty]) hdep htxs hmap hoffice
  case bro | sav =>
    split at h <;> cases h
    exact .of_same (by simp [hty]) (by simp [hty]) (by simp [hty]) (by simp [UserTxs.credits, hty])
      (by simp [UserTxs.request, hty]) rfl rfl rfl rfl
  case non | con | key | inf =>
    cases h
    exact .of_same (by simp [hty]) (by simp [hty]) (by simp [hty]) (by simp [UserTxs.credits, hty])
      (by simp [UserTxs.request, hty]) rfl rfl rfl rfl

/-- The same behind the account lock. -/
theorem lockedEffect_spec (huok : t.ttype ≠ .uok) (h : lockedEffect c L t u = .ok (L₂, cost)) :
    EffectSpec c L t u L₂ := by
  rcases lockedEffect_cases h with ⟨hunlocks, rfl, -⟩ | heffect
  · simp only [unlocks, Bool.and_eq_true, decide_eq_true_eq] at hunlocks
    obtain ⟨⟨⟨hty, hbank⟩, -⟩, -⟩ := hunlocks
    have hcredits : t.credits = [⟨t.bbank, t.buser, t.putMass⟩] := by simp [UserTxs.credits, hty]
    have hrekeyed : t.rekeyed c = 0 := if_neg (by simp [hty])
    refine ⟨?_, ?_, ?_, ?_, ?_, fun h => absurd hrekeyed h, ?_⟩
    · rw [hcredits, creditRemote, List.foldl_cons, List.foldl_nil, if_pos hbank.symm]
    · simp [UserTxs.request, hty]
    · rw [UserTxs.rekey, if_pos hrekeyed]
    · exact (t.notify_eq c _ (by simp [hty]) (by simp [hty])).symm
    · rw [hcredits]
      intro a ha hne
      rw [List.mem_singleton.mp ha] at hne
      exact absurd hbank.symm hne
    · simp [hty]
  · exact effect_spec huok heffect

/-- One iteration of the loop in closed form, for everything but the accounts. -/
structure TxSpec (c : Ctx) (L : Loop) (t : UserTxs) (L' : Loop) : Prop where
  tmpos : L'.tmpos = L.tmpos + 1
  port : L'.port = if t.ttype = .con then t.abank.toUInt32 else L.port
  ipv4 : L'.ipv4 = if t.ttype = .con then t.auser else L.ipv4
  txsDeposit : L'.txsDeposit = creditRemote t.abank t.credits L.txsDeposit
  txs : L'.txs = t.request c (L.tmpos + 1) (L.user t.auser.toNat).pkey L.txs
  txsBky : L'.txsBky = t.rekey c (L.tmpos + 1) L.txsBky
  office : L'.office = t.notify c L.office
  abank : t.ttype ≠ .non → t.ttype ≠ .con → t.abank = c.msg.svid
  target : ∀ a ∈ t.credits, a.tbank ≠ t.abank → c.checkUser L a.tbank a.tuser = true
  opkey : t.rekeyed c ≠ 0 → (c.s.srvs.node (t.rekeyed c)).pk = t.opkey
  get : t.ttype = .get → t.abank ≠ t.bbank
  known : t.ttype ≠ .inf

/-- `check_user` for another bank does not depend on the loop. -/
theorem Ctx.checkUser_ne (c : Ctx) {bank : UInt16} (L L' : Loop) (user : UInt32)
    (h : bank ≠ c.msg.svid) : c.checkUser L bank user = c.checkUser L' bank user := by
  rw [Ctx.checkUser, Ctx.checkUser, if_neg h, if_neg h]

theorem senderTx_spec (huok : t.ttype ≠ .uok) (h : senderTx c L t = .ok L') :
    ∃ L₂, EffectSpec c L t (L.user t.auser.toNat) L₂ ∧ L'.tmpos = L.tmpos ∧ L'.port = L.port ∧
      L'.ipv4 = L.ipv4 ∧ L'.txsDeposit = L₂.txsDeposit ∧ L'.txs = L₂.txs ∧
      L'.txsBky = L₂.txsBky ∧ L'.office = L₂.office := by
  obtain ⟨L₂, cost, -, -, heffect, -, -, -, hL'⟩ := senderTx_ok h
  have hspec := lockedEffect_spec huok heffect
  have hframe := lockedEffect_frame heffect
  have heq := L.sender_eq c t
  refine ⟨L₂, ⟨?_, ?_, ?_, ?_, ?_, hspec.opkey, hspec.get⟩, ?_, ?_, ?_, ?_, ?_, ?_, ?_⟩
  · rw [hspec.txsDeposit, heq]
  · rw [hspec.txs, heq]
  · rw [hspec.txsBky, heq]
  · rw [hspec.office, heq]
  · intro a ha hne
    have htarget := hspec.target a ha hne
    rw [heq] at htarget
    exact htarget
  · rw [hL']
    exact hframe.tmpos.trans (by rw [heq])
  · rw [hL']
    exact hframe.port.trans (by rw [heq])
  · rw [hL']
    exact hframe.ipv4.trans (by rw [heq])
  all_goals rw [hL']

theorem createAccount_spec {nuser : UInt32} {mass : Int64} {pkey : Hash} {time : UInt32}
    (h : createAccount c L nuser mass pkey time = .ok L') :
    L'.tmpos = L.tmpos ∧ L'.port = L.port ∧ L'.ipv4 = L.ipv4 ∧ L'.txsDeposit = L.txsDeposit ∧
      L'.txs = L.txs ∧ L'.txsBky = L.txsBky ∧ L'.office = L.office := by
  rcases createAccount_cases h with ⟨-, -, hL'⟩ | ⟨-, hL'⟩
  · rw [hL', L.fetch_eq nuser]
    exact ⟨rfl, rfl, rfl, rfl, rfl, rfl, rfl⟩
  · rw [hL']
    exact ⟨rfl, rfl, rfl, rfl, rfl, rfl, rfl⟩

/-- A transaction with a sender; `L₁` is the loop state in which it acts. -/
theorem TxSpec.of_sender {L₁ : Loop} (htimely : timely c t) (huok : t.ttype ≠ .uok)
    (hcon : t.ttype ≠ .con) (hinf : t.ttype ≠ .inf) (htmpos : L₁.tmpos = L.tmpos + 1)
    (hport : L₁.port = L.port) (hipv4 : L₁.ipv4 = L.ipv4) (hdep : L₁.txsDeposit = L.txsDeposit)
    (htxs : L₁.txs = L.txs) (hbky : L₁.txsBky = L.txsBky) (hoffice : L₁.office = L.office)
    (hpkey : t.ttype = .get → (L₁.user t.auser.toNat).pkey = (L.user t.auser.toNat).pkey)
    (h : senderTx c L₁ t = .ok L') : TxSpec c L t L' := by
  obtain ⟨L₂, hspec, h₁, h₂, h₃, h₄, h₅, h₆, h₇⟩ := senderTx_spec huok h
  refine ⟨h₁.trans htmpos, ?_, ?_, ?_, ?_, ?_, ?_, fun _ _ => htimely.2, ?_, hspec.opkey,
    hspec.get, hinf⟩
  · rw [h₂, hport, if_neg hcon]
  · rw [h₃, hipv4, if_neg hcon]
  · rw [h₄, hspec.txsDeposit, hdep]
  · rw [h₅, hspec.txs, htmpos, htxs]
    by_cases hget : t.ttype = .get
    · rw [hpkey hget]
    · cases hty : t.ttype <;> simp only [UserTxs.request, hty]
      exact absurd hty hget
  · rw [h₆, hspec.txsBky, htmpos, hbky]
  · rw [h₇, hspec.office, hoffice]
  · intro a ha hne
    rw [← hspec.target a ha hne]
    rw [htimely.2] at hne
    exact c.checkUser_ne L L₁ a.tuser hne

/-- What an iteration of the loop does besides the accounts. -/
theorem processTx_spec (h : processTx c L t = .ok L') : TxSpec c L t L' := by
  have hquiet : t.ttype = .non ∨ t.ttype = .con ∨ t.ttype = .uok →
      t.credits = [] ∧ t.rekeyed c = 0 ∧ ∀ o, t.notify c o = o := by
    intro hty
    refine ⟨?_, if_neg ?_, fun o => t.notify_eq c o ?_ ?_⟩
    all_goals rcases hty with hty | hty | hty <;> simp [UserTxs.credits, hty]
  rcases processTx_cases h with ⟨hty, rfl⟩ | ⟨hty, rfl⟩ | ⟨hty, htimely, L₁, hcreate, rfl⟩ |
    ⟨hty, hlocal, htimely, L₁, hcreate, hs⟩ | ⟨⟨hnon, hcon, huok, hinf, -⟩, htimely, hs⟩
  · obtain ⟨hcredits, hrekeyed, hnotify⟩ := hquiet (Or.inl hty)
    refine ⟨rfl, by simp [hty], by simp [hty], by rw [hcredits]; rfl, ?_, ?_, (hnotify _).symm,
      fun hne _ => absurd hty hne, by simp [hcredits], fun hne => absurd hrekeyed hne,
      by simp [hty], by simp [hty]⟩
    · simp [UserTxs.request, hty]
    · rw [UserTxs.rekey, if_pos hrekeyed]
  · obtain ⟨hcredits, hrekeyed, hnotify⟩ := hquiet (Or.inr (Or.inl hty))
    refine ⟨rfl, by simp [hty], by simp [hty], by rw [hcredits]; rfl, ?_, ?_, (hnotify _).symm,
      fun _ hne => absurd hty hne, by simp [hcredits], fun hne => absurd hrekeyed hne,
      by simp [hty], by simp [hty]⟩
    · simp [UserTxs.request, hty]
    · rw [UserTxs.rekey, if_pos hrekeyed]
  · obtain ⟨hcredits, hrekeyed, hnotify⟩ := hquiet (Or.inr (Or.inr hty))
    obtain ⟨h₁, h₂, h₃, h₄, h₅, h₆, h₇⟩ := createAccount_spec hcreate
    refine ⟨h₁, ?_, ?_, ?_, ?_, ?_, ?_, fun _ _ => htimely.2, by simp [hcredits],
      fun hne => absurd hrekeyed hne, by simp [hty], by simp [hty]⟩
    · rw [if_neg (by simp [hty])]
      exact h₂
    · rw [if_neg (by simp [hty])]
      exact h₃
    · rw [hcredits]
      exact h₄
    · simp only [UserTxs.request, hty, h₅, c.ppb_eq, h₁]
    · rw [UserTxs.rekey, if_pos hrekeyed]
      exact h₆
    · rw [hnotify]
      exact h₇
  · obtain ⟨h₁, h₂, h₃, h₄, h₅, h₆, h₇⟩ := createAccount_spec hcreate
    exact .of_sender htimely (by simp [hty]) (by simp [hty]) (by simp [hty]) h₁ h₂ h₃ h₄ h₅ h₆ h₇
      (by simp [hty]) hs
  · refine .of_sender htimely huok hcon hinf ?_ ?_ ?_ ?_ ?_ ?_ ?_ ?_ hs
    case refine_8 => exact fun _ => rfl
    all_goals rfl

end Esc
