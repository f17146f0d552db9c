import Esc.Server.EffectSpec
import Esc.Server.Funds

/-!
# The books of a message

`Loop.books` balances the money of the bank against everything that enters or leaves it
in a message: dividends, remote deposits, requested accounts and banks, fees and the
leftovers of overwritten accounts. The source adds amounts in 64 bits, and the block maps
keep one request for a key. A transaction therefore keeps the books but for its gain: what
its sums wrap by, less what it pays for a request whose key is taken.
-/

namespace Esc

open Lib

variable {c : Ctx} {L L' L₂ : Loop} {t : UserTxs} {u : User} {cost : Cost}

/-- Sum of a quantity over the accounts of the bank. -/
def Loop.sum {M : Type*} [AddCommMonoid M] (q : User → M) (L : Loop) : M :=
  ∑ i ∈ Finset.range L.users.toNat, q (L.user i)

/-- Replacing one record changes a sum by the difference. -/
theorem Loop.sum_replace {M : Type*} [AddCommGroup M] {q : User → M} {uid : UInt32}
    (husers : L'.users = L.users) (hlt : uid < L.users)
    (huser : ∀ i, i < 2 ^ 32 → L'.user i = if i = uid.toNat then u else L.user i) :
    L'.sum q = L.sum q - q (L.user uid.toNat) + q u := by
  have hbound := L.users.toNat_lt
  have hpoint : L'.sum q =
      ∑ i ∈ Finset.range L.users.toNat, q (if i = uid.toNat then u else L.user i) := by
    rw [Loop.sum, husers]
    refine Finset.sum_congr rfl fun i hi => ?_
    rw [huser i (lt_trans (Finset.mem_range.mp hi) hbound)]
  rw [hpoint, sum_range_point (g := fun i => q (L.user i)) (UInt32.lt_iff_toNat_lt.mp hlt)]
  · simp [Loop.sum]
  · intro i _ hi
    simp [hi]

/-- A new record at the end of the table adds its share. -/
theorem Loop.sum_append {M : Type*} [AddCommMonoid M] {q : User → M}
    (husers : L'.users = L.users + 1) (hroom : L.users.toNat + 1 < 2 ^ 32)
    (huser : ∀ i, i < 2 ^ 32 → L'.user i = if i = L.users.toNat then u else L.user i) :
    L'.sum q = L.sum q + q u := by
  have hnat : L'.users.toNat = L.users.toNat + 1 := by
    rw [husers, UInt32.toNat_add]
    exact Nat.mod_eq_of_lt hroom
  rw [Loop.sum, hnat, Finset.sum_range_succ, huser _ (by omega), if_pos rfl]
  congr 1
  refine Finset.sum_congr rfl fun i hi => ?_
  have hlt := Finset.mem_range.mp hi
  rw [huser i (by omega), if_neg (by omega)]

/-- Sum of the balances of the bank. -/
def Loop.weights (L : Loop) : Int := L.sum fun u => u.weight.toInt

/-- Sum of the pending local deposits. -/
def Loop.dsuTotal (L : Loop) : Int := Map.total (fun _ d => d.deposit.toInt) L.localDsu

/-- Sum of the remote deposits of the message. -/
def Loop.depTotal (L : Loop) : Int := Map.total (fun _ w => w.toInt) L.txsDeposit

/-- What the accounts and banks cost that the block and the message ask for. -/
def Loop.requested (c : Ctx) (L : Loop) : Int :=
  userMinMass.toInt * (c.s.blk.insert L.txs).usr.size +
    (bankMinUmass + bankMinTmass).toInt * (c.s.blk.insert L.txs).bnk.size

def divsOf (rs : List Receipt) : Int := (rs.map fun r => r.div.toInt).sum

def feesOf (rs : List Receipt) : Int := (rs.map fun r => r.fee.toInt).sum

def leftoversOf (rs : List Receipt) : Int := (rs.map fun r => r.leftover.toInt).sum

/-- Money in the bank and on its way, with what has left it, less the dividends. -/
def Loop.books (c : Ctx) (L : Loop) : Int :=
  L.weights + L.dsuTotal + L.depTotal + L.requested c + feesOf L.receipts +
    leftoversOf L.receipts - divsOf L.receipts

/-- What a 64-bit sum gains over the exact one: 0 unless it wraps. -/
def wrap (a b : Int64) : Int := (a + b).toInt - (a.toInt + b.toInt)

theorem toInt_add_wrap (a b : Int64) : (a + b).toInt = a.toInt + b.toInt + wrap a b := by
  rw [wrap]
  ring

/-- What a dividend adds to a balance beyond the amount that is booked: the sum wraps, or
the dividend has the value that is reserved for none. -/
def dividendGain (v : Servers) (u : User) : Int :=
  if dividendDue v u then
    (u.weight + dividendValue v u).toInt - (u.weight.toInt + (paid (dividendValue v u)).toInt)
  else 0

theorem toInt_dividend_weight (v : Servers) (u : User) (fee : Int64) :
    (dividend v u fee).2.1.weight.toInt =
      u.weight.toInt + (paid (dividend v u fee).1).toInt + dividendGain v u := by
  by_cases h : dividendDue v u
  · rw [dividend_of_due fee h, dividendGain, if_pos h]
    ring
  · rw [dividend_of_not_due fee h, dividendGain, if_neg h, paid_noDividend, Int64.toInt_zero]
    ring

/-- The exact amount of a list of transfers. -/
def exactMass (cs : List ToAddress) : Int := (cs.map fun a => a.tmass.toInt).sum

/-- What the amount of a transfer gains over the sum that is deducted for it. -/
def UserTxs.massGain (t : UserTxs) : Int := exactMass t.credits - (mptMass t.credits).toInt

/-- What a pending deposit gains when an amount is added to it. -/
def Loop.creditGain (abank : UInt16) (L : Loop) (a : ToAddress) : Int :=
  if a.tbank = abank then wrap (L.localDsu.val a.tuser).deposit a.tmass
  else wrap (L.txsDeposit.val (depositKey a.tbank a.tuser)) a.tmass

def Loop.creditsGain (abank : UInt16) : Loop → List ToAddress → Int
  | _, [] => 0
  | L, a :: cs =>
      L.creditGain abank a + Loop.creditsGain abank (L.credit abank a.tbank a.tuser a.tmass) cs

/-- What the balance of a sender gains when it pays. -/
def settleGain (cost : Cost) (u : User) (d : Dsu) : Int :=
  (u.weight + (d.deposit - cost.deduct - cost.fee)).toInt -
    (u.weight.toInt + d.deposit.toInt - cost.deduct.toInt - cost.fee.toInt)

/-- A request for an account of another bank. -/
def UserTxs.remoteUsr (t : UserTxs) : Bool := t.ttype = .usr && t.abank != t.bbank

/-- What a transaction takes for an account or a bank that it asks for. -/
def UserTxs.requested (t : UserTxs) : Int :=
  match t.ttype with
  | .usr => userMinMass.toInt
  | .bnk => (bankMinUmass + bankMinTmass).toInt
  | _ => 0

/-- The mass that a local account request takes from its sender. -/
def UserTxs.localMass (t : UserTxs) : Int :=
  if t.ttype = .usr ∧ t.abank = t.bbank then userMinMass.toInt else 0

/-- The price of a request whose key the message or the block has already. -/
def Loop.requestLoss (c : Ctx) (L : Loop) (t : UserTxs) : Int :=
  (if t.remoteUsr ∧ c.ppb L c.msg.svid ∈ (c.s.blk.insert L.txs).usr then
      userMinMass.toInt else 0) +
    if t.ttype = .bnk ∧ c.ppb L c.msg.svid ∈ (c.s.blk.insert L.txs).bnk then
      (bankMinUmass + bankMinTmass).toInt else 0

/-- The gain of a transaction with the given effect. -/
def Loop.effectGain (c : Ctx) (L : Loop) (t : UserTxs) : Except Loop (Loop × Cost) → Int
  | .error _ => 0
  | .ok (L₂, cost) =>
      L.creditsGain t.abank t.credits + t.massGain +
        dividendGain c.s.srvs (L.user t.auser.toNat) +
        settleGain cost (c.paidUser L t) (L₂.localDsu.val t.auser) - L.requestLoss c t

/-- The gain of a transaction whose sender acts in the loop state `L`. -/
def Loop.senderGain (c : Ctx) (L : Loop) (t : UserTxs) : Int :=
  L.effectGain c t (lockedEffect c (L.sender c t) t (L.user t.auser.toNat))

/-- The gain of one iteration of the transaction loop. -/
def Loop.gain (c : Ctx) (L : Loop) (t : UserTxs) : Int :=
  let L := { L with tmpos := L.tmpos + 1 }
  if t.ttype = .non ∨ t.ttype = .con ∨ t.ttype = .uok ∨ t.ttype = .inf then 0
  else if t.ttype = .usr ∧ t.abank = t.bbank then
    match createAccount c L t.nuser userMinMass t.npkey t.ttime with
    | .error _ => 0
    | .ok L => L.senderGain c t
  else L.senderGain c t

/-- A credit adds its amount and its gain to the pending deposits. -/
theorem Loop.credit_total (L : Loop) (abank : UInt16) (a : ToAddress) :
    (L.credit abank a.tbank a.tuser a.tmass).dsuTotal +
        (L.credit abank a.tbank a.tuser a.tmass).depTotal =
      L.dsuTotal + L.depTotal + a.tmass.toInt + L.creditGain abank a := by
  rw [Loop.credit, Loop.creditGain]
  split
  · simp only [Loop.dsuTotal, Loop.depTotal]
    rw [Map.total_adjust _ _ _ (by rfl), toInt_add_wrap]
    ring
  · simp only [Loop.dsuTotal, Loop.depTotal]
    rw [Map.total_adjust _ _ _ (by rfl), toInt_add_wrap]
    ring

theorem Loop.creditAll_total (L : Loop) (abank : UInt16) (cs : List ToAddress) :
    (L.creditAll abank cs).dsuTotal + (L.creditAll abank cs).depTotal =
      L.dsuTotal + L.depTotal + exactMass cs + L.creditsGain abank cs := by
  induction cs generalizing L with
  | nil => simp [Loop.creditAll, exactMass, Loop.creditsGain]
  | cons a cs ih =>
      have hone := L.credit_total abank a
      have hrest := ih (L.credit abank a.tbank a.tuser a.tmass)
      rw [Loop.creditsGain, exactMass, List.map_cons, List.sum_cons]
      rw [exactMass] at hrest
      change (L.creditAll abank (a :: cs)).dsuTotal +
        (L.creditAll abank (a :: cs)).depTotal = _ at hrest
      omega

/-- What the effect of a transaction does with money besides crediting remote deposits: it
credits the local part of its transfers and takes their amount, and what it asks for, from
the sender. -/
structure MoneyEffect (c : Ctx) (L : Loop) (t : UserTxs) (L₂ : Loop) (cost : Cost) : Prop where
  dsuTotal : L₂.dsuTotal = (L.creditAll t.abank t.credits).dsuTotal
  keys : ∀ uid, uid ∈ L₂.localDsu → uid ∈ L.localDsu ∨ c.checkUser L t.abank uid = true
  deduct : cost.deduct.toInt = (mptMass t.credits).toInt + t.requested

namespace MoneyEffect

theorem of_transfer (htype : t.ttype = .put ∨ t.ttype = .mpt)
    (htarget : ∀ a ∈ t.credits, c.checkUser L a.tbank a.tuser = true)
    (hdeduct : cost.deduct = mptMass t.credits) :
    MoneyEffect c L t (L.creditAll t.abank t.credits) cost where
  dsuTotal := rfl
  keys uid h := by
    rcases Loop.mem_localDsu_creditAll h with hmem | ⟨a, ha, hbank, huser⟩
    · exact Or.inl hmem
    · have hcheck := htarget a ha
      rw [hbank, huser] at hcheck
      exact Or.inr hcheck
  deduct := by
    have hrequested : t.requested = 0 := by
      rcases htype with h | h <;> simp [UserTxs.requested, h]
    rw [hdeduct, hrequested, add_zero]

/-- A transaction that moves no money. -/
theorem of_same (hcredits : t.credits = []) (hdsu : L₂.localDsu = L.localDsu)
    (hdeduct : cost.deduct.toInt = t.requested) : MoneyEffect c L t L₂ cost where
  dsuTotal := by rw [hcredits, Loop.dsuTotal, hdsu]; rfl
  keys uid h := Or.inl (hdsu ▸ h)
  deduct := by rw [hdeduct, hcredits]; exact (zero_add _).symm

end MoneyEffect

theorem putTx_money (ht : t.ttype = .put) (h : putTx c L t = .ok (L₂, cost)) :
    MoneyEffect c L t L₂ cost := by
  obtain ⟨huser, rfl, rfl⟩ := putTx_ok h
  have hcredits : t.credits = [⟨t.bbank, t.buser, t.putMass⟩] := by simp [UserTxs.credits, ht]
  have hall : L.credit t.abank t.bbank t.buser t.putMass = L.creditAll t.abank t.credits := by
    rw [hcredits]
    rfl
  rw [hall]
  refine .of_transfer (Or.inl ht) ?_ ?_
  · intro a ha
    rw [hcredits, List.mem_singleton] at ha
    rw [ha]
    exact huser
  · rw [hcredits]
    exact (Int64.zero_add _).symm

theorem mptTx_money (ht : t.ttype = .mpt) (h : mptTx c L t = .ok (L₂, cost)) :
    MoneyEffect c L t L₂ cost := by
  obtain ⟨htargets, -, rfl, rfl⟩ := mptTx_ok h
  have hcredits : t.credits = t.toaddresses := by simp [UserTxs.credits, ht]
  rw [← hcredits] at htargets ⊢
  exact .of_transfer (Or.inr ht) (fun a ha => (htargets a ha).2) rfl

theorem bitsTx_money {f : Dsu → UInt16 → Dsu} {fee : Int64}
    (h : bitsTx c L t f fee = .ok (L₂, cost)) (hcredits : t.credits = [])
    (hrequested : t.requested = 0) (hf : ∀ d bits, (f d bits).deposit = d.deposit) :
    MoneyEffect c L t L₂ cost := by
  rw [bitsTx] at h
  split at h
  · cases h
  rename_i huser
  split at h
  · rename_i hbank
    cases h
    refine ⟨?_, ?_, ?_⟩
    · rw [hcredits, Loop.dsuTotal, Map.total_adjust _ _ _ (by rfl), hf, sub_add_cancel]
      rfl
    · intro uid hmem
      rcases Std.ExtTreeMap.mem_insert.mp hmem with heq | hmem
      · rw [← Std.compare_eq_iff_eq.mp heq, ← hbank]
        exact Or.inr (by simpa using huser)
      · exact Or.inl hmem
    · rw [hcredits, hrequested]
      rfl
  · cases h
    exact .of_same hcredits rfl hrequested.symm

theorem bkyTx_money (h : bkyTx c L t = .ok (L₂, cost)) :
    L₂.localDsu = L.localDsu ∧ cost.deduct = 0 := by
  simp only [bkyTx] at h
  split at h
  · cases h
  split at h
  · cases h
  split at h
  · cases h
    exact ⟨rfl, rfl⟩
  split at h
  · cases h
  · cases h
    exact ⟨rfl, rfl⟩

theorem statusTx_money {vote : Requests → UInt64 → UInt32 → Requests} {fee : Int64}
    (h : statusTx c L t vote fee = .ok (L₂, cost)) :
    L₂.localDsu = L.localDsu ∧ cost.deduct = 0 := by
  rw [statusTx] at h
  split at h
  · cases h
  split at h
  · cases h
  split at h <;> cases h <;> exact ⟨rfl, rfl⟩

/-- The money effect of every transaction that takes effect. -/
theorem effect_money (h : effect c L t u = .ok (L₂, cost)) : MoneyEffect c L t L₂ cost := by
  cases ht : t.ttype <;> simp only [effect, ht] at h
  case put => exact putTx_money ht h
  case mpt => exact mptTx_money ht h
  case usr =>
    have hrequested : userMinMass.toInt = t.requested := by simp [UserTxs.requested, ht]
    rw [usrTx] at h
    split at h <;> cases h
    all_goals exact .of_same (by simp [UserTxs.credits, ht]) rfl hrequested
  case bnk =>
    cases h
    exact .of_same (by simp [UserTxs.credits, ht]) rfl (by simp [UserTxs.requested, ht])
  case sus =>
    rw [susTx] at h
    exact bitsTx_money h (by simp [UserTxs.credits, ht]) (by simp [UserTxs.requested, ht])
      fun _ _ => rfl
  case uus =>
    rw [uusTx] at h
    exact bitsTx_money h (by simp [UserTxs.credits, ht]) (by simp [UserTxs.requested, ht])
      fun _ _ => rfl
  case non | con | uok | key | inf =>
    cases h
    exact .of_same (by simp [UserTxs.credits, ht]) rfl (by simp [UserTxs.requested, ht])
  case bro | get | sav =>
    split at h
    · cases h
    · cases h
      exact .of_same (by simp [UserTxs.credits, ht]) rfl (by simp [UserTxs.requested, ht])
  case bky =>
    obtain ⟨hdsu, hdeduct⟩ := bkyTx_money h
    exact .of_same (by simp [UserTxs.credits, ht]) hdsu
      (by simp [UserTxs.requested, ht, hdeduct])
  case sbs =>
    obtain ⟨hdsu, hdeduct⟩ := statusTx_money (by rwa [sbsTx] at h)
    exact .of_same (by simp [UserTxs.credits, ht]) hdsu
      (by simp [UserTxs.requested, ht, hdeduct])
  case ubs =>
    obtain ⟨hdsu, hdeduct⟩ := statusTx_money (by rwa [ubsTx] at h)
    exact .of_same (by simp [UserTxs.credits, ht]) hdsu
      (by simp [UserTxs.requested, ht, hdeduct])

/-- The money effect behind the account lock. -/
theorem lockedEffect_money (h : lockedEffect c L t u = .ok (L₂, cost)) :
    MoneyEffect c L t L₂ cost := by
  rcases lockedEffect_cases h with ⟨hunlocks, rfl, rfl⟩ | h
  · simp only [unlocks, Bool.and_eq_true, decide_eq_true_eq] at hunlocks
    obtain ⟨⟨⟨hty, hbank⟩, -⟩, hmass⟩ := hunlocks
    have hput : t.putMass = 0 := by
      rw [UserTxs.putMass, hmass]
      rfl
    have hcredits : t.credits = [⟨t.bbank, t.buser, 0⟩] := by simp [UserTxs.credits, hty, hput]
    refine ⟨?_, fun uid h => Or.inl h, ?_⟩
    · -- The transfer to itself that unlocks an account is not booked; it would add nothing.
      have hcredit : L₂.creditAll t.abank [⟨t.bbank, t.buser, 0⟩] =
          L₂.credit t.abank t.bbank t.buser 0 := rfl
      rw [hcredits, hcredit, Loop.credit, if_pos hbank.symm, Loop.dsuTotal, Loop.dsuTotal,
        Map.total_adjust _ _ _ (by rfl), Int64.add_zero, sub_add_cancel]
    · rw [hcredits]
      simp [mptMass, UserTxs.requested, hty]
  · exact effect_money h

theorem UserTxs.request_usr (t : UserTxs) (c : Ctx) (pos : UInt32) (pkey : Hash) (r : Requests) :
    (t.request c pos pkey r).usr = if t.remoteUsr then
      r.usr.insert (c.keyAt pos c.msg.svid) ⟨t.auser, t.bbank, t.npkey⟩ else r.usr := by
  rw [UserTxs.request, UserTxs.remoteUsr]
  cases hty : t.ttype <;> simp only <;> split <;> simp_all

theorem UserTxs.request_bnk (t : UserTxs) (c : Ctx) (pos : UInt32) (pkey : Hash) (r : Requests) :
    (t.request c pos pkey r).bnk = if t.ttype = .bnk then
      r.bnk.insert (c.keyAt pos c.msg.svid) t.auser else r.bnk := by
  rw [UserTxs.request]
  cases hty : t.ttype <;> simp only <;> split <;> simp_all

/-- A map of requests grows by the price of one more, unless its key is taken. -/
theorem price_insert {α : Type} (price : Int) (p : Prop) [Decidable p] (m blk : Map UInt64 α)
    (k : UInt64) (v : α) :
    price * ((if p then m.insert k v else m) ∪ blk).size =
      price * (m ∪ blk).size + (if p then price else 0) -
        if p ∧ k ∈ m ∪ blk then price else 0 := by
  by_cases hp : p
  · rw [if_pos hp, if_pos hp, Map.size_insert_union]
    by_cases hk : k ∈ m ∪ blk
    · rw [if_pos hk, if_pos ⟨hp, hk⟩]
      push_cast
      ring
    · rw [if_neg hk, if_neg fun h => hk h.2]
      push_cast
      ring
  · rw [if_neg hp, if_neg hp, if_neg fun h => hp h.1]
    ring

theorem UserTxs.requested_eq (t : UserTxs) :
    t.requested = t.localMass + (if t.remoteUsr then userMinMass.toInt else 0) +
      if t.ttype = .bnk then (bankMinUmass + bankMinTmass).toInt else 0 := by
  rw [UserTxs.requested, UserTxs.localMass, UserTxs.remoteUsr]
  cases hty : t.ttype <;> by_cases hbank : t.abank = t.bbank <;> simp [hbank]

/-- The requests of the block grow by those of a transaction, unless their keys are taken. -/
theorem Loop.requested_request (c : Ctx) {pkey : Hash}
    (htxs : L'.txs = t.request c L.tmpos pkey L.txs) :
    L'.requested c = L.requested c + t.requested - t.localMass - L.requestLoss c t := by
  have hbefore : L.requested c = userMinMass.toInt * (L.txs.usr ∪ c.s.blk.usr).size +
      (bankMinUmass + bankMinTmass).toInt * (L.txs.bnk ∪ c.s.blk.bnk).size := rfl
  have hloss : L.requestLoss c t =
      (if t.remoteUsr ∧ c.keyAt L.tmpos c.msg.svid ∈ L.txs.usr ∪ c.s.blk.usr then
        userMinMass.toInt else 0) +
      if t.ttype = .bnk ∧ c.keyAt L.tmpos c.msg.svid ∈ L.txs.bnk ∪ c.s.blk.bnk then
        (bankMinUmass + bankMinTmass).toInt else 0 := rfl
  rw [Loop.requested, htxs, Requests.insert, t.request_usr, t.request_bnk, price_insert,
    price_insert, hbefore, hloss, t.requested_eq]
  ring

/-- The accounts of the bank are on file and numbered without gap, and pending deposits are
for accounts of the bank. -/
structure Loop.Filed (c : Ctx) (L : Loop) : Prop where
  users_eq : L.acc.users = L.users
  filled : L.users.toNat ≤ L.acc.file.size
  dsu_lt : ∀ uid, uid ∈ L.localDsu → uid < L.users
  grown : (c.s.srvs.node c.msg.svid).users.toNat ≤ L.users.toNat

theorem Loop.Filed.congr (h : L.Filed c) (hacc : L'.acc = L.acc) (husers : L'.users = L.users)
    (hdsu : L'.localDsu = L.localDsu) : L'.Filed c where
  users_eq := by rw [hacc, husers, h.users_eq]
  filled := by rw [hacc, husers]; exact h.filled
  dsu_lt := by rw [hdsu, husers]; exact h.dsu_lt
  grown := by rw [husers]; exact h.grown

section Create

variable {nuser : UInt32} {mass : Int64} {pkey : Hash} {time : UInt32}

/-- Below the last account number there is room for one more. -/
theorem toNat_succ_lt (hlast : nuser ≠ 0xFFFFFFFF) : nuser.toNat + 1 < 2 ^ 32 := by
  have hlt := nuser.toNat_lt
  have hne : nuser.toNat ≠ 4294967295 := fun h => hlast (UInt32.toNat_inj.mp h)
  omega

theorem createAccount_filed (hf : L.Filed c) (hlast : nuser ≠ 0xFFFFFFFF)
    (h : createAccount c L nuser mass pkey time = .ok L') : L'.Filed c := by
  have hacc := createAccount_acc h
  rcases createAccount_cases h with ⟨hlt, -, hL'⟩ | ⟨rfl, hL'⟩
  · have husers : L'.users = L.users := by rw [hL', L.fetch_eq nuser]
    have hdsu : L'.localDsu = L.localDsu := by rw [hL', L.fetch_eq nuser]
    refine ⟨?_, ?_, ?_, ?_⟩
    · rw [hacc, husers, Accounts.putUser, hf.users_eq, if_neg (UInt32.not_le.mpr hlt)]
    · rw [hacc, husers]
      exact le_trans hf.filled (le_max_left _ _)
    · rw [hdsu, husers]
      exact hf.dsu_lt
    · rw [husers]
      exact hf.grown
  · have husers : L'.users = L.users + 1 := by rw [hL']
    have hdsu : L'.localDsu = L.localDsu := by rw [hL']
    have hnat : L'.users.toNat = L.users.toNat + 1 := by
      rw [husers, UInt32.toNat_add, UInt32.toNat_one, Nat.mod_eq_of_lt (toNat_succ_lt hlast)]
    refine ⟨?_, ?_, ?_, ?_⟩
    · rw [hacc, husers, Accounts.putUser, hf.users_eq, if_pos (UInt32.le_refl _)]
    · rw [hacc, hnat]
      exact le_max_right _ _
    · intro uid huid
      rw [hdsu] at huid
      rw [UInt32.lt_iff_toNat_lt, hnat]
      exact Nat.lt_succ_of_lt (UInt32.lt_iff_toNat_lt.mp (hf.dsu_lt uid huid))
    · rw [hnat]
      exact Nat.le_succ_of_le hf.grown

/-- A new account brings its mass; what was left in an overwritten one is a leftover. -/
theorem createAccount_books (hlast : nuser ≠ 0xFFFFFFFF)
    (h : createAccount c L nuser mass pkey time = .ok L') :
    L'.books c = L.books c + mass.toInt := by
  have huser := fun i hi => createAccount_user h (i := i) hi
  rcases createAccount_cases h with ⟨hlt, -, hL'⟩ | ⟨rfl, hL'⟩
  · have hweights : L'.weights = L.weights - (L.user nuser.toNat).weight.toInt + mass.toInt :=
      Loop.sum_replace (by rw [hL', L.fetch_eq nuser]) hlt huser
    have hdsu : L'.localDsu = L.localDsu := by rw [hL', L.fetch_eq nuser]
    have hdep : L'.txsDeposit = L.txsDeposit := by rw [hL', L.fetch_eq nuser]
    have htxs : L'.txs = L.txs := by rw [hL', L.fetch_eq nuser]
    have hreceipts : L'.receipts = { leftover := (L.user nuser.toNat).weight } :: L.receipts := by
      rw [hL']
    have hzero : (0 : Int64).toInt = 0 := rfl
    simp only [Loop.books, hweights, Loop.dsuTotal, Loop.depTotal, Loop.requested, hdsu, hdep,
      htxs, hreceipts, feesOf, leftoversOf, divsOf, List.map_cons, List.sum_cons, hzero]
    ring
  · have hweights : L'.weights = L.weights + mass.toInt :=
      Loop.sum_append (by rw [hL']) (toNat_succ_lt hlast) huser
    simp only [Loop.books, hweights]
    simp only [hL', Loop.dsuTotal, Loop.depTotal, Loop.requested]
    ring

end Create

/-- A target in the bank of the message is one of its accounts. -/
theorem Ctx.lt_users_of_checkUser (c : Ctx) {bank : UInt16} {user : UInt32}
    (hbank : bank = c.msg.svid) (h : c.checkUser L bank user = true) : user < L.acc.users := by
  rw [Ctx.checkUser, if_pos hbank, Bool.and_eq_true, decide_eq_true_eq, decide_eq_true_eq] at h
  exact h.2

theorem senderTx_filed (hf : L.Filed c) (hbank : t.abank = c.msg.svid)
    (h : senderTx c L t = .ok L') : L'.Filed c := by
  obtain ⟨L₂, cost, hlt, -, heffect, -, -, -, hL'⟩ := senderTx_ok h
  have hframe := lockedEffect_frame heffect
  have hmoney := lockedEffect_money heffect
  have heq := L.sender_eq c t
  have husers : L'.users = L.users := by
    rw [hL']
    exact hframe.users.trans (by rw [heq])
  have hacc : L'.acc = L.acc := by
    rw [hL']
    exact hframe.acc.trans (by rw [heq])
  refine ⟨by rw [hacc, husers, hf.users_eq], by rw [hacc, husers]; exact hf.filled, ?_,
    by rw [husers]; exact hf.grown⟩
  intro uid huid
  rw [hL'] at huid
  rw [husers]
  rcases Std.ExtTreeMap.mem_insert.mp huid with heq' | huid
  · rw [← Std.compare_eq_iff_eq.mp heq']
    exact hlt
  · rcases hmoney.keys uid huid with hmem | hcheck
    · rw [heq] at hmem
      exact hf.dsu_lt uid hmem
    · have hlt' := c.lt_users_of_checkUser hbank hcheck
      rwa [heq, hf.users_eq] at hlt'

/-- Gains of credits depend on the pending deposits alone. -/
theorem Loop.creditsGain_congr {abank : UInt16} {cs : List ToAddress}
    (hdsu : L'.localDsu = L.localDsu) (hdep : L'.txsDeposit = L.txsDeposit) :
    L'.creditsGain abank cs = L.creditsGain abank cs := by
  induction cs generalizing L L' with
  | nil => rfl
  | cons a cs ih =>
      rw [Loop.creditsGain, Loop.creditsGain, Loop.creditGain, Loop.creditGain, hdsu, hdep]
      congr 1
      apply ih <;> rw [Loop.credit, Loop.credit, hdsu, hdep] <;> split <;> rfl

/-- The pending deposits after the effect of a transaction. -/
theorem lockedEffect_total (huok : t.ttype ≠ .uok)
    (h : lockedEffect c (L.sender c t) t (L.user t.auser.toNat) = .ok (L₂, cost)) :
    L₂.dsuTotal + L₂.depTotal =
      L.dsuTotal + L.depTotal + exactMass t.credits + L.creditsGain t.abank t.credits := by
  have htotal := (L.sender c t).creditAll_total t.abank t.credits
  have heq := L.sender_eq c t
  have hdsu : (L.sender c t).dsuTotal = L.dsuTotal := by rw [heq]; rfl
  have hdep : (L.sender c t).depTotal = L.depTotal := by rw [heq]; rfl
  rw [Loop.creditsGain_congr (L := L) (by rw [heq]) (by rw [heq]), hdsu, hdep] at htotal
  rw [← htotal, (lockedEffect_money h).dsuTotal, Loop.depTotal,
    (lockedEffect_spec huok h).txsDeposit, ← Loop.creditAll_txsDeposit]
  rfl

/-- The sum of the balances after the sender has paid. -/
theorem senderTx_weights (hlt : t.auser < L.users)
    (hframe : EffectFrame (L.sender c t) L₂) (husers : L'.users = L₂.users)
    (hacc : L'.acc = L₂.acc) (hchanges : L'.changes = L₂.changes.insert t.auser
      (settleUser c t cost (c.paidUser L t) (L₂.localDsu.val t.auser))) :
    L'.weights = L.weights + (L₂.localDsu.val t.auser).deposit.toInt - cost.deduct.toInt -
      cost.fee.toInt + (c.paidDiv L t).toInt +
      dividendGain c.s.srvs (L.user t.auser.toNat) +
      settleGain cost (c.paidUser L t) (L₂.localDsu.val t.auser) := by
  have huser : ∀ i, i < 2 ^ 32 → L'.user i = if i = t.auser.toNat then
      settleUser c t cost (c.paidUser L t) (L₂.localDsu.val t.auser) else L.user i := by
    intro i hi
    rw [← L.sender_user c t hi, ← hframe.user i]
    exact Loop.user_insert L₂ L' t.auser _ hchanges (fun _ _ => by rw [hacc]) hi
  have hreplace : L'.weights = L.weights - (L.user t.auser.toNat).weight.toInt +
      (settleUser c t cost (c.paidUser L t) (L₂.localDsu.val t.auser)).weight.toInt :=
    Loop.sum_replace (by rw [husers, hframe.users, L.sender_eq c t]) hlt huser
  have hdiv : (c.paidUser L t).weight.toInt = (L.user t.auser.toNat).weight.toInt +
      (c.paidDiv L t).toInt + dividendGain c.s.srvs (L.user t.auser.toNat) :=
    toInt_dividend_weight c.s.srvs (L.user t.auser.toNat) L.lodivFee
  rw [hreplace, settleGain, hdiv, settleUser]
  ring

/-- The sender of a transaction pays what the transaction books elsewhere, but for the
gain and for the account that the transaction created before. -/
theorem senderTx_books (huok : t.ttype ≠ .uok) (h : senderTx c L t = .ok L') :
    L'.books c = L.books c - t.localMass + L.senderGain c t := by
  obtain ⟨L₂, cost, hlt, -, heffect, -, -, -, hL'⟩ := senderTx_ok h
  have hframe := lockedEffect_frame heffect
  have htotal := lockedEffect_total huok heffect
  have hweights : L'.weights = L.weights + (L₂.localDsu.val t.auser).deposit.toInt -
      cost.deduct.toInt - cost.fee.toInt + (c.paidDiv L t).toInt +
      dividendGain c.s.srvs (L.user t.auser.toNat) +
      settleGain cost (c.paidUser L t) (L₂.localDsu.val t.auser) :=
    senderTx_weights hlt hframe (by rw [hL']) (by rw [hL']) (by rw [hL'])
  have hdsuTotal : L'.dsuTotal = L₂.dsuTotal - (L₂.localDsu.val t.auser).deposit.toInt := by
    rw [hL']
    exact (Map.total_adjust L₂.localDsu t.auser (fun _ => {}) (by rfl)).trans (add_zero _)
  have hdepTotal : L'.depTotal = L₂.depTotal := by rw [hL']; rfl
  have htxs : L'.txs = t.request c L.tmpos (L.user t.auser.toNat).pkey L.txs := by
    have hspec := (lockedEffect_spec huok heffect).txs
    rw [L.sender_eq c t] at hspec
    rw [hL']
    exact hspec
  have hrequested := Loop.requested_request c htxs
  have hdeduct := (lockedEffect_money heffect).deduct
  have hgain : L.senderGain c t = L.creditsGain t.abank t.credits + t.massGain +
      dividendGain c.s.srvs (L.user t.auser.toNat) +
      settleGain cost (c.paidUser L t) (L₂.localDsu.val t.auser) - L.requestLoss c t := by
    rw [Loop.senderGain, heffect, Loop.effectGain]
  have hreceipts : L'.receipts =
      { user := t.auser, div := c.paidDiv L t, fee := cost.fee } :: L.receipts := by rw [hL']
  have hzero : (0 : Int64).toInt = 0 := rfl
  rw [UserTxs.massGain] at hgain
  simp only [Loop.books, hreceipts, feesOf, divsOf, leftoversOf, List.map_cons, List.sum_cons,
    hzero]
  linear_combination hweights + hdsuTotal + hdepTotal + htotal + hrequested - hdeduct - hgain

/-- A step of the transaction loop keeps the accounts on file. -/
theorem processTx_filed (hf : L.Filed c) (hlast : t.created ≠ some 0xFFFFFFFF)
    (h : processTx c L t = .ok L') : L'.Filed c := by
  have hf₁ : ({ L with tmpos := L.tmpos + 1 } : Loop).Filed c := hf.congr rfl rfl rfl
  rcases processTx_cases h with ⟨-, rfl⟩ | ⟨-, rfl⟩ | ⟨hty, -, L₁, hcreate, rfl⟩ |
    ⟨hty, hbank, htimely, L₁, hcreate, hsender⟩ | ⟨-, htimely, hsender⟩
  · exact hf₁
  · exact hf.congr rfl rfl rfl
  · rw [UserTxs.created, if_pos hty] at hlast
    exact (createAccount_filed hf₁ (fun h => hlast (congrArg some h)) hcreate).congr rfl rfl rfl
  · rw [UserTxs.created, if_neg (by simp [hty]), if_pos ⟨hty, hbank⟩] at hlast
    exact senderTx_filed (createAccount_filed hf₁ (fun h => hlast (congrArg some h)) hcreate)
      htimely.2 hsender
  · exact senderTx_filed hf₁ htimely.2 hsender

/-- A step of the transaction loop keeps the books but for its gain. -/
theorem processTx_books (hlast : t.created ≠ some 0xFFFFFFFF) (h : processTx c L t = .ok L') :
    L'.books c = L.books c + L.gain c t := by
  have hlocal : ¬ (t.ttype = .usr ∧ t.abank = t.bbank) → t.localMass = 0 := fun h => if_neg h
  have hfree : t.ttype = .non ∨ t.ttype = .con ∨ t.ttype = .uok ∨ t.ttype = .inf →
      L.gain c t = 0 := fun h => if_pos h
  rcases processTx_cases h with ⟨hty, rfl⟩ | ⟨hty, rfl⟩ | ⟨hty, -, L₁, hcreate, rfl⟩ |
    ⟨hty, hbank, -, L₁, hcreate, hsender⟩ | ⟨⟨hnon, hcon, huok, hinf, hother⟩, -, hsender⟩
  · rw [hfree (by simp [hty]), add_zero]
    rfl
  · rw [hfree (by simp [hty]), add_zero]
    rfl
  · rw [hfree (by simp [hty]), add_zero]
    rw [UserTxs.created, if_pos hty] at hlast
    -- A confirmation creates an empty account; its note is not a request for money.
    exact (createAccount_books (fun h => hlast (congrArg some h)) hcreate).trans (add_zero _)
  · rw [UserTxs.created, if_neg (by simp [hty]), if_pos ⟨hty, hbank⟩] at hlast
    have hbooks := createAccount_books (fun h => hlast (congrArg some h)) hcreate
    have hgain : L.gain c t = L₁.senderGain c t := by
      rw [Loop.gain, if_neg (by simp [hty]), if_pos ⟨hty, hbank⟩, hcreate]
    rw [senderTx_books (by simp [hty]) hsender, hbooks, hgain, UserTxs.localMass,
      if_pos ⟨hty, hbank⟩, add_sub_cancel_right]
    rfl
  · have hgain : L.gain c t = ({ L with tmpos := L.tmpos + 1 } : Loop).senderGain c t := by
      rw [Loop.gain, if_neg (by simp [hnon, hcon, huok, hinf]), if_neg hother]
    rw [senderTx_books huok hsender, hgain, hlocal hother, sub_zero]
    rfl

end Esc
