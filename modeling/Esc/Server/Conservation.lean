import Esc.Server.Books

/-!
# Conservation of money in a message

An accepted message changes the total of its bank by the dividends that it pays, less
what leaves the bank: remote deposits, requested accounts and banks, fees and leftovers.
The source adds in 64 bits and checks a balance after it has added amount and fee, so this
holds up to the gain of the message: what its sums wrap by, in the loop over the
transactions and when the pending deposits are committed, less the price of requests whose
key is taken.
-/

namespace Esc

open Lib

/-- The bank loses what it sends to other banks, pays for new accounts and banks, in
fees and as leftovers, and gains the dividends. -/
def Conserved (s : State) (svid : UInt16) (s' : State) (rs : List Receipt) : Prop :=
  s'.bankTotal svid - s.bankTotal svid =
    divsOf rs - (s'.depositTotal - s.depositTotal) -
      userMinMass.toInt * ((s'.blk.usr.size : Int) - s.blk.usr.size) -
      (bankMinUmass + bankMinTmass).toInt * ((s'.blk.bnk.size : Int) - s.blk.bnk.size) -
      feesOf rs - leftoversOf rs

instance (s : State) (svid : UInt16) (s' : State) (rs : List Receipt) :
    Decidable (Conserved s svid s' rs) :=
  inferInstanceAs (Decidable (_ = _))

/-- What the balance of a local account gains when its pending deposit is committed. An
account that the loop has not read is paid its dividend first. -/
def Loop.dsuGain (c : Ctx) (L : Loop) (uid : UInt32) (d : Dsu) : Int :=
  match L.changes[uid]? with
  | some u => wrap u.weight d.deposit
  | none =>
      dividendGain c.s.srvs (L.user uid.toNat) +
        wrap (dividend c.s.srvs (L.user uid.toNat) 0).2.1.weight d.deposit

/-- The gain of the commit: of the local accounts, and of the pending deposits of the block
to which those of the message are added. -/
def Loop.commitGain (c : Ctx) (L : Loop) : Int :=
  Map.total (L.dsuGain c) L.localDsu +
    Map.total (fun key w => wrap (c.s.deposit.val key) w) L.txsDeposit

/-- The gain of the transactions from a loop state on, and of the commit after them. -/
def Ctx.gainFrom (c : Ctx) : List UserTxs → Loop → Int
  | [], L => L.commitGain c
  | t :: txs, L =>
      L.gain c t +
        match processTx c L t with
        | .error _ => 0
        | .ok L => c.gainFrom txs L

/-- The gain of a message. -/
def Ctx.gain (c : Ctx) : Int := c.gainFrom c.msg.txs c.init

theorem Ctx.gainFrom_cons {c : Ctx} {t : UserTxs} {L L' : Loop} (txs : List UserTxs)
    (h : processTx c L t = .ok L') : c.gainFrom (t :: txs) L = L.gain c t + c.gainFrom txs L' := by
  rw [Ctx.gainFrom, h]

/-- The books and the gain still to come add up to a total that the loop does not change. -/
structure Balanced (c : Ctx) (total : Int) (post : List UserTxs) (L : Loop) : Prop
    extends L.Filed c where
  last : ∀ t ∈ post, t.created ≠ some 0xFFFFFFFF
  books : L.books c + c.gainFrom post L = total

/-- One iteration of the transaction loop. -/
theorem Balanced.step {c : Ctx} {total : Int} {t : UserTxs} {post : List UserTxs} {L L' : Loop}
    (h : Balanced c total (t :: post) L) (hstep : processTx c L t = .ok L') :
    Balanced c total post L' := by
  have hlast := h.last t List.mem_cons_self
  have hbooks := processTx_books hlast hstep
  have htotal := h.books
  rw [c.gainFrom_cons post hstep] at htotal
  exact ⟨processTx_filed h.toFiled hlast hstep,
    fun t' ht' => h.last t' (List.mem_cons_of_mem t ht'), by omega⟩

/-- The transaction loop leaves the gain of the commit. -/
theorem processTxs_balanced {c : Ctx} {total : Int} {txs : List UserTxs} {L L' : Loop}
    (h : Balanced c total txs L) (hrun : txs.foldlM (processTx c) L = .ok L') :
    Balanced c total [] L' :=
  foldlM_remaining (Balanced c total) (fun _ _ _ _ hb hstep => hb.step hstep) h hrun

theorem size_empty_union {α : Type} (m : Map UInt64 α) :
    (∅ ∪ m : Map UInt64 α).size = m.size :=
  (Std.ExtTreeMap.size_union_of_not_mem fun _ hk => absurd hk Std.ExtTreeMap.not_mem_empty).trans
    (Nat.zero_add _)

/-- The loop starts with the money of the bank and the requests of the block. -/
theorem Ctx.init_balanced {c : Ctx}
    (hfile : (c.s.srvs.node c.msg.svid).users.toNat ≤ (c.s.usr c.msg.svid).size)
    (hlast : ∀ t ∈ c.msg.txs, t.created ≠ some 0xFFFFFFFF) :
    Balanced c (c.s.bankTotal c.msg.svid + userMinMass.toInt * c.s.blk.usr.size +
      (bankMinUmass + bankMinTmass).toInt * c.s.blk.bnk.size + c.gain) c.msg.txs c.init := by
  have hweights : c.init.weights = c.s.bankTotal c.msg.svid := by
    rw [Loop.weights, Loop.sum, State.bankTotal]
    refine Finset.sum_congr rfl fun i _ => ?_
    simp [Loop.user, Ctx.init, State.accounts]
  have hdsu : c.init.dsuTotal = 0 := Map.total_empty _
  have hdep : c.init.depTotal = 0 := Map.total_empty _
  have hrequested : c.init.requested c = userMinMass.toInt * c.s.blk.usr.size +
      (bankMinUmass + bankMinTmass).toInt * c.s.blk.bnk.size := by
    rw [← size_empty_union c.s.blk.usr, ← size_empty_union c.s.blk.bnk]
    rfl
  have hbooks : c.init.books c =
      c.init.weights + c.init.dsuTotal + c.init.depTotal + c.init.requested c + 0 + 0 - 0 := rfl
  refine ⟨⟨rfl, hfile, fun uid huid => absurd huid Std.ExtTreeMap.not_mem_empty, le_rfl⟩, hlast, ?_⟩
  rw [hbooks, hweights, hdsu, hdep, hrequested, Ctx.gain]
  ring

/-- The loop state `L₁` after the pending deposits `pre` of `L` have been booked. -/
structure Settled (c : Ctx) (L : Loop) (pre : List (UInt32 × Dsu)) (L₁ : Loop) : Prop where
  acc : L₁.acc = L.acc
  users : L₁.users = L.users
  txs : L₁.txs = L.txs
  txsDeposit : L₁.txsDeposit = L.txsDeposit
  changes : ∀ uid, uid ∉ pre.map Prod.fst → L₁.changes[uid]? = L.changes[uid]?
  weights : L₁.weights - divsOf L₁.receipts = L.weights - divsOf L.receipts +
    (pre.map fun p => p.2.deposit.toInt).sum + (pre.map fun p => L.dsuGain c p.1 p.2).sum
  fees : feesOf L₁.receipts = feesOf L.receipts
  leftovers : leftoversOf L₁.receipts = leftoversOf L.receipts

namespace Settled

variable {c : Ctx} {L L₁ L₂ : Loop} {pre : List (UInt32 × Dsu)} {uid : UInt32} {d : Dsu}

theorem start (c : Ctx) (L : Loop) : Settled c L [] L :=
  ⟨rfl, rfl, rfl, rfl, fun _ _ => rfl, by simp, rfl, rfl⟩

/-- An account whose deposit is still pending is as the loop left it. -/
theorem user_eq (h : Settled c L pre L₁) (huid : uid ∉ pre.map Prod.fst) :
    L₁.user uid.toNat = L.user uid.toNat := by
  rw [Loop.user_toNat, Loop.user_toNat, h.changes uid huid, h.acc]

/-- Booking one more deposit, with a dividend `div`. -/
theorem book {u : User} {div : Int} (h : Settled c L pre L₁) (huid : uid ∉ pre.map Prod.fst)
    (hlt : uid < L.users) (hu : u.weight.toInt =
      (L.user uid.toNat).weight.toInt + div + d.deposit.toInt + L.dsuGain c uid d)
    (hacc : L₂.acc = L₁.acc) (husers : L₂.users = L₁.users) (htxs : L₂.txs = L₁.txs)
    (hdep : L₂.txsDeposit = L₁.txsDeposit) (hchanges : L₂.changes = L₁.changes.insert uid u)
    (hdiv : divsOf L₂.receipts = divsOf L₁.receipts + div)
    (hfees : feesOf L₂.receipts = feesOf L₁.receipts)
    (hleft : leftoversOf L₂.receipts = leftoversOf L₁.receipts) :
    Settled c L (pre ++ [(uid, d)]) L₂ := by
  have huser := fun i hi =>
    Loop.user_insert L₁ L₂ uid u hchanges (fun _ _ => by rw [hacc]) (i := i) hi
  refine ⟨hacc.trans h.acc, husers.trans h.users, htxs.trans h.txs, hdep.trans h.txsDeposit,
    ?_, ?_, hfees.trans h.fees, hleft.trans h.leftovers⟩
  · intro uid' hmem
    rw [List.map_append, List.mem_append, not_or] at hmem
    have hne : uid' ≠ uid := by
      rintro rfl
      exact hmem.2 List.mem_cons_self
    rw [hchanges, Map.getElem?_insert_ne _ _ hne, h.changes uid' hmem.1]
  · have hweights : L₂.weights = L₁.weights - (L₁.user uid.toNat).weight.toInt + u.weight.toInt :=
      Loop.sum_replace husers (by rw [h.users]; exact hlt) huser
    have hold := h.weights
    rw [hweights, hdiv, h.user_eq huid, hu, List.map_append, List.sum_append, List.map_singleton,
      List.sum_singleton, List.map_append, List.sum_append, List.map_singleton,
      List.sum_singleton]
    dsimp only
    omega

end Settled

/-- The fee counter does not enter the record. -/
theorem dividend_fee (v : Servers) (u : User) (fee : Int64) :
    (dividend v u fee).2.1 = (dividend v u 0).2.1 := by
  by_cases h : dividendDue v u
  · rw [dividend_of_due fee h, dividend_of_due 0 h]
  · rw [dividend_of_not_due fee h, dividend_of_not_due 0 h]

/-- One iteration of the loop over the pending deposits. -/
theorem commitDsu_settled {c : Ctx} {L L₁ : Loop} {pre : List (UInt32 × Dsu)} {uid : UInt32}
    {d : Dsu} (hf : L.Filed c) (hd : L.localDsu[uid]? = some d) (huid : uid ∉ pre.map Prod.fst)
    (h : Settled c L pre L₁) (buf : User) :
    Settled c L (pre ++ [(uid, d)]) (commitDsu c (L₁, buf) uid d).1 := by
  have hlt := hf.dsu_lt uid (Std.ExtTreeMap.mem_iff_isSome_getElem?.mpr (by rw [hd]; rfl))
  have hnat := UInt32.lt_iff_toNat_lt.mp hlt
  have huser := h.user_eq huid
  cases hu : L₁.changes[uid]? with
  | some u =>
      have hu' : L.user uid.toNat = u := by
        rw [← huser, Loop.user_toNat, hu, Option.getD_some]
      have hgain : L.dsuGain c uid d = wrap u.weight d.deposit := by
        rw [Loop.dsuGain, ← h.changes uid huid, hu]
      rw [commitDsu_of_some buf d hu]
      refine h.book huid hlt ?_ rfl rfl rfl rfl rfl (add_zero _).symm rfl rfl
      rw [hgain, hu', add_zero]
      exact toInt_add_wrap u.weight d.deposit
  | none =>
      have hfile : uid.toNat < L₁.acc.file.size := by
        rw [h.acc]
        exact lt_of_lt_of_le hnat hf.filled
      have hgain : L.dsuGain c uid d = dividendGain c.s.srvs (L.user uid.toNat) +
          wrap (dividend c.s.srvs (L.user uid.toNat) L₁.lodivFee).2.1.weight d.deposit := by
        rw [dividend_fee _ _ L₁.lodivFee, Loop.dsuGain, ← h.changes uid huid, hu]
      have hdiv := toInt_dividend_weight c.s.srvs (L.user uid.toNat) L₁.lodivFee
      rw [commitDsu_of_none buf d hu hfile, huser]
      have hnew : (dsuUser c uid d
          (dividend c.s.srvs (L.user uid.toNat) L₁.lodivFee).2.1).weight.toInt =
          (L.user uid.toNat).weight.toInt +
            (paid (dividend c.s.srvs (L.user uid.toNat) L₁.lodivFee).1).toInt +
            d.deposit.toInt + L.dsuGain c uid d := by
        rw [hgain, ← add_assoc, add_right_comm _ d.deposit.toInt, ← hdiv]
        exact toInt_add_wrap _ d.deposit
      refine h.book huid hlt hnew rfl rfl rfl rfl rfl ?_ ?_ ?_
      · rw [divsOf, List.map_cons, List.sum_cons, add_comm]
        rfl
      · rw [feesOf, List.map_cons, List.sum_cons]
        exact zero_add _
      · rw [leftoversOf, List.map_cons, List.sum_cons]
        exact zero_add _

/-- All pending deposits of the message. -/
theorem commitLocal_settled {c : Ctx} {L : Loop} (hf : L.Filed c) :
    Settled c L L.localDsu.toList (commitLocal c L) :=
  Map.foldl_invariant (fun pre (acc : Loop × User) => Settled c L pre acc.1)
    (Settled.start c L) fun _ _ _ acc huid hd h => commitDsu_settled hf hd huid h acc.2

/-- The final loop state of an accepted message: `L` is the state after the
transactions. -/
structure Accepted (c : Ctx) (s' : State) (rs : List Receipt) (L : Loop) : Prop where
  filed : L.Filed c
  settled : Settled c L L.localDsu.toList (commitLocal c L)
  frame : CommitFrame c (commitLocal c L) s'
  receipts : rs = (commitLocal c L).receipts

namespace Accepted

variable {c : Ctx} {s' : State} {rs : List Receipt} {L : Loop}

theorem users (h : Accepted c s' rs L) : (s'.srvs.node c.msg.svid).users = L.users := by
  have hgrown := h.filed.grown
  rw [h.frame.node]
  dsimp only
  rw [h.settled.acc, h.filed.users_eq]
  split
  · rename_i hle
    exact UInt32.toNat_inj.mp (le_antisymm hgrown (UInt32.le_iff_toNat_le.mp hle))
  · rfl

theorem bankTotal (h : Accepted c s' rs L) :
    s'.bankTotal c.msg.svid = (commitLocal c L).weights := by
  rw [State.bankTotal, h.users, Loop.weights, Loop.sum, h.settled.users]
  refine Finset.sum_congr rfl fun i hi => ?_
  rw [h.frame.usr, Function.update_self,
    Loop.get_writeAll _ (lt_trans (Finset.mem_range.mp hi) L.users.toNat_lt)]

/-- The pending deposits of the message are added to those of the block. -/
theorem depositTotal (h : Accepted c s' rs L) : s'.depositTotal = c.s.depositTotal + L.depTotal +
    Map.total (fun key w => wrap (c.s.deposit.val key) w) L.txsDeposit := by
  have hmerge := Map.total_merge (f := fun _ w => Int64.toInt w)
    (h := fun key w => Int64.toInt w + wrap (c.s.deposit.val key) w) (· + ·) c.s.deposit
    L.txsDeposit (fun _ => rfl)
    fun key w _ => by rw [toInt_add_wrap, add_assoc]
  rw [State.depositTotal, h.frame.deposit, h.settled.txsDeposit, hmerge, Map.total_add, ← add_assoc]
  rfl

end Accepted

/-- What an accepted message gains or loses beyond its books. -/
theorem processMessage_gain {env : Env} {s s' : State} {msg : Message} {rs : List Receipt}
    (hsvid : msg.svid.toNat < s.srvs.nodes.size)
    (hfile : (s.srvs.node msg.svid).users.toNat ≤ (s.usr msg.svid).size)
    (hlast : ∀ t ∈ msg.txs, t.created ≠ some 0xFFFFFFFF)
    (h : processMessage env s msg = .accept s' rs) :
    s'.bankTotal msg.svid - s.bankTotal msg.svid =
      divsOf rs - (s'.depositTotal - s.depositTotal) -
        userMinMass.toInt * ((s'.blk.usr.size : Int) - s.blk.usr.size) -
        (bankMinUmass + bankMinTmass).toInt * ((s'.blk.bnk.size : Int) - s.blk.bnk.size) -
        feesOf rs - leftoversOf rs + Ctx.gain ⟨env, s, msg⟩ := by
  obtain ⟨-, -, L, hloop, hcommit, hrs⟩ := processMessage_accept h
  have hend := processTxs_balanced (Ctx.init_balanced (c := ⟨env, s, msg⟩) hfile hlast) hloop
  have haccepted : Accepted ⟨env, s, msg⟩ s' rs L :=
    ⟨hend.toFiled, commitLocal_settled hend.toFiled, commitMessage_frame hsvid hcommit, hrs⟩
  have hset := haccepted.settled
  have hweights := hset.weights
  have htotal := haccepted.bankTotal
  have hdeposit := haccepted.depositTotal
  have hbooks := hend.books
  have hblk : s'.blk = s.blk.insert L.txs := by rw [haccepted.frame.blk, hset.txs]
  have hrequested : L.requested ⟨env, s, msg⟩ = userMinMass.toInt * s'.blk.usr.size +
      (bankMinUmass + bankMinTmass).toInt * s'.blk.bnk.size := by rw [hblk]; rfl
  change _ = _ + L.dsuTotal + Map.total (L.dsuGain ⟨env, s, msg⟩) L.localDsu at hweights
  rw [Loop.books, hrequested, Ctx.gainFrom, Loop.commitGain] at hbooks
  rw [hrs, hset.fees, hset.leftovers, htotal, hdeposit, mul_sub, mul_sub]
  dsimp only at hbooks ⊢
  omega

namespace Sample

def env : Env where
  svid := 3
  sha256 _ := 0
  signOpenBatch2 _ := true
  findKey _ := none
  junk := {}

/-- An account that has been used in the present block. -/
def account (weight : Int64) : User :=
  { msid := 1, weight := weight, lpath := 0x60000000, rpath := 0x60000000 }

/-- Bank 1 with two accounts of the given balance and bank 2 with one account. -/
def state (weight : Int64) : State where
  srvs := { now := 0x60000000, nodes := Table.ofList [{}, { users := 2 }, { users := 1 }, {}] }
  last := { now := 0x5FFFFE00, nodes := Table.ofList [{}, { users := 2 }, { users := 1 }, {}] }
  usr b :=
    if b = 1 then Table.ofList [account weight, account weight]
    else if b = 2 then Table.ofList [account weight]
    else Table.empty

/-- A transfer from account 1 of bank 1 to account 0 of bank 2. -/
def put (mass : Int64) : UserTxs where
  ttype := .put
  abank := 1
  auser := 1
  amsid := 1
  ttime := 0x60000000
  bbank := 2
  buser := 0
  tmass := mass

/-- A transfer from account 1 to account 0 of a bank. -/
def localPut (bank : UInt16) (mass : Int64) : UserTxs where
  ttype := .put
  abank := bank
  auser := 1
  amsid := 2
  ttime := 0x60000000
  bbank := bank
  buser := 0
  tmass := mass
  addresses := by simp
  broadcast := by simp

def transfer (mass : Int64) : Message where
  svid := 1
  msid := 1
  now := 0x60000000
  txs := [put mass]
  bounded := by simp [put, UserTxs.size, txslen]

/-- A transfer to the other bank and one inside the bank. -/
def transfers : Message where
  svid := 1
  msid := 1
  now := 0x60000000
  txs := [put 1000, localPut 1 500]
  bounded := by simp [put, localPut, UserTxs.size, txslen]

end Sample

end Esc
