import Esc.Server.Dividend

/-!
# Processing a message

`process_message` runs a loop over the transactions of a message, collects their
effects in local maps and commits these at the end. Some effects do not wait for
the commit: the node address, new account records, the broadcast log and the calls
on the office are made inside the loop and survive a later rejection.

`Loop` holds the locals of the function together with what the loop changes
directly. A failing check returns the loop state of that moment, so that the
effects already made are not lost from the model. `Receipt` keeps the three local
amounts of an iteration that the source does not store.
-/

namespace Esc

open Lib

/-- Dividend, fee and leftover of an overwritten account of one iteration. -/
structure Receipt where
  user : UInt32 := 0
  div : Int64 := 0
  fee : Int64 := 0
  leftover : Int64 := 0
deriving DecidableEq

/-- Local variables of the transaction loop, and the state that it writes at once:
address, user count, file and changed bits of the own node, office and broadcast
log. -/
structure Loop where
  port : UInt32
  ipv4 : UInt32
  acc : Accounts
  bro : List Broadcast
  office : Office
  users : UInt32
  changes : Map UInt32 User := ∅
  undo : Map UInt32 User := ∅
  localDsu : Map UInt32 Dsu := ∅
  txsDeposit : Map UInt64 Int64 := ∅
  txsBky : Map UInt64 Hash := ∅
  txs : Requests := {}
  csum : Hash := 0
  weight : Int64 := 0
  localFee : Int64 := 0
  lodivFee : Int64 := 0
  tmpos : UInt32 := 0
  signs : List SignItem := []
  receipts : List Receipt := []

/-- What the loop reads: the surroundings, the state at the call and the message. -/
structure Ctx where
  env : Env
  s : State
  msg : Message

namespace Ctx

/-- Signatures are checked for new messages of other nodes only. -/
def checkSig (c : Ctx) : Bool := !c.msg.val && !c.s.doSync && c.msg.svid != c.env.svid

def omsid (c : Ctx) : UInt32 := (c.s.last.node c.msg.svid).msid

/-- Key of the present transaction in the block maps. -/
def ppb (c : Ctx) (L : Loop) (bbank : UInt16) : UInt64 :=
  makePpi L.tmpos c.omsid c.msg.msid c.msg.svid bbank

/-- `servers::check_user` on the live node table. -/
def checkUser (c : Ctx) (L : Loop) (bank : UInt16) (user : UInt32) : Bool :=
  bank.toNat < c.s.srvs.nodes.size &&
    user < if bank = c.msg.svid then L.acc.users else (c.s.srvs.node bank).users

/-- The loop state at the first transaction. -/
def init (c : Ctx) : Loop where
  port := (c.s.srvs.node c.msg.svid).port
  ipv4 := (c.s.srvs.node c.msg.svid).ipv4
  acc := c.s.accounts c.msg.svid
  bro := c.s.bro
  office := c.s.office
  users := (c.s.srvs.node c.msg.svid).users

end Ctx

/-- Read an account into the changed accounts unless it is there already. -/
def Loop.fetch (L : Loop) (uid : UInt32) : Loop :=
  match L.changes[uid]? with
  | some _ => L
  | none =>
      let u := readUser L.acc.file uid default
      { L with changes := L.changes.insert uid u, undo := L.undo.insert uid u }

/-- Start a new account in the place of the record `old` and write it out. -/
def Loop.initAccount (c : Ctx) (L : Loop) (nuser : UInt32) (old : User) (mass : Int64)
    (pkey : Hash) (time : UInt32) : Loop :=
  let u := initUser c.env.sha256 (c.s.srvs.node 0).msha c.msg.svid nuser mass pkey time
  { L with
    csum := L.csum ^^^ old.csum ^^^ u.csum
    weight := L.weight + mass
    changes := L.changes.insert nuser u
    acc := L.acc.putUser u nuser }

/-- The account may not be overwritten: it is not marked deleted, not empty or too
young. -/
def overwriteDenied (now : UInt32) (u : User) : Bool :=
  u.stat &&& userStatDeleted == 0 || txsDivFee ≤ u.weight ||
    decide ((now.toNat : Int) - userMinAge ≤ u.lpath.toNat)

/-- Create the account of a local request or of a remote confirmation. -/
def createAccount (c : Ctx) (L : Loop) (nuser : UInt32) (mass : Int64) (pkey : Hash)
    (time : UInt32) : Except Loop Loop :=
  if L.users < nuser then .error L
  else if nuser < L.users then
    let L := L.fetch nuser
    let u := L.changes.val nuser
    if overwriteDenied c.s.srvs.now u then .error L
    else
      .ok ({ L with
        localFee := L.localFee + u.weight
        weight := L.weight - u.weight
        receipts := { leftover := u.weight } :: L.receipts }.initAccount c nuser u mass pkey time)
  else
    .ok ({ L with users := L.users + 1 }.initAccount c nuser default mass pkey time)

/-- Add an amount to a local account or to the remote deposits. -/
def Loop.credit (L : Loop) (abank bank : UInt16) (user : UInt32) (mass : Int64) : Loop :=
  if bank = abank then
    { L with
      localDsu := L.localDsu.adjust user fun d => { d with deposit := d.deposit + mass } }
  else
    { L with txsDeposit := L.txsDeposit.adjust (depositKey bank user) (· + mass) }

/-- What a transaction takes from its sender. -/
structure Cost where
  deduct : Int64 := 0
  fee : Int64 := 0
  remoteFee : Int64 := 0

/-- Variables of the loop over the targets of a multiple transfer. -/
structure Mpt where
  loop : Loop
  out : List UInt64 := []
  tmass : Int64 := 0
  fee : Int64 := 0
  remoteFee : Int64 := 0

/-- One target of a multiple transfer. -/
def mptStep (c : Ctx) (abank : UInt16) (m : Mpt) (a : ToAddress) : Except Loop Mpt :=
  if a.tmass ≤ 0 then .error m.loop
  else if depositKey a.tbank a.tuser ∈ m.out then .error m.loop
  else if !c.checkUser m.loop a.tbank a.tuser then .error m.loop
  else
    let lng := if abank = a.tbank then 0 else txsLngFee a.tmass
    .ok {
      loop := m.loop.credit abank a.tbank a.tuser a.tmass
      out := depositKey a.tbank a.tuser :: m.out
      tmass := m.tmass + a.tmass
      fee := m.fee + txsMptFee a.tmass + lng
      remoteFee := m.remoteFee + lng }

/-- Set or clear status bits of a local account; the deleted mark cannot be changed. -/
def Dsu.setBits (d : Dsu) (bits : UInt16) : Dsu :=
  let mask := d.uus &&& bits
  { d with uus := d.uus &&& ~~~mask, sus := d.sus ||| (bits &&& ~~~mask) }

def Dsu.clearBits (d : Dsu) (bits : UInt16) : Dsu :=
  let mask := d.sus &&& bits
  { d with sus := d.sus &&& ~~~mask, uus := d.uus ||| (bits &&& ~~~mask) }

/-- The status bits that a transaction may change. -/
def userBits (mass : Int64) : UInt16 := mass.toUInt64.toUInt16 &&& 0xFFFE

/-- `message::get_user`: the account as it was at the start of the message's block,
from the block undo files up to the message path. -/
def messageUser (c : Ctx) (L : Loop) (user : UInt32) : User :=
  let start := c.msg.now - c.msg.now % blockSec
  let blocks := (List.range ((c.msg.path.toNat + blockSec.toNat - start.toNat) /
    blockSec.toNat)).map fun i => start + blockSec * UInt32.ofNat i
  let saved := blocks.filterMap fun block =>
    let u := readUser (c.s.und block c.msg.svid) user default
    if u.msid = 0 then none else some u
  saved.head?.getD (readUser L.acc.file user c.env.junk)

/-- Fee of a single transfer: local and, to another bank, remote part, with a
minimum. -/
def putFee (mass lng : Int64) : Int64 :=
  if txsPutFee mass + lng < txsMinFee then txsMinFee else txsPutFee mass + lng

/-- The amount of a single transfer; a negative one is allowed and informs only. -/
def UserTxs.putMass (t : UserTxs) : Int64 := if t.tmass < 0 then 0 else t.tmass

/-- The remote part of the fee. -/
def UserTxs.putLng (t : UserTxs) : Int64 :=
  if t.abank = t.bbank then 0 else txsLngFee t.putMass

def putTx (c : Ctx) (L : Loop) (t : UserTxs) : Except Loop (Loop × Cost) :=
  if c.checkUser L t.bbank t.buser then
    .ok (L.credit t.abank t.bbank t.buser t.putMass,
      { deduct := t.putMass, fee := putFee t.putMass t.putLng, remoteFee := t.putLng })
  else .error L

def mptTx (c : Ctx) (L : Loop) (t : UserTxs) : Except Loop (Loop × Cost) := do
  let m ← t.toaddresses.foldlM (mptStep c t.abank) { loop := L }
  let least := txsMinMptFee (Int64.ofNat t.bbank.toNat)
  return (m.loop, {
    deduct := m.tmass
    fee := if m.fee < least then least else m.fee
    remoteFee := m.remoteFee })

def usrTx (c : Ctx) (L : Loop) (t : UserTxs) : Loop × Cost :=
  if t.abank = t.bbank then (L, { deduct := userMinMass, fee := txsUsrFee })
  else
    let usr : Usr := { auser := t.auser, bbank := t.bbank, pkey := t.npkey }
    let remote := (t.abank, t.auser, t.npkey)
    ({ L with
        txs := { L.txs with usr := L.txs.usr.insert (c.ppb L c.msg.svid) usr }
        office := if t.bbank = c.env.svid then
            { L.office with remoteUsers := L.office.remoteUsers ++ [remote] }
          else L.office },
      { deduct := userMinMass, fee := txsUsrFee + txsRusFee, remoteFee := txsRusFee })

/-- The node whose key a key change is for: the own node, or with special rights a
closed node; 0 when there is no right. -/
def bkyNode (s : State) (svid : UInt16) (t : UserTxs) : UInt16 :=
  if t.bbank = 0 then svid
  else if hasBit (s.srvs.node svid).status serverUno &&
      hasBit (s.last.node t.bbank).status serverDbl
  then t.bbank
  else 0

def bkyTx (c : Ctx) (L : Loop) (t : UserTxs) : Except Loop (Loop × Cost) :=
  let node := bkyNode c.s c.msg.svid t
  if t.auser ≠ 0 then .error L
  else if c.s.last.nodes.size ≤ t.bbank.toNat then .error L
  else if node = 0 then .ok (L, { fee := txsBkyFee })
  else if (c.s.srvs.node node).pk ≠ t.opkey then .error L
  else
    .ok ({ L with
        office := if node = c.env.svid then { L.office with pkey := t.key } else L.office
        txsBky := L.txsBky.insert (c.ppb L node) t.key },
      { fee := txsBkyFee })

/-- Node status changes count when a VIP node votes or the node changes its own. -/
def statusTx (c : Ctx) (L : Loop) (t : UserTxs) (vote : Requests → UInt64 → UInt32 → Requests)
    (fee : Int64) : Except Loop (Loop × Cost) :=
  if t.auser ≠ 0 then .error L
  else if c.s.last.nodes.size ≤ t.bbank.toNat then .error L
  else if hasBit (c.s.last.node c.msg.svid).status serverVip || t.abank = t.bbank then
    .ok ({ L with txs := vote L.txs (c.ppb L t.bbank) t.tmass.toUInt64.toUInt32 }, { fee := fee })
  else .ok (L, { fee := fee })

def sbsTx (c : Ctx) (L : Loop) (t : UserTxs) : Except Loop (Loop × Cost) :=
  statusTx c L t (fun r k v => { r with sbs := r.sbs.insert k v }) txsSbsFee

def ubsTx (c : Ctx) (L : Loop) (t : UserTxs) : Except Loop (Loop × Cost) :=
  statusTx c L t (fun r k v => { r with ubs := r.ubs.insert k v }) txsUbsFee

/-- Account status changes take effect on local accounts only. -/
def bitsTx (c : Ctx) (L : Loop) (t : UserTxs) (f : Dsu → UInt16 → Dsu) (fee : Int64) :
    Except Loop (Loop × Cost) :=
  if !c.checkUser L t.bbank t.buser then .error L
  else if t.bbank = t.abank then
    .ok ({ L with localDsu := L.localDsu.adjust t.buser fun d => f d (userBits t.tmass) },
      { fee := fee })
  else .ok (L, { fee := fee })

def susTx (c : Ctx) (L : Loop) (t : UserTxs) : Except Loop (Loop × Cost) :=
  bitsTx c L t Dsu.setBits txsSusFee

def uusTx (c : Ctx) (L : Loop) (t : UserTxs) : Except Loop (Loop × Cost) :=
  bitsTx c L t Dsu.clearBits txsUusFee

/-- The effect of a transaction besides its cost. Only a key change touches the
record of the sender. -/
def effect (c : Ctx) (L : Loop) (t : UserTxs) (u : User) : Except Loop (Loop × Cost) :=
  match t.ttype with
  | .bro =>
      if maxBroadcastLength < t.bbank then .error L
      else
        .ok ({ L with
            bro := L.bro ++ [⟨c.s.srvs.now, t, u.hash, u.pkey, c.msg.msid, L.tmpos⟩] },
          { fee := txsBroFee (Int64.ofNat t.bbank.toNat) })
  | .put => putTx c L t
  | .mpt => mptTx c L t
  | .usr => .ok (usrTx c L t)
  | .bnk =>
      .ok ({ L with
          txs := { L.txs with bnk := L.txs.bnk.insert (c.ppb L c.msg.svid) t.auser } },
        { deduct := bankMinUmass + bankMinTmass, fee := txsBnkFee })
  | .get =>
      if t.abank = t.bbank then .error L
      else
        let get : Get := { auser := t.auser, buser := t.buser, pkey := u.pkey }
        .ok ({ L with txs := { L.txs with get := L.txs.get.insert (c.ppb L t.bbank) get } },
          { fee := txsGetFee })
  | .key => .ok (L, { fee := txsKeyFee })
  | .bky => bkyTx c L t
  | .sbs => sbsTx c L t
  | .ubs => ubsTx c L t
  | .sus => susTx c L t
  | .uus => uusTx c L t
  | .sav =>
      if !c.msg.val && c.s.iamvip && !c.s.doSync && c.s.startPath ≤ c.msg.path &&
          messageUser c L t.auser != t.usr then .error L
      else .ok (L, { fee := txsSavFee })
  | _ => .ok (L, {})

/-- An account with an old lock accepts nothing but an empty transfer to itself. -/
def accountLocked (now : UInt32) (t : UserTxs) (u : User) : Bool :=
  u.time + lockTime < now && u.user != 0 && u.node != 0 &&
    (u.user != t.auser || u.node != t.abank)

def unlocks (t : UserTxs) : Bool :=
  t.ttype = .put && t.abank = t.bbank && t.auser = t.buser && t.tmass = 0

/-- The effect behind the account lock. -/
def lockedEffect (c : Ctx) (L : Loop) (t : UserTxs) (u : User) : Except Loop (Loop × Cost) :=
  if accountLocked c.s.srvs.now t u then
    if unlocks t then .ok (L, {}) else .error L
  else effect c L t u

/-- The bank owner keeps a reserve. -/
def reserve (auser : UInt32) : Int64 := if auser = 0 then bankMinUmass / 2 else 0

/-- The balance check, with the local deposits of this message as a second chance. -/
def tooLow (t : UserTxs) (cost : Cost) (u : User) (d : Dsu) : Bool :=
  u.weight < cost.deduct + cost.fee + reserve t.auser &&
    u.weight + d.deposit < cost.deduct + cost.fee + reserve t.auser

/-- Pending status bits and deposit of a local account. -/
def Dsu.apply (d : Dsu) (u : User) : User :=
  { u with weight := u.weight + d.deposit, stat := (u.stat ||| d.sus) &&& ~~~d.uus }

/-- The sender after its transaction. -/
def settleUser (c : Ctx) (t : UserTxs) (cost : Cost) (u : User) (d : Dsu) : User :=
  { u with
    msid := u.msid + 1
    time := t.ttime
    node := 0
    user := 0
    lpath := c.s.srvs.now
    pkey := if t.ttype = .key then t.key else u.pkey
    hash := c.env.sha256 (bytesLE 32 u.hash.toNat ++
      bytesLE 32 (c.env.sha256 (bytesLE 64 t.sig.toNat)).toNat)
    weight := u.weight + (d.deposit - cost.deduct - cost.fee)
    stat := (u.stat ||| d.sus) &&& ~~~d.uus }

/-- Pay the dividend, check the balance and book the transaction on its sender. -/
def settle (c : Ctx) (L : Loop) (t : UserTxs) (cost : Cost) : Except Loop Loop :=
  let (div, u, lodivFee) := dividend c.s.srvs (L.changes.val t.auser) L.lodivFee
  let d := L.localDsu.val t.auser
  if cost.deduct < 0 || cost.fee < 0 then .error L
  else if tooLow t cost u d then .error L
  else
    .ok { L with
      changes := L.changes.insert t.auser (settleUser c t cost u d)
      localDsu := L.localDsu.insert t.auser {}
      weight := L.weight + paid div + (d.deposit - cost.deduct - cost.fee)
      lodivFee := lodivFee
      localFee := L.localFee + (cost.fee - cost.remoteFee)
      receipts := { user := t.auser, div := paid div, fee := cost.fee } :: L.receipts }

/-- Fetch the sender and put its signature into the batch. -/
def Loop.sender (c : Ctx) (L : Loop) (t : UserTxs) : Loop :=
  let L := L.fetch t.auser
  let u := L.changes.val t.auser
  if c.checkSig then { L with signs := L.signs ++ [⟨u.hash, t, u.pkey⟩] } else L

/-- A transaction of an existing sender, after the account it may have created. -/
def senderTx (c : Ctx) (L : Loop) (t : UserTxs) : Except Loop Loop :=
  if L.users ≤ t.auser then .error L
  else
    let L := L.sender c t
    let u := L.changes.val t.auser
    if u.msid ≠ t.amsid then .error L
    else do
      let (L, cost) ← lockedEffect c L t u
      settle c L t cost

/-- One iteration of the transaction loop. -/
def processTx (c : Ctx) (L : Loop) (t : UserTxs) : Except Loop Loop :=
  let L := { L with tmpos := L.tmpos + 1 }
  match t.ttype with
  | .non => .ok L
  | .con => .ok { L with port := t.abank.toUInt32, ipv4 := t.auser }
  | .inf => .error L
  | ty =>
      if c.s.srvs.now + blockSec + 5 < t.ttime then .error L
      else if t.abank ≠ c.msg.svid then .error L
      else if ty = .uok then do
        let L ← createAccount c L t.auser 0 t.upkey t.ttime
        let uok : Uok := { auser := t.auser, bbank := t.bbank, buser := t.buser, pkey := t.upkey }
        return { L with txs := { L.txs with uok := L.txs.uok.insert (c.ppb L c.msg.svid) uok } }
      else if ty = .usr ∧ t.abank = t.bbank then do
        let L ← createAccount c L t.nuser userMinMass t.npkey t.ttime
        senderTx c L t
      else senderTx c L t

/-- Pending deposit and status bits of one local account at the end of the loop. An
account that the loop did not touch is read into the buffer `buf` and gets its
dividend first. -/
def commitDsu (c : Ctx) (acc : Loop × User) (uid : UInt32) (d : Dsu) : Loop × User :=
  let (L, buf) := acc
  match L.changes[uid]? with
  | some u =>
      let u' := userCsum c.env.sha256 (d.apply u) c.msg.svid uid
      ({ L with
          csum := L.csum ^^^ u.csum ^^^ u'.csum
          weight := L.weight + d.deposit
          changes := L.changes.insert uid u' }, buf)
  | none =>
      let u := readUser L.acc.file uid buf
      let (div, ud, lodivFee) := dividend c.s.srvs u L.lodivFee
      let u' := userCsum c.env.sha256 (d.apply ud) c.msg.svid uid
      ({ L with
          undo := L.undo.insert uid u
          csum := L.csum ^^^ u.csum ^^^ u'.csum
          weight := L.weight + paid div + d.deposit
          lodivFee := lodivFee
          changes := L.changes.insert uid u'
          receipts := { user := uid, div := paid div } :: L.receipts }, u')

def commitLocal (c : Ctx) (L : Loop) : Loop := (L.localDsu.foldl (commitDsu c) (L, c.env.junk)).1

/-- The direct effects of the loop on the state. -/
def Loop.effects (c : Ctx) (L : Loop) : State :=
  { (c.s.modifyNode c.msg.svid fun n =>
        { n with
          port := L.port
          ipv4 := L.ipv4
          users := L.acc.users
          changed := L.acc.changed }).setFile c.msg.svid L.acc.file with
    bro := L.bro
    office := L.office }

/-- The profit of the bank on a message. -/
def Loop.profit (c : Ctx) (L : Loop) : Int64 :=
  bankProfit (L.localFee + L.lodivFee) - messageFee c.msg.len

/-- The own node, its account file and its undo files after the commit. -/
def Loop.commitBank (c : Ctx) (L : Loop) : State :=
  let s := L.effects c
  let svid := c.msg.svid
  let n := s.srvs.node svid
  let und := saveUndo n (s.und s.srvs.now svid) L.undo (c.s.srvs.node svid).users
  let record : MessageUndo := {
    csum := L.csum
    weight := L.weight
    fee := L.profit c
    msha := n.msha
    mtim := n.mtim
    undo := L.undo
    users := (c.s.srvs.node svid).users }
  { (s.modifyNode svid fun n =>
        { n with
          weight := n.weight + L.weight
          hash := n.hash ^^^ L.csum
          users := und.1.users
          changed := und.1.changed }).setFile svid
      (L.acc.file.writeAll UInt32.toNat L.changes) with
    bankFee := s.bankFee.modify svid.toNat (· + L.profit c)
    msgUndo := Function.update s.msgUndo svid
      (Function.update (s.msgUndo svid) c.msg.msid (some record))
    und := Function.update s.und s.srvs.now
      (Function.update (s.und s.srvs.now) svid und.2) }

/-- The dividends that the message pays. -/
def Loop.dividends (L : Loop) (svid : UInt16) : List Dividend :=
  L.receipts.filterMap fun r => if r.div = 0 then none else some ⟨svid, r.user, r.div⟩

/-- One node key change; without the secret key of its own new key the server
cannot go on. -/
def bkyStep (env : Env) (s : State) (change : UInt64 × Hash) : Option State :=
  let node := ppiBbank change.1
  let s := { s.modifyNode node fun n => { n with pk := change.2 } with
    blkBky := if hasBit (s.last.node node).status serverDbl then s.blkBky.insert change.1 node
      else s.blkBky }
  if node = env.svid then
    (env.findKey change.2).map fun skey => { s with pkey := change.2, skey := skey }
  else some s

/-- The commit of an accepted message; `none` is the exit on a missing key. -/
def commitMessage (c : Ctx) (L : Loop) : Option State := do
  let s := L.commitBank c
  let s := { s with deposit := s.deposit.merge (· + ·) L.txsDeposit }
  let s ← L.txsBky.toList.foldlM (bkyStep c.env) s
  return { s with
    blk := s.blk.insert L.txs
    dividends := L.dividends c.msg.svid ++ s.dividends }

/-- The three ways in which processing a message ends. -/
inductive Outcome where
  | accept (s : State) (receipts : List Receipt)
  | reject (s : State)
  | exit

/-- The message was accepted with a result that passes a test. -/
def Outcome.accepts (p : State → List Receipt → Bool) : Outcome → Bool
  | .accept s rs => p s rs
  | _ => false

theorem Outcome.exists_of_accepts {p : State → List Receipt → Bool} {o : Outcome}
    (h : o.accepts p = true) : ∃ s rs, o = .accept s rs ∧ p s rs = true := by
  cases o with
  | accept s rs => exact ⟨s, rs, rfl, h⟩
  | reject s => cases h
  | exit => cases h

/-- `process_message`. -/
def processMessage (env : Env) (s : State) (msg : Message) : Outcome :=
  let c : Ctx := ⟨env, s, msg⟩
  if msg.now < s.last.now then .reject s
  else if (readUser (s.usr msg.svid) 0 env.junk).weight < messageFee msg.len then .reject s
  else
    match msg.txs.foldlM (processTx c) c.init with
    | .error L => .reject (L.effects c)
    | .ok L =>
        if c.checkSig && !env.signOpenBatch2 L.signs then .reject (L.effects c)
        else
          let L := commitLocal c L
          match commitMessage c L with
          | none => .exit
          | some s => .accept s L.receipts

end Esc
