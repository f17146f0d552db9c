import Esc.Server.Dividend

/-!
# Dividends, deposits and bank fees of a block

The three functions that end a block after `commit_block`. They rewrite the tail of
account records in place: from `rpath` on, or from `stat` on when an account is
marked deleted. Their logs and the fee statistics of the own node are left out.
-/

namespace Esc

open Lib

/-- Where a write that steps back from the position after a read of record `uid` ends
up. Past the end of the file nothing was read and the step back leads one record
lower. -/
def tailIndex (file : Table User) (uid : UInt32) : Nat :=
  if uid.toNat < file.size then uid.toNat else uid.toNat - 1

/-- Write a record from `rpath` on. -/
def writeTail (file : Table User) (uid : UInt32) (u : User) : Table User :=
  let i := tailIndex file uid
  file.write i { file.get i with rpath := u.rpath, weight := u.weight, csum := u.csum }

/-- Write a record from `stat` on. -/
def writeStat (file : Table User) (uid : UInt32) (u : User) : Table User :=
  let i := tailIndex file uid
  file.write i
    { file.get i with stat := u.stat, rpath := u.rpath, weight := u.weight, csum := u.csum }

/-- Exchange the checksum of an account in the node hash and add to the node weight.
`u` is the new record with the old checksum. -/
def State.bookUser (env : Env) (s : State) (svid : UInt16) (uid : UInt32) (u : User)
    (delta : Int64) (write : Table User → UInt32 → User → Table User) : State :=
  let u' := userCsum env.sha256 u svid uid
  (s.modifyNode svid fun n =>
      { n with hash := n.hash ^^^ u.csum ^^^ u'.csum, weight := n.weight + delta }).setFile svid
    (write (s.usr svid) uid u')

/-- Add to the profit of a bank. -/
def State.addFee (s : State) (svid : UInt16) (fee : Int64) : State :=
  { s with bankFee := s.bankFee.modify svid.toNat (· + fee) }

/-- The entry for a dividend; there is none when nothing was paid. -/
def dividendEntry (svid : UInt16) (user : UInt32) (div : Int64) : List Dividend :=
  if paid div = 0 then [] else [⟨svid, user, div⟩]

/-- Note a dividend. -/
def State.logDividend (s : State) (svid : UInt16) (user : UInt32) (div : Int64) : State :=
  { s with dividends := dividendEntry svid user div ++ s.dividends }

/-- Calls on the office concern accounts of the own node only, after synchronisation. -/
def State.callOffice (env : Env) (s : State) (svid : UInt16) (f : Office → Office) : State :=
  if svid = env.svid ∧ s.doSync = false then { s with office := f s.office } else s

/-- Variables of a loop over accounts: the read buffer and the records to be saved. -/
structure Pass where
  s : State
  u : User
  undo : Map UInt32 User := ∅

/-- An account may be deleted: it is empty and old. -/
def expired (now : UInt32) (u : User) : Bool :=
  u.weight < txsDivFee && decide ((u.lpath.toNat : Int) < now.toNat - userMinAge)

/-- A deposit that is booked together with the dividend. -/
def Pass.takeDeposit (env : Env) (p : Pass) (svid : UInt16) (user : UInt32) : Pass × Int64 :=
  let key := depositKey svid user
  match p.s.deposit[key]? with
  | none => (p, 0)
  | some dep =>
      let s := (p.s.addFee svid (bankProfit (txsLngFee dep))).callOffice env svid fun o =>
        { o with deposits := o.deposits ++ [(user, dep)] }
      ({ p with
          s := { s with deposit := s.deposit.insert key 0 }
          u := { p.u with weight := p.u.weight + dep } }, dep)

/-- The dividend of one account, with its pending deposit. The loop of the source does not
seek the account: the record is read at the position `pos` of the file, and a write steps
back from there. -/
def dividendUserAt (env : Env) (svid : UInt16) (p : Pass) (user pos : UInt32) : Option Pass :=
  let ou := readUser (p.s.usr svid) pos p.u
  if ou.msid = 0 then none
  else
    let (div, u, fee) := dividend p.s.srvs ou 0
    let p := { p with s := p.s.addFee svid (bankProfit fee), u := u }
    if div = noDividend ∧ u.weight ≠ 0 then some p
    else
      let p := { p with s := p.s.logDividend svid user div, undo := p.undo.insertIfNew user ou }
      let (p, dep) := p.takeDeposit env svid user
      let delta := paid div + dep
      if expired p.s.srvs.now p.u then
        let u := { p.u with stat := p.u.stat ||| userStatDeleted }
        let s := p.s.callOffice env svid fun o =>
          { o with deletedUsers := o.deletedUsers ++ [user] }
        some { p with
          s := s.bookUser env svid user u delta fun file _ => writeStat file pos
          u := userCsum env.sha256 u svid user }
      else
        some { p with
          s := p.s.bookUser env svid user p.u delta fun file _ => writeTail file pos
          u := userCsum env.sha256 p.u svid user }

/-- The visit to an account with the file at its record. -/
def dividendUser (env : Env) (svid : UInt16) (p : Pass) (user : UInt32) : Option Pass :=
  dividendUserAt env svid p user user

/-- A write at the position of the account is a write to its record. -/
theorem State.bookUser_at (env : Env) (s : State) (svid : UInt16) (uid : UInt32) (u : User)
    (delta : Int64) (write : Table User → UInt32 → User → Table User) :
    (s.bookUser env svid uid u delta fun file _ => write file uid) =
      s.bookUser env svid uid u delta write := rfl

/-- The accounts of a bank whose turn it is: segments of 32 accounts, every 1024th one
in each block. -/
def dividendUsers (now : UInt32) (svid : UInt16) (users : UInt32) : List UInt32 :=
  ((List.range users.toNat).filter fun i =>
    i / 32 % 1024 = ((now / blockSec).toNat + svid.toNat) % 1024).map UInt32.ofNat

/-- The accounts of one bank. -/
def dividendBank (env : Env) (acc : State × User) (svid : UInt16) : Option (State × User) := do
  let (s, u) := acc
  let users := dividendUsers s.srvs.now svid (s.srvs.node svid).users
  if users = [] then return (s, u)
  let p ← users.foldlM (dividendUser env svid) { s := s, u := u }
  return (p.s.saveUndo svid p.undo 0, p.u)

/-- The banks of the node table. -/
def State.banks (s : State) : List UInt16 :=
  (List.range s.srvs.nodes.size).tail.map UInt16.ofNat

/-- `commit_dividends`; `none` is the exit on an unreadable account. Dividends are paid
in the second half of a period. -/
def commitDividends (env : Env) (s : State) : Option State :=
  if s.srvs.now / blockSec % blockDiv < blockDiv / 2 then some s
  else (s.banks.foldlM (dividendBank env) (s, env.junk)).map Prod.fst

/-- The parts of a deposit key. Block-level deposits carry a mark above the bank and do
not count towards the bank's profit. -/
def depositUser (key : UInt64) : UInt32 := UInt32.ofNat key.toNat

def depositBank (key : UInt64) : UInt16 := UInt16.ofNat (key.toNat / 2 ^ 32)

def depositMarked (key : UInt64) : Bool := key.toNat / 2 ^ 48 % 2 = 1

@[simp] theorem depositUser_depositKey (bank : UInt16) (user : UInt32) :
    depositUser (depositKey bank user) = user := by
  apply UInt32.toNat_inj.mp
  have hb := bank.toNat_lt
  have hu := user.toNat_lt
  rw [depositUser, UInt32.toNat_ofNat', depositKey, UInt64.toNat_ofNat']
  omega

@[simp] theorem depositBank_depositKey (bank : UInt16) (user : UInt32) :
    depositBank (depositKey bank user) = bank := by
  apply UInt16.toNat_inj.mp
  have hb := bank.toNat_lt
  have hu := user.toNat_lt
  rw [depositBank, UInt16.toNat_ofNat', depositKey, UInt64.toNat_ofNat']
  omega

/-- Variables of the loop over the deposits. -/
structure DepositPass extends Pass where
  lastsvid : UInt16 := 0

/-- Save the collected records when the next deposit is for another bank. -/
def DepositPass.enter (p : DepositPass) (svid : UInt16) : DepositPass :=
  if svid = p.lastsvid then p
  else { p with s := p.s.saveUndo p.lastsvid p.undo 0, undo := ∅, lastsvid := svid }

/-- One deposit; a zero entry is skipped. -/
def depositStep (env : Env) (p : DepositPass) (key : UInt64) (dep : Int64) : DepositPass :=
  if dep = 0 then p
  else
    let user := depositUser key
    let svid := depositBank key
    let p := p.enter svid
    let ou := readUser (p.s.usr svid) user p.u
    let (div, u, fee) := dividend p.s.srvs ou 0
    let s := (p.s.logDividend svid user div).addFee svid (bankProfit fee)
    let s := if depositMarked key then s else s.addFee svid (bankProfit (txsLngFee dep))
    let u := { u with weight := u.weight + dep, rpath := s.srvs.now }
    let s := s.callOffice env svid fun o => { o with deposits := o.deposits ++ [(user, dep)] }
    { p with
      s := s.bookUser env svid user u (dep + paid div) writeTail
      u := userCsum env.sha256 u svid user
      undo := p.undo.insertIfNew user ou }

/-- `commit_deposit`. -/
def commitDeposit (env : Env) (s : State) : State :=
  let p := s.deposit.foldl (depositStep env) { s := s, u := env.junk }
  let s := if p.lastsvid = 0 then p.s else p.s.saveUndo p.lastsvid p.undo 0
  { s with deposit := ∅ }

/-- The nodes that share their profit: those with the highest profit. -/
def sharingNodes (s : State) : List UInt16 :=
  (s.banks.insertionSort fun i j => s.bankFee.get j.toNat ≤ s.bankFee.get i.toNat).take
    sharedProfitNodes

/-- The nodes that receive shared profit, with repetition: VIP nodes, and those sharing
nodes that are not closed and have been active. -/
def receivingNodes (s : State) : List UInt16 :=
  (s.banks.filter fun i => hasBit (s.srvs.node i).status serverVip) ++
    (sharingNodes s).filter fun i =>
      !hasBit (s.srvs.node i).status serverDbl &&
        !(0 < (s.srvs.node i).mtim && (s.srvs.node i).mtim < s.srvs.now - blockDiv * blockSec)

/-- What each receiving node gets. -/
def bankFeeShare (s : State) : Int64 :=
  let sum := (sharingNodes s).foldl (fun sum i => sum + s.bankFee.get i.toNat) 0
  let sum := if sum < 0 then 0 else sum
  sharedProfit (sum / Int64.ofNat (receivingNodes s).length)

/-- `net_fee_share` of a bank. -/
def netFeeShare (s : State) (sharing receiving : List UInt16) (share : Int64) (svid : UInt16) :
    Int64 :=
  (if svid ∈ sharing then -sharedProfit (s.bankFee.get svid.toNat) else 0) +
    share * Int64.ofNat (receiving.count svid)

/-- Give or take the shared part of the profit of a bank, then book the profit of the
block on account 0. A loss is limited by its balance. -/
def bankfeeStep (env : Env) (sharing receiving : List UInt16) (share : Int64) (acc : State × User)
    (svid : UInt16) : State × User :=
  let (s, buf) := acc
  let s := s.addFee svid (netFeeShare s sharing receiving share svid)
  let ou := readUser (s.usr svid) 0 buf
  let (div, u, fee) := dividend s.srvs ou 0
  let s := (s.logDividend svid 0 div).addFee svid (bankProfit fee)
  let profit := s.bankFee.get svid.toNat - bankUserFee (s.srvs.node svid).users
  let profit := if profit < -u.weight then -u.weight else profit
  let u := { u with weight := u.weight + profit, rpath := s.srvs.now }
  let s := s.callOffice env svid fun o => { o with deposits := o.deposits ++ [(0, profit)] }
  let s := s.bookUser env svid 0 u (profit + paid div) writeTail
  (s.saveUndo svid ((∅ : Map UInt32 User).insert 0 ou) 0, userCsum env.sha256 u svid 0)

/-- `commit_bankfee`; without a receiving node the division fails. -/
def commitBankfee (env : Env) (s : State) : Option State :=
  if receivingNodes s = [] then none
  else
    let s' := (s.banks.foldl
      (bankfeeStep env (sharingNodes s) (receivingNodes s) (bankFeeShare s)) (s, env.junk)).1
    some { s' with bankFee := Table.empty.resize s'.bankFee.size }

end Esc
