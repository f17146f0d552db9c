import Esc.Server.Commits

/-!
# The block-level transactions

`commit_block` carries out what the messages of a block requested: it pairs remote
account requests with their confirmations, applies the node status votes, creates
banks and moves withdrawn funds. The logs and the hash of the block history, which
goes to node 0, are left out.
-/

namespace Esc

open Lib

/-- Key of a block-level deposit, which does not count towards the bank's profit. -/
def markedKey (bank : UInt16) (user : UInt32) : UInt64 :=
  UInt64.ofNat (user.toNat + 2 ^ 32 * (bank.toNat + 2 ^ 16))

/-- Add a block-level deposit. -/
def State.addDeposit (s : State) (bank : UInt16) (user : UInt32) (mass : Int64) : State :=
  { s with deposit := s.deposit.adjust (markedKey bank user) (· + mass) }

/-- The account requests that wait for a confirmation. -/
def waiting (usr : Map UInt64 Usr) : List Uin :=
  usr.toList.map fun p =>
    { bbank := p.2.bbank, abank := ppiAbank p.1, auser := p.2.auser, pkey := p.2.pkey }

/-- One confirmation: with a waiting request its funds go to the new account. -/
def uokStep (acc : State × List Uin) (key : UInt64) (tx : Uok) : State × List Uin :=
  let (s, uin) := acc
  let abank := ppiAbank key
  let nuin : Uin := { bbank := abank, abank := tx.bbank, auser := tx.buser, pkey := tx.pkey }
  if nuin ∈ uin then
    ((s.addDeposit abank tx.auser userMinMass).addFee abank (bankProfit txsRusFee),
      uin.erase nuin)
  else (s, uin)

/-- Pair requests and confirmations; what is left over goes back. -/
def commitUsers (s : State) : State :=
  let (s, uin) := s.blk.uok.foldl uokStep (s, waiting s.blk.usr)
  uin.foldl (fun s u => s.addDeposit u.abank u.auser userMinMass) s

/-- Nodes with a changed key are open again. -/
def commitKeys (s : State) : State :=
  s.blkBky.foldl (fun s _ node =>
    s.modifyNode node fun n => { n with status := n.status &&& ~~~serverDbl }) s

/-- The bits that have more than `min` votes. -/
def bitcount (bitvotes : List UInt8) (min : UInt8) : UInt8 :=
  if bitvotes.length ≤ min.toNat then 0
  else
    ((List.range 8).filter fun i =>
      min < bitvotes.foldl (fun count b => count + (b >>> UInt8.ofNat i &&& 1)) 0).foldl
        (fun res i => res ||| (1 <<< UInt8.ofNat i)) 0

/-- Variables of the loops over the status votes; the last ballot is the head of the
list. `stray` notes that `back()` was taken of an empty vector. -/
structure Votes where
  s : State
  labank : UInt16 := 0
  lbbank : UInt16 := 0
  bitvotes : List UInt8 := []
  stray : Bool := false

/-- Apply the votes on the present node. -/
def Votes.close (v : Votes) (put : UInt32 → UInt32 → UInt32) : Votes :=
  let bits := bitcount v.bitvotes (UInt8.ofNat (v.s.srvs.vtot.toNat / 2))
  { v with
    s := v.s.modifyNode v.lbbank fun n => { n with status := put n.status (bits.toUInt32 <<< 24) }
    bitvotes := [] }

/-- The votes on another node begin. -/
def Votes.enter (v : Votes) (put : UInt32 → UInt32 → UInt32) (bbank : UInt16) : Votes :=
  if v.lbbank = bbank then v else { v.close put with labank := 0 }

/-- Further votes of a node go into its ballot. -/
def addBallot (labank abank : UInt16) (high : UInt8) : List UInt8 → List UInt8
  | last :: rest => if abank = labank then (last ||| high) :: rest else high :: last :: rest
  | [] => [high]

/-- One vote. A node changes its own low bits, a VIP node the middle ones; the high ones
take a majority. -/
def statusStep (put : UInt32 → UInt32 → UInt32) (v : Votes) (vote : UInt64 × UInt32) : Votes :=
  let abank := ppiAbank vote.1
  let bbank := ppiBbank vote.1
  let status := vote.2
  let v := v.enter put bbank
  let s := if abank = bbank then
      v.s.modifyNode bbank fun n => { n with status := put n.status (status &&& 0xFFF8) }
    else v.s
  if hasBit (s.last.node abank).status serverVip then
    { s := s.modifyNode bbank fun n => { n with status := put n.status (status &&& 0xFF0000) }
      labank := abank
      lbbank := bbank
      bitvotes := addBallot v.labank abank (status >>> 24).toUInt8 v.bitvotes
      stray := v.stray || (abank == v.labank && v.bitvotes.isEmpty) }
  else { v with s := s, labank := abank, lbbank := bbank }

/-- The status requests of one kind, in descending order of their keys. -/
def Votes.count (v : Votes) (put : UInt32 → UInt32 → UInt32) (votes : Map UInt64 UInt32) : Votes :=
  let v := votes.toList.reverse.foldl (statusStep put) v
  if v.lbbank = 0 then v else { v.close put with lbbank := 0 }

/-- The requests to set and to clear bits. The second loop starts with the variables that
the first one leaves. -/
def countVotes (s : State) : Votes :=
  (({ s := s } : Votes).count (· ||| ·) s.blk.sbs).count (fun status bits => status &&& ~~~bits)
    s.blk.ubs

def commitStatus (s : State) : State := (countVotes s).s

/-- `put_user` on the state. -/
def State.putUser (s : State) (peer : UInt16) (uid : UInt32) (u : User) : State :=
  let a := (s.accounts peer).putUser u uid
  (s.modifyNode peer fun n => { n with users := a.users, changed := a.changed }).setFile peer a.file

/-- A new owner for a bank. The weight of the node is not changed. -/
def State.putNode (env : Env) (s : State) (ou : User) (peer : UInt16) : State :=
  let nu := readUser (s.usr peer) 0 {}
  let s := s.modifyNode peer fun n => { n with hash := n.hash ^^^ nu.csum }
  let s := s.saveUndo peer ((∅ : Map UInt32 User).insert 0 nu) 0
  let nu := initUser env.sha256 (s.srvs.node 0).msha peer 0
    (nu.weight + bankMinUmass + bankMinTmass) ou.pkey s.srvs.now
  let s := s.putUser peer 0 nu
  s.modifyNode peer fun n => { n with hash := n.hash ^^^ nu.csum, mtim := s.srvs.now }

/-- The node table with one more entry. -/
def State.pushNode (s : State) (n : Node) : State :=
  { s with srvs := { s.srvs with nodes := s.srvs.nodes.push n } }

/-- A new bank at the end of the node table. -/
def State.addNode (env : Env) (s : State) (ou : User) : State :=
  let peer := UInt16.ofNat s.srvs.nodes.size
  let nn := initNodeHash env.sha256 (s.srvs.node 0).msha { mtim := s.srvs.now, pk := ou.pkey }
  let s := s.pushNode nn
  let nu := initUser env.sha256 (s.srvs.node 0).msha peer 0 (bankMinUmass + bankMinTmass) ou.pkey
    s.srvs.now
  let s := s.putUser peer 0 nu
  let s := s.modifyNode peer fun n => { n with weight := nu.weight, hash := nu.csum }
  { s with bankFee := s.bankFee.resize s.srvs.nodes.size }

/-- Banks that can be taken over, the poorest first. The source counts the banks from
1 and their ids from 0. -/
def newBnk (s : State) : List UInt64 :=
  (s.banks.filterMap fun b =>
    let n := s.srvs.node b
    if (n.mtim.toNat : Int) + bankMinMtime < s.srvs.now.toNat && n.weight ≤ bankMinTmass then
      some (n.weight.toUInt64 <<< 16 ||| (b - 1).toUInt64)
    else none).insertionSort (· ≤ ·)

/-- One request for a bank: take one over, add one, or send the funds back. -/
def bnkStep (env : Env) (acc : State × List UInt64) (key : UInt64) (auser : UInt32) :
    State × List UInt64 :=
  let (s, free) := acc
  let abank := ppiAbank key
  let u := readUser (s.usr abank) auser env.junk
  match free with
  | bi :: rest => (s.putNode env u bi.toUInt16, rest)
  | [] =>
      if s.srvs.nodes.size < bankMax - 1 then (s.addNode env u, [])
      else (s.addDeposit abank auser (bankMinUmass + bankMinTmass), [])

def commitBanks (env : Env) (s : State) : State := (s.blk.bnk.foldl (bnkStep env) (s, newBnk s)).1

/-- Variables of the loop over the withdrawals. -/
structure GetPass where
  s : State
  svid : UInt16 := 0
  undo : Map UInt32 User := ∅

/-- Save the collected records when the next withdrawal is from another bank. -/
def GetPass.enter (p : GetPass) (bbank : UInt16) : GetPass :=
  if bbank = p.svid then p
  else { s := p.s.saveUndo p.svid p.undo 0, svid := bbank }

/-- The first request for an account locks it. -/
def lockUser (u : User) (abank : UInt16) (auser now : UInt32) : User :=
  { u with node := abank, user := auser, time := now }

/-- The second one, after the lock time, moves all its funds. -/
def emptyUser (u : User) (now : UInt32) : User := { u with weight := 0, time := now }

/-- Write the record and exchange its checksum in the node hash. -/
def State.rewriteUser (env : Env) (s : State) (bbank : UInt16) (buser : UInt32)
    (u : User) : State :=
  s.bookUser env bbank buser u 0 fun file uid u => file.write (tailIndex file uid) u

/-- The office learns of a lock or a withdrawal of an own account. -/
def State.pushGup (env : Env) (s : State) (bbank : UInt16) (buser : UInt32) (u : User)
    (delta : Int64) : State :=
  s.callOffice env bbank fun o =>
    { o with gup := o.gup ++ [⟨buser, u.node, u.user, u.time, delta⟩] }

/-- One withdrawal; the key of the account proves the right to it. -/
def getStep (env : Env) (p : GetPass) (key : UInt64) (tx : Get) : GetPass :=
  let abank := ppiAbank key
  let bbank := ppiBbank key
  if abank = 0 ∨ bbank = 0 ∨ p.s.srvs.nodes.size ≤ abank.toNat ∨ p.s.srvs.nodes.size ≤ bbank.toNat
  then p
  else
    let p := p.enter bbank
    let ou := readUser (p.s.usr bbank) tx.buser env.junk
    if ou.pkey ≠ tx.pkey ∨ p.s.srvs.now < ou.time + lockTime then p
    else
      let p := { p with undo := p.undo.insertIfNew tx.buser ou }
      let (div, u, fee) := dividend p.s.srvs ou 0
      if u.weight - txsGokFee u.weight ≤ 0 then p
      else
        let s := (p.s.logDividend bbank tx.buser div).addFee bbank (bankProfit fee)
        let s := s.modifyNode bbank fun n => { n with weight := n.weight + paid div }
        if u.node ≠ abank ∨ u.user ≠ tx.auser then
          let u := lockUser u abank tx.auser s.srvs.now
          { p with s := (s.rewriteUser env bbank tx.buser u).pushGup env bbank tx.buser u 0 }
        else
          let delta := u.weight
          let gok := delta - txsGokFee delta
          let s := s.modifyNode bbank fun n => { n with weight := n.weight - delta }
          let s := s.addFee abank (bankProfit (txsLngFee gok))
          let s := s.addDeposit abank tx.auser (gok - txsLngFee gok)
          let u := emptyUser u s.srvs.now
          { p with s := (s.rewriteUser env bbank tx.buser u).pushGup env bbank tx.buser u delta }

def commitGets (env : Env) (s : State) : State :=
  let p := s.blk.get.foldl (getStep env) { s := s }
  if p.svid = 0 then p.s else p.s.saveUndo p.svid p.undo 0

/-- `commit_block`. -/
def commitBlock (env : Env) (s : State) : State :=
  let s := commitUsers s
  let s := commitKeys s
  let s := commitStatus s
  let s := commitBanks env s
  let s := commitGets env s
  { s with blk := {}, blkBky := ∅ }

end Esc
