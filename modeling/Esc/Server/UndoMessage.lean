import Esc.Server.ProcessMessage

/-!
# Undoing a message

`undo_message` parses the message again, rebuilds the effects of its transactions
on the deposits, the node keys and the block maps, takes these back and restores
the rest from the undo file of the message. A missing undo file, a missing secret
key or an unexpected transaction type ends the program.
-/

namespace Esc

open Lib

/-- The state and the local variables of the loop that takes back transactions. -/
structure Undo where
  s : State
  txsDeposit : Map UInt64 Int64 := ∅
  oldBky : List UInt16 := []
  tmpos : UInt32 := 0

/-- Key of the present transaction in the block maps. -/
def Undo.ppb (u : Undo) (msg : Message) (bbank : UInt16) : UInt64 :=
  makePpi u.tmpos (u.s.last.node msg.svid).msid msg.msid msg.svid bbank

/-- Collect an amount sent to another bank; it is subtracted at the end. -/
def Undo.debit (u : Undo) (abank bank : UInt16) (user : UInt32) (mass : Int64) : Undo :=
  if bank = abank then u
  else { u with txsDeposit := u.txsDeposit.adjust (depositKey bank user) (· + mass) }

/-- Change the block maps. -/
def Undo.modifyBlk (u : Undo) (f : Requests → Requests) : Undo :=
  { u with s := { u.s with blk := f u.s.blk } }

/-- Give a node the key back that it had before its first key change of the message. -/
def Undo.restoreKey (env : Env) (u : Undo) (t : UserTxs) (node : UInt16) : Option Undo :=
  let s := u.s.modifyNode node fun n => { n with pk := t.opkey }
  let oldBky := node :: u.oldBky
  if node = env.svid ∧ t.bbank ≠ 0 then
    (env.findKey t.opkey).map fun skey =>
      { u with
        s := { s with
          pkey := t.opkey
          skey := skey
          office := { s.office with pkey := t.opkey } }
        oldBky := oldBky }
  else some { u with s := s, oldBky := oldBky }

/-- Take back a node key change. -/
def undoBky (env : Env) (msg : Message) (u : Undo) (t : UserTxs) : Option Undo :=
  let node := bkyNode u.s msg.svid t
  if node = 0 then some u
  else do
    let u ← if node ∈ u.oldBky then some u else u.restoreKey env t node
    return { u with s := { u.s with blkBky := u.s.blkBky.erase (u.ppb msg node) } }

/-- One iteration of the loop over the transactions. -/
def undoTx (env : Env) (msg : Message) (u : Undo) (t : UserTxs) : Option Undo :=
  let u := { u with tmpos := u.tmpos + 1 }
  let own := u.ppb msg msg.svid
  let other := u.ppb msg t.bbank
  match t.ttype with
  | .inf => none
  | .put => some (u.debit t.abank t.bbank t.buser t.tmass)
  | .mpt =>
      some (t.toaddresses.foldl (fun u a => u.debit t.abank a.tbank a.tuser a.tmass) u)
  | .bky => undoBky env msg u t
  | .bnk => some (u.modifyBlk fun r => { r with bnk := r.bnk.erase own })
  | .get => some (u.modifyBlk fun r => { r with get := r.get.erase other })
  | .usr => some (u.modifyBlk fun r => { r with usr := r.usr.erase own })
  | .uok => some (u.modifyBlk fun r => { r with uok := r.uok.erase own })
  | .sbs => some (u.modifyBlk fun r => { r with sbs := r.sbs.erase other })
  | .ubs => some (u.modifyBlk fun r => { r with ubs := r.ubs.erase other })
  | _ => some u

/-- Restore node, profit and accounts from the undo file. A user count of zero in the
file stands for no change. -/
def MessageUndo.restore (m : MessageUndo) (s : State) (msg : Message) : State :=
  { (s.modifyNode msg.svid fun n =>
        { n with
          weight := n.weight - m.weight
          hash := n.hash ^^^ m.csum
          msid := msg.msid - 1
          msha := m.msha
          mtim := m.mtim
          users := if m.users = 0 then n.users else m.users }).setFile msg.svid
      ((s.usr msg.svid).writeAll UInt32.toNat m.undo) with
    bankFee := s.bankFee.modify msg.svid.toNat (· - m.fee) }

/-- `undo_message`; `none` is the end of the program. -/
def undoMessage (env : Env) (s : State) (msg : Message) : Option State := do
  let u ← msg.txs.foldlM (undoTx env msg) { s := s }
  let s := { u.s with deposit := u.s.deposit.merge (· - ·) u.txsDeposit }
  let m ← s.msgUndo msg.svid msg.msid
  return m.restore s msg

/-- A message as the validator processes it: it must be the next one of its node, and
when it is accepted the node takes its number, time and hash. -/
def validate (env : Env) (s : State) (msg : Message) : Option State :=
  if (s.srvs.node msg.svid).msid ≥ msg.msid ∨ (s.srvs.node msg.svid).msid ≠ msg.msid - 1 then none
  else
    match processMessage env s msg with
    | .accept s' _ =>
        some (s'.modifyNode msg.svid fun n =>
          { n with msid := msg.msid, mtim := msg.now, msha := msg.sigh })
    | _ => none

end Esc
