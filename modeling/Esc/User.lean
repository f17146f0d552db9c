import Esc.Default

/-!
# Transactions

`UserTxs` is a transaction as the message loops see it: the fields that parsing
fills in and the payload that the accessor functions read from the buffer behind
them. A transaction type from `INF` on is a client query, never part of a message;
such a type and a buffer that does not parse are both `inf` here, since the loop
answers both with the same rejection.
-/

namespace Esc

/-- Transaction types in the order of their numeric codes. -/
inductive TxsType where
  | non | con | uok | bro | put | mpt | usr | bnk | get | key | bky | sus | sbs | uus | ubs | sav
  | inf
deriving DecidableEq, Repr

/-- One entry of the address buffer of a multiple transfer. -/
structure ToAddress where
  tbank : UInt16
  tuser : UInt32
  tmass : Int64
deriving DecidableEq, Repr

/-- A parsed transaction with its payload. The address buffer of a multiple
transfer holds as many entries as the header announces in `bbank`. -/
structure UserTxs where
  ttype : TxsType
  abank : UInt16 := 0
  auser : UInt32 := 0
  amsid : UInt32 := 0
  ttime : UInt32 := 0
  bbank : UInt16 := 0
  buser : UInt32 := 0
  tmass : Int64 := 0
  /-- Announced length of a placeholder, 24 bits on the wire. -/
  len : BitVec 24 := 0
  /-- Text of a broadcast. -/
  text : List UInt8 := []
  toaddresses : List ToAddress := []
  /-- New account of a local account request, and its key. -/
  nuser : UInt32 := 0
  npkey : Hash := 0
  /-- Key of a confirmed remote account. -/
  upkey : Hash := 0
  /-- New key and replaced node key of a key change. -/
  key : Hash := 0
  opkey : Hash := 0
  /-- Account record appended by the server to a save request. -/
  usr : User := {}
  sig : Signature := 0
  addresses : ttype = .mpt → toaddresses.length = bbank.toNat := by decide
  broadcast : ttype = .bro → text.length = bbank.toNat := by decide
deriving DecidableEq, Repr

/-- Length of the fixed part of a transaction. -/
def txslen : TxsType → Nat
  | .non => 1 + 3
  | .con => 1 + 2 + 4 + 16
  | .uok => 1 + 2 + 4 + 4 + 4 + 2 + 4 + 32
  | .bro => 1 + 2 + 4 + 4 + 4 + 2
  | .put => 1 + 2 + 4 + 4 + 4 + 2 + 4 + 8 + 32
  | .mpt => 1 + 2 + 4 + 4 + 4 + 2
  | .usr => 1 + 2 + 4 + 4 + 4 + 2
  | .bnk => 1 + 2 + 4 + 4 + 4
  | .get => 1 + 2 + 4 + 4 + 4 + 2 + 4
  | .key => 1 + 2 + 4 + 4 + 4 + 32
  | .bky => 1 + 2 + 4 + 4 + 4 + 2 + 32
  | .sus => 1 + 2 + 4 + 4 + 4 + 2 + 4 + 2
  | .sbs => 1 + 2 + 4 + 4 + 4 + 2 + 4
  | .uus => 1 + 2 + 4 + 4 + 4 + 2 + 4 + 2
  | .ubs => 1 + 2 + 4 + 4 + 4 + 2 + 4
  | .sav => 1 + 2 + 4 + 4 + 4
  | .inf => 1 + 2 + 4 + 2 + 4 + 4

/-- Size on the network, with signature and appended data. -/
def UserTxs.size (t : UserTxs) : Nat :=
  match t.ttype with
  | .non => max 4 t.len.toNat
  | .con => txslen .con
  | .uok => txslen .uok
  | .sav => txslen .sav + 64 + 128
  | .bky => txslen .bky + 64 + 32
  | .usr => txslen .usr + 64 + 4 + 32
  | .bro => txslen .bro + 64 + t.bbank.toNat
  | .mpt => txslen .mpt + 64 + t.bbank.toNat * (6 + 8)
  | ty => txslen ty + 64

end Esc
