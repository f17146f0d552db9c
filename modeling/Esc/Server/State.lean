import Esc.Servers

/-!
# Messages and the server state

A node message with its transactions, the undo record that processing it leaves
behind, and the part of the server that the ledger functions read and write. The
office appears as the record of the calls that the server makes on it.

The keys of the block maps and of the deposit map pack several fields in one
64-bit word, lowest field first.
-/

namespace Esc

open Lib

/-- A node message. Its length is fixed by its transactions, which follow the
78-byte header without a gap, and has 24 bits on the wire. -/
structure Message where
  svid : UInt16
  msid : UInt32
  now : UInt32
  path : UInt32 := 0
  sigh : Hash := 0
  /-- The validated flag of the message status. -/
  val : Bool := false
  txs : List UserTxs
  bounded : 78 + (txs.map UserTxs.size).sum < 2 ^ 24 := by decide
deriving DecidableEq

def Message.len (m : Message) : Nat := 78 + (m.txs.map UserTxs.size).sum

/-- What `message::save_undo` writes. -/
structure MessageUndo where
  csum : Hash
  weight : Int64
  fee : Int64
  msha : Hash
  mtim : UInt32
  undo : Map UInt32 User
  users : UInt32

/-- One entry of the broadcast log. -/
structure Broadcast where
  path : UInt32
  txs : UserTxs
  hash : Hash
  pkey : Hash
  msid : UInt32
  mpos : UInt32
deriving DecidableEq

/-- The server's view of its office: the node key it holds and the calls made on
it. -/
structure Office where
  pkey : Hash := 0
  /-- Accounts that the office was asked to create for a remote bank. -/
  remoteUsers : List (UInt16 × UInt32 × Hash) := []
  deposits : List (UInt32 × Int64) := []
  deletedUsers : List UInt32 := []
  gup : List Gup := []
deriving DecidableEq

/-- The six maps that collect the block-level transactions of a message, and of a
block. -/
structure Requests where
  bnk : Map UInt64 UInt32 := ∅
  get : Map UInt64 Get := ∅
  usr : Map UInt64 Usr := ∅
  uok : Map UInt64 Uok := ∅
  sbs : Map UInt64 UInt32 := ∅
  ubs : Map UInt64 UInt32 := ∅

/-- Insert the requests of a message into those of the block; entries that the block
already has stay. -/
def Requests.insert (blk txs : Requests) : Requests where
  bnk := txs.bnk ∪ blk.bnk
  get := txs.get ∪ blk.get
  usr := txs.usr ∪ blk.usr
  uok := txs.uok ∪ blk.uok
  sbs := txs.sbs ∪ blk.sbs
  ubs := txs.ubs ∪ blk.ubs

/-- One signature of the batch that is checked at the end of a message. -/
structure SignItem where
  hash : Hash
  txs : UserTxs
  pkey : Hash
deriving DecidableEq

/-- A dividend paid to an account. -/
structure Dividend where
  bank : UInt16
  user : UInt32
  amount : Int64
deriving DecidableEq

/-- The fixed surroundings of the server: its own node id, the hash and signature
functions, the key file, and the content of a fresh stack buffer. -/
structure Env where
  svid : UInt16
  sha256 : List UInt8 → Hash
  signOpenBatch2 : List SignItem → Bool
  findKey : Hash → Option Hash
  junk : User

/-- The ledger part of the server. -/
structure State where
  /-- The block in progress. -/
  srvs : Servers
  /-- The last finished block. -/
  last : Servers
  /-- Account files. -/
  usr : UInt16 → Table User
  /-- Undo files of a block, one for each bank. -/
  und : UInt32 → UInt16 → Table User := fun _ _ => Table.empty
  /-- Undo files of single messages. -/
  msgUndo : UInt16 → UInt32 → Option MessageUndo := fun _ _ => none
  bro : List Broadcast := []
  deposit : Map UInt64 Int64 := ∅
  bankFee : Table Int64 := Table.empty
  blkBky : Map UInt64 UInt16 := ∅
  blk : Requests := {}
  pkey : Hash := 0
  skey : Hash := 0
  office : Office := {}
  doSync : Bool := false
  iamvip : Bool := false
  startPath : UInt32 := 0
  /-- The dividends paid so far, latest first. The source keeps no such record. -/
  dividends : List Dividend := []

/-- User count, changed bits and file of a bank. -/
def State.accounts (s : State) (svid : UInt16) : Accounts where
  users := (s.srvs.node svid).users
  changed := (s.srvs.node svid).changed
  file := s.usr svid

/-- Update one entry of the node table. -/
def State.modifyNode (s : State) (svid : UInt16) (f : Node → Node) : State :=
  { s with srvs := { s.srvs with nodes := s.srvs.nodes.modify svid.toNat f } }

@[simp] theorem State.node_modifyNode (s : State) (svid : UInt16) (f : Node → Node)
    (h : svid.toNat < s.srvs.nodes.size) :
    (s.modifyNode svid f).srvs.node svid = f (s.srvs.node svid) :=
  Table.get_modify_self _ _ h

theorem State.node_modifyNode_ne (s : State) {svid b : UInt16} (f : Node → Node) (h : b ≠ svid) :
    (s.modifyNode svid f).srvs.node b = s.srvs.node b :=
  Table.get_modify_ne _ _ fun hb => h (UInt16.toNat_inj.mp hb)

/-- Replace one account file. -/
def State.setFile (s : State) (svid : UInt16) (file : Table User) : State :=
  { s with usr := Function.update s.usr svid file }

/-- `servers::save_undo` on the state. -/
def State.saveUndo (s : State) (svid : UInt16) (undo : Map UInt32 User) (users : UInt32) : State :=
  let und := Esc.saveUndo (s.srvs.node svid) (s.und s.srvs.now svid) undo users
  { s.modifyNode svid fun _ => und.1 with
    und := Function.update s.und s.srvs.now
      (Function.update (s.und s.srvs.now) svid und.2) }

/-- Key of a transaction in the block maps. -/
def makePpi (tmpos omsid amsid : UInt32) (abank bbank : UInt16) : UInt64 :=
  UInt64.ofNat (tmpos.toNat % 2 ^ 16 + 2 ^ 16 * ((amsid - omsid).toNat % 2 ^ 16) +
    2 ^ 32 * abank.toNat + 2 ^ 48 * bbank.toNat)

def ppiAbank (ppi : UInt64) : UInt16 := UInt16.ofNat (ppi.toNat / 2 ^ 32)

def ppiBbank (ppi : UInt64) : UInt16 := UInt16.ofNat (ppi.toNat / 2 ^ 48)

/-- Key of an account in the deposit map. -/
def depositKey (bank : UInt16) (user : UInt32) : UInt64 :=
  UInt64.ofNat (user.toNat + 2 ^ 32 * bank.toNat)

private theorem toNat_ofNat_lt {n : Nat} (h : n < 2 ^ 64) : (UInt64.ofNat n).toNat = n := by
  rw [UInt64.toNat_ofNat']
  exact Nat.mod_eq_of_lt h

theorem toNat_makePpi (tmpos omsid amsid : UInt32) (abank bbank : UInt16) :
    (makePpi tmpos omsid amsid abank bbank).toNat =
      tmpos.toNat % 2 ^ 16 + 2 ^ 16 * ((amsid - omsid).toNat % 2 ^ 16) +
        2 ^ 32 * abank.toNat + 2 ^ 48 * bbank.toNat := by
  have ha := abank.toNat_lt
  have hb := bbank.toNat_lt
  exact toNat_ofNat_lt (by omega)

@[simp] theorem ppiAbank_makePpi (tmpos omsid amsid : UInt32) (abank bbank : UInt16) :
    ppiAbank (makePpi tmpos omsid amsid abank bbank) = abank := by
  have ha := abank.toNat_lt
  apply UInt16.toNat_inj.mp
  unfold ppiAbank
  rw [UInt16.toNat_ofNat', toNat_makePpi]
  omega

@[simp] theorem ppiBbank_makePpi (tmpos omsid amsid : UInt32) (abank bbank : UInt16) :
    ppiBbank (makePpi tmpos omsid amsid abank bbank) = bbank := by
  have ha := abank.toNat_lt
  have hb := bbank.toNat_lt
  apply UInt16.toNat_inj.mp
  unfold ppiBbank
  rw [UInt16.toNat_ofNat', toNat_makePpi]
  omega

end Esc
