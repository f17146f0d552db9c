import Esc.User

/-!
# Nodes, account files and block state

The node table of a block and the functions of `servers` that the transaction
loops call. `Accounts` is the part of a bank that `put_user` touches: its user
count, its changed bits and its account file. SHA-256 is a parameter; the byte
strings that it is applied to are the source's.
-/

namespace Esc

open Lib

/-- One entry of the node table. Bit `i` of `changed` is entry `i`. -/
structure Node where
  pk : Hash := 0
  hash : Hash := 0
  msha : Hash := 0
  msid : UInt32 := 0
  mtim : UInt32 := 0
  weight : Int64 := 0
  status : UInt32 := 0
  users : UInt32 := 0
  port : UInt32 := 0
  ipv4 : UInt32 := 0
  changed : Table Bool := Table.empty

instance : Inhabited Node := ⟨{}⟩

/-- The block state `servers`, as far as transactions read it. -/
structure Servers where
  now : UInt32 := 0
  div : UInt32 := 0
  /-- Number of VIP nodes. -/
  vtot : UInt16 := 0
  nodes : Table Node := Table.empty

/-- The node table entry of a bank. -/
def Servers.node (v : Servers) (svid : UInt16) : Node := v.nodes.get svid.toNat

/-- Start of the dividend period: the value that `nextblock` returned when it set
the present block time. -/
def Servers.periodStart (v : Servers) : UInt32 :=
  v.now - v.now / blockSec % blockDiv * blockSec

/-- User count, changed bits and account file of one bank. -/
structure Accounts where
  users : UInt32
  changed : Table Bool
  file : Table User

/-- A read of one record into a buffer, which keeps its content past the end. -/
def readUser (file : Table User) (uid : UInt32) (u : User) : User :=
  (file.read? uid.toNat).getD u

/-- Reading into a cleared buffer is total lookup. -/
theorem readUser_default (file : Table User) (uid : UInt32) :
    readUser file uid default = file.get uid.toNat := by
  unfold readUser Table.read?
  split
  · rfl
  · rename_i h
    exact (file.beyond _ (Nat.not_lt.mp h)).symm

theorem readUser_of_lt {file : Table User} {uid : UInt32} (h : uid.toNat < file.size) (u : User) :
    readUser file uid u = file.get uid.toNat := by
  simp [readUser, Table.read?, h]

section Hashing

variable (sha256 : List UInt8 → Hash)

/-- The checksum of an account record in its place. -/
def csumOf (u : User) (peer : UInt16) (uid : UInt32) : Hash :=
  sha256 (u.bytes ++ bytesLE 2 peer.toNat ++ bytesLE 4 uid.toNat)

def userCsum (u : User) (peer : UInt16) (uid : UInt32) : User :=
  { u with csum := csumOf sha256 u peer uid }

/-- The initial hash of an account; `msha` is the message hash of node 0. -/
def initUserHash (msha : Hash) (u : User) : User :=
  { u with
    hash := sha256 (bytesLE 32 msha.toNat ++ bytesLE 2 u.node.toNat ++ bytesLE 4 u.user.toNat ++
      bytesLE 4 u.user.toNat ++ bytesLE 32 u.pkey.toNat) }

def initUser (msha : Hash) (peer : UInt16) (uid : UInt32) (weight : Int64) (pk : Hash)
    (time : UInt32) : User :=
  userCsum sha256 (initUserHash sha256 msha
    { msid := 1, time := time, lpath := time, rpath := time, weight := weight, pkey := pk })
    peer uid

/-- The initial hash of a node. -/
def initNodeHash (msha : Hash) (n : Node) : Node :=
  { n with msha := sha256 (bytesLE 32 msha.toNat ++ bytesLE 32 n.hash.toNat ++
      bytesLE 32 n.pk.toNat) }

@[simp] theorem userCsum_weight (u : User) (peer : UInt16) (uid : UInt32) :
    (userCsum sha256 u peer uid).weight = u.weight := rfl

@[simp] theorem userCsum_lpath (u : User) (peer : UInt16) (uid : UInt32) :
    (userCsum sha256 u peer uid).lpath = u.lpath := rfl

@[simp] theorem userCsum_rpath (u : User) (peer : UInt16) (uid : UInt32) :
    (userCsum sha256 u peer uid).rpath = u.rpath := rfl

@[simp] theorem csumOf_userCsum (u : User) (peer peer' : UInt16) (uid uid' : UInt32) :
    csumOf sha256 (userCsum sha256 u peer uid) peer' uid' = csumOf sha256 u peer' uid' := rfl

@[simp] theorem initUser_weight (msha : Hash) (peer : UInt16) (uid : UInt32) (weight : Int64)
    (pk : Hash) (time : UInt32) :
    (initUser sha256 msha peer uid weight pk time).weight = weight := rfl

@[simp] theorem initUser_rpath (msha : Hash) (peer : UInt16) (uid : UInt32) (weight : Int64)
    (pk : Hash) (time : UInt32) :
    (initUser sha256 msha peer uid weight pk time).rpath = time := rfl

end Hashing

/-- Write a record to the account file; a record past the end extends the bank. -/
def Accounts.putUser (a : Accounts) (u : User) (uid : UInt32) : Accounts where
  file := a.file.write uid.toNat u
  users := if a.users ≤ uid then uid + 1 else a.users
  changed := if a.users ≤ uid then a.changed.resize (64 * (1 + uid.toNat / 64)) else a.changed

/-- One record of the block undo file: only the first version in a block is kept. -/
def saveUndoUser (acc : Table Bool × Table User) (uid : UInt32) (u : User) :
    Table Bool × Table User :=
  if acc.1.get uid.toNat then acc
  else (acc.1.set uid.toNat true, acc.2.write uid.toNat u)

/-- `servers::save_undo`: the user count and changed bits of the node, and the block
undo file of its bank. -/
def saveUndo (n : Node) (und : Table User) (undo : Map UInt32 User) (users : UInt32) :
    Node × Table User :=
  let n := if n.users ≤ users then
      { n with users := users, changed := n.changed.resize (64 * (1 + users.toNat / 64)) }
    else n
  let acc := undo.foldl saveUndoUser (n.changed, und)
  ({ n with changed := acc.1 }, acc.2)

/-- Besides the changed bits, saving undo records touches only the user count,
which it can only raise. -/
theorem saveUndo_node (n : Node) (und : Table User) (undo : Map UInt32 User) (users : UInt32) :
    (saveUndo n und undo users).1 =
      { n with
        users := if n.users ≤ users then users else n.users
        changed := (saveUndo n und undo users).1.changed } := by
  unfold saveUndo
  split <;> rfl

/-- `period_start` never lies in the future. -/
theorem Servers.periodStart_le (v : Servers) : v.periodStart ≤ v.now := by
  have hdiv : v.now.toNat / 512 % 2048 * 512 ≤ v.now.toNat :=
    le_trans (Nat.mul_le_mul_right _ (Nat.mod_le _ _)) (Nat.div_mul_le_self _ _)
  have hlt := v.now.toNat_lt
  rw [UInt32.le_iff_toNat_le]
  unfold Servers.periodStart blockSec blockDiv
  have hmul : (v.now / 512 % 2048 * 512).toNat = v.now.toNat / 512 % 2048 * 512 := by
    rw [UInt32.toNat_mul, UInt32.toNat_mod, UInt32.toNat_div]
    exact Nat.mod_eq_of_lt (lt_of_le_of_lt hdiv hlt)
  rw [UInt32.toNat_sub_of_le]
  · exact Nat.sub_le _ _
  · rw [UInt32.le_iff_toNat_le, hmul]
    exact hdiv

end Esc
