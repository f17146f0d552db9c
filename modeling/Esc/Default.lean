import Esc.Lib.Map
import Esc.Lib.Table
import Esc.Lib.Word

/-!
# Protocol constants and packed records

Constants and fee schedules of the release configuration, the account record, and
the small records that the block maps hold. A 32-byte value is one 256-bit word,
so the four-word exclusive or of the checksums is the exclusive or of words.
-/

namespace Esc

open Lib

/-- A 32-byte value: a SHA-256 digest, a public or secret key. -/
abbrev Hash := BitVec 256

/-- A 64-byte ed25519 signature. -/
abbrev Signature := BitVec 512

def blockSec : UInt32 := 512
def blockDiv : UInt32 := 2048
def lockTime : UInt32 := blockDiv * blockSec
def accountInactiveAge : UInt32 := 365 * 24 * 3600
def accountDormantAge : UInt32 := 2 * 365 * 24 * 3600

/-- Compared in 64-bit arithmetic, unlike the other ages. -/
def userMinAge : Int := 512 * 10000
def bankMinMtime : Int := 512 * 1000

def totalMass : Int64 := 3875820600000000000
def vipMax : Nat := 31
def bankMax : Nat := 0xffff
def sharedProfitNodes : Nat := 100
def maxBroadcastLength : UInt16 := 32000

def userStatDeleted : UInt16 := 1

def txsMinFee : Int64 := 10000
def txsDivFee : Int64 := 20000000
def txsKeyFee : Int64 := 10000000
def txsBroFee (x : Int64) : Int64 := if x < 32 then txsMinFee else txsMinFee + 1000 * (x - 32)
def txsPutFee (x : Int64) : Int64 := x / 2000
def txsLngFee (x : Int64) : Int64 := x / 2000
def txsMptFee (x : Int64) : Int64 := x / 2000
def txsMinMptFee (n : Int64) : Int64 := if n < 10 then 10000 else 1000 * n
def txsGetFee : Int64 := 1000000
def txsGokFee (x : Int64) : Int64 := x / 1000
def txsUsrFee : Int64 := 100000000
def txsRusFee : Int64 := 100000000
def txsSusFee : Int64 := 10000000
def txsSbsFee : Int64 := 10000000
def txsUusFee : Int64 := 10000000
def txsUbsFee : Int64 := 10000000
def txsSavFee : Int64 := 10000000
def txsBnkFee : Int64 := 100000000000000
def txsBkyFee : Int64 := 10000000000

def userMinMass : Int64 := 20000000
def bankMinUmass : Int64 := 100000000000
def bankMinTmass : Int64 := 0
def bankProfit (x : Int64) : Int64 := x / 5
def bankUserFee (users : UInt32) : Int64 := 1000 * Int64.ofNat users.toNat
def messageFee (len : Nat) : Int64 := 4096 + Int64.ofNat len
def sharedProfit (x : Int64) : Int64 := x / 5 * 2

def serverDbl : UInt32 := 0x1
def serverVip : UInt32 := 0x2
def serverUno : UInt32 := 0x4

/-- Test of one status bit. -/
def hasBit (status bit : UInt32) : Bool := status &&& bit != 0

/-- Little-endian bytes of a value of `n` bytes. -/
def bytesLE (n v : Nat) : List UInt8 := (List.range n).map fun i => UInt8.ofNat (v / 256 ^ i)

@[simp] theorem length_bytesLE (n v : Nat) : (bytesLE n v).length = n := by simp [bytesLE]

/-- The account record `user_t`. -/
structure User where
  msid : UInt32 := 0
  time : UInt32 := 0
  pkey : Hash := 0
  hash : Hash := 0
  lpath : UInt32 := 0
  user : UInt32 := 0
  node : UInt16 := 0
  stat : UInt16 := 0
  rpath : UInt32 := 0
  weight : Int64 := 0
  csum : Hash := 0
deriving DecidableEq, Repr

/-- The all-zero record, which is also what a cleared buffer holds. -/
instance : Inhabited User := ⟨{}⟩

/-- The bytes of the record before its checksum, in memory order. -/
def User.bytes (u : User) : List UInt8 :=
  bytesLE 4 u.msid.toNat ++ bytesLE 4 u.time.toNat ++ bytesLE 32 u.pkey.toNat ++
    bytesLE 32 u.hash.toNat ++ bytesLE 4 u.lpath.toNat ++ bytesLE 4 u.user.toNat ++
    bytesLE 2 u.node.toNat ++ bytesLE 2 u.stat.toNat ++ bytesLE 4 u.rpath.toNat ++
    bytesLE 8 u.weight.toUInt64.toNat

/-- `dsu_t`: what a message does to a local account besides its own transactions. -/
structure Dsu where
  deposit : Int64 := 0
  sus : UInt16 := 0
  uus : UInt16 := 0
deriving DecidableEq, Repr

instance : Inhabited Dsu := ⟨{}⟩

/-- `get_t`: a withdrawal request. -/
structure Get where
  auser : UInt32
  buser : UInt32
  pkey : Hash
deriving DecidableEq, Repr

/-- `usr_t`: a remote account request. -/
structure Usr where
  auser : UInt32
  bbank : UInt16
  pkey : Hash
deriving DecidableEq, Repr

/-- `uok_t`: a remote account confirmation. -/
structure Uok where
  auser : UInt32
  bbank : UInt16
  buser : UInt32
  pkey : Hash
deriving DecidableEq, Repr

/-- `uin_t`: an account request waiting for its confirmation. -/
structure Uin where
  bbank : UInt16
  abank : UInt16
  auser : UInt32
  pkey : Hash
deriving DecidableEq, Repr

/-- `gup_t`: an account update for the office. -/
structure Gup where
  auser : UInt32
  node : UInt16
  user : UInt32
  time : UInt32
  delta : Int64
deriving DecidableEq, Repr

end Esc
