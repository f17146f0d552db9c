import Esc.Servers
import Esc.User

/-!
# The office

The office keeps its own copy of the accounts of the node, hands out new account
ids and collects the transactions of the next message. `OfficeState` is that state;
its two invariants say that every account has a record and that only existing
accounts wait for reuse, so that reading the file never fails.

The functions of this module are the locked steps of the source: each holds the
file lock for its whole effect.
-/

namespace Esc

open Lib

def maxUsers : UInt32 := 0x8000000
def maxUserQueue : Nat := 10000
def messageTnumMax : Nat := 0xFFF0
def officeUserMinAge : Int := userMinAge * 8

/-- The office of a node. -/
structure OfficeState where
  svid : UInt16
  users : UInt32
  /-- Accounts that may be overwritten, oldest first. -/
  deletedUsers : List UInt32 := []
  /-- The account file. -/
  offifd : Table User
  /-- The node key. -/
  pkey : Hash := 0
  /-- The transactions of the message in preparation. -/
  message : List UserTxs := []
  messageTnum : Nat := 0
  /-- Remote requests answered so far, by key. -/
  accounts : List (Hash × UInt32) := []
  run : Bool := true
  readonly : Bool := false
  onFile : users.toNat ≤ offifd.size
  deleted : ∀ uid ∈ deletedUsers, uid < users

/-- The surroundings of one command: hash function, signature check, the last
finished block, the accounts of other nodes, the key file, the clock, and whether the
message file opens. -/
structure OfficeEnv where
  sha256 : List UInt8 → Hash
  checkSignature : UserTxs → Hash → Hash → Bool
  last : Servers
  getUserGlobal : UInt16 → UInt32 → Option User
  findKey : Hash → Bool
  time : UInt32
  opens : Bool

namespace OfficeState

/-- The record of an account. -/
def user (o : OfficeState) (uid : UInt32) : User := o.offifd.get uid.toNat

/-- Write a record over an existing one. -/
def putUser (o : OfficeState) (uid : UInt32) (u : User) : OfficeState where
  __ := o
  offifd := o.offifd.set uid.toNat u
  onFile := o.onFile

/-- The account was deleted, is nearly empty and old enough. -/
def reusable (o : OfficeState) (time : UInt32) (uid : UInt32) : Bool :=
  (o.user uid).weight ≤ txsDivFee && (o.user uid).stat &&& userStatDeleted != 0 &&
    decide (((o.user uid).lpath.toNat : Int) < time.toNat - officeUserMinAge)

/-- The deleted accounts that are left when those that may not be overwritten have
been taken from the front. -/
def queue (o : OfficeState) (time : UInt32) : List UInt32 :=
  o.deletedUsers.dropWhile fun uid => !o.reusable time uid

theorem mem_of_mem_queue {o : OfficeState} {time uid : UInt32} (h : uid ∈ o.queue time) :
    uid ∈ o.deletedUsers :=
  (List.dropWhile_sublist _).subset h

theorem toNat_add_one_of_lt_maxUsers {n : UInt32} (h : n < maxUsers) :
    (n + 1).toNat = n.toNat + 1 := by
  have hlt : n.toNat < 0x8000000 := UInt32.lt_iff_toNat_lt.mp h
  simp only [UInt32.toNat_add, UInt32.reduceToNat]
  omega

/-- A new account past the last one. -/
def grow (o : OfficeState) (u : User) (h : o.users < maxUsers) : OfficeState where
  __ := o
  users := o.users + 1
  deletedUsers := []
  offifd := o.offifd.write o.users.toNat u
  onFile := by
    rw [toNat_add_one_of_lt_maxUsers h]
    exact le_max_right _ _
  deleted := by simp

/-- A new account in the place of the first deleted one that may be overwritten. -/
def reuse (o : OfficeState) (u : User) {time nuser : UInt32} {rest : List UInt32}
    (h : o.queue time = nuser :: rest) : OfficeState :=
  { o.putUser nuser u with
    deletedUsers := rest
    deleted := fun _ hmem => o.deleted _ (mem_of_mem_queue (h ▸ List.mem_cons_of_mem _ hmem)) }

/-- The first record of an account; only local requests bring funds. -/
def newUser (env : OfficeEnv) (o : OfficeState) (abank : UInt16) (pk : Hash) (time : UInt32)
    (uid : UInt32) : User :=
  initUser env.sha256 (env.last.node 0).msha o.svid uid
    (if abank = o.svid then userMinMass else 0) pk time

/-- Take a new account id and write its first record: a deleted account that may be
overwritten, else the next id. The id is 0 when there is none. -/
def addUser (env : OfficeEnv) (o : OfficeState) (abank : UInt16) (pk : Hash) (time : UInt32) :
    UInt32 × OfficeState :=
  match h : o.queue time with
  | nuser :: _ => (nuser, o.reuse (o.newUser env abank pk time nuser) h)
  | [] =>
      if hmax : o.users < maxUsers then
        (o.users, o.grow (o.newUser env abank pk time o.users) hmax)
      else (0, { o with deletedUsers := [], deleted := by simp })

section AddUser

variable {env : OfficeEnv} {o : OfficeState} {abank : UInt16} {pk : Hash} {time nuser : UInt32}
  {rest : List UInt32}

theorem addUser_of_cons (h : o.queue time = nuser :: rest) :
    o.addUser env abank pk time = (nuser, o.reuse (o.newUser env abank pk time nuser) h) := by
  unfold addUser
  split
  · rename_i heq
    obtain ⟨rfl, rfl⟩ := List.cons.inj (heq.symm.trans h)
    rfl
  · rename_i heq
    cases heq.symm.trans h

theorem addUser_of_nil (h : o.queue time = []) (hmax : o.users < maxUsers) :
    o.addUser env abank pk time =
      (o.users, o.grow (o.newUser env abank pk time o.users) hmax) := by
  unfold addUser
  split
  · rename_i heq
    cases heq.symm.trans h
  · rw [dif_pos hmax]

theorem addUser_of_full (h : o.queue time = []) (hmax : ¬ o.users < maxUsers) :
    o.addUser env abank pk time = (0, { o with deletedUsers := [], deleted := by simp }) := by
  unfold addUser
  split
  · rename_i heq
    cases heq.symm.trans h
  · rw [dif_neg hmax]

/-- The account at the head of the queue may be overwritten. -/
theorem reusable_of_queue (h : o.queue time = nuser :: rest) : o.reusable time nuser = true := by
  have hhead := List.head?_dropWhile_not (fun uid => !o.reusable time uid) o.deletedUsers
  rw [show o.deletedUsers.dropWhile _ = nuser :: rest from h] at hhead
  simpa using hhead

theorem length_lt_of_queue (h : o.queue time = nuser :: rest) :
    rest.length < o.deletedUsers.length := by
  have hle := (List.dropWhile_sublist (l := o.deletedUsers)
    fun uid => !o.reusable time uid).length_le
  have hqueue : o.deletedUsers.dropWhile (fun uid => !o.reusable time uid) = nuser :: rest := h
  rw [hqueue] at hle
  exact hle

end AddUser

/-- Append a transaction to the message. It fails when the office stops or the
message file does not open. The wait for room in the message comes before the
step and is not part of it. -/
def addMsg (env : OfficeEnv) (o : OfficeState) (t : UserTxs) : Option OfficeState :=
  if o.run && env.opens then
    some { o with message := o.message ++ [t], messageTnum := o.messageTnum + 1 }
  else none

/-- Store the outcome of a transaction in the record of its sender. -/
def setUser (o : OfficeState) (uid : UInt32) (nu : User) (deduct : Int64) : OfficeState :=
  let ou := o.user uid
  o.putUser uid { ou with
    weight := ou.weight - deduct
    msid := nu.msid
    time := nu.time
    node := nu.node
    user := nu.user
    lpath := nu.lpath
    hash := nu.hash
    pkey := nu.pkey }

/-- Add an amount to a local account. -/
def addDeposit (o : OfficeState) (buser : UInt32) (tmass : Int64) : OfficeState :=
  o.putUser buser { o.user buser with weight := (o.user buser).weight + tmass }

/-- Change the status of an account; an account without a message id has none. -/
def changeStatus (o : OfficeState) (buser : UInt32) (f : UInt16 → UInt16) : Option OfficeState :=
  if (o.user buser).msid = 0 then none
  else some (o.putUser buser { o.user buser with stat := f (o.user buser).stat })

def setAccountStatus (o : OfficeState) (buser : UInt32) (status : UInt16) : Option OfficeState :=
  o.changeStatus buser (· ||| (status &&& 0xFFFE))

def unsetAccountStatus (o : OfficeState) (buser : UInt32) (status : UInt16) : Option OfficeState :=
  o.changeStatus buser (· &&& ~~~(status &&& 0xFFFE))

/-- The record of a local account; an account without a message id has none. -/
def localUser (o : OfficeState) (uid : UInt32) : Option User :=
  if o.users ≤ uid || (o.user uid).msid = 0 then none else some (o.user uid)

def getUser (env : OfficeEnv) (o : OfficeState) (cbank : UInt16) (cuser : UInt32) : Option User :=
  if cbank ≠ o.svid then env.getUserGlobal cbank cuser
  else if o.svid = 0 then some default
  else o.localUser cuser

/-- Local accounts are checked against the office, others against the last block. -/
def checkUser (env : OfficeEnv) (o : OfficeState) (peer : UInt16) (uid : UInt32) : Bool :=
  if peer = o.svid then uid < o.users || o.svid = 0
  else peer.toNat < env.last.nodes.size && uid < (env.last.node peer).users

/-- Remote requests with a known key are refused, and all of them while too many
accounts created that way are empty. The accounts that received funds are dropped
from the list first. -/
def tryAccount (o : OfficeState) (key : Hash) : Bool × OfficeState :=
  if o.accounts.any (·.1 = key) then (false, o)
  else if o.accounts.length ≤ maxUserQueue then (true, o)
  else
    let accounts := o.accounts.filter fun a =>
      match o.localUser a.2 with
      | some u => u.weight ≤ 0
      | none => true
    (accounts.length ≤ maxUserQueue, { o with accounts := accounts })

/-- The confirmation of an account created for another node. -/
def uokTxs (env : OfficeEnv) (o : OfficeState) (luser : UInt32) (bbank : UInt16) (buser : UInt32)
    (pkey : Hash) : UserTxs where
  ttype := .uok
  abank := o.svid
  auser := luser
  ttime := env.time
  bbank := bbank
  buser := buser
  upkey := pkey
  addresses := by simp
  broadcast := by simp

/-- Create an account for another node and confirm it in the message. -/
def openRemote (env : OfficeEnv) (o : OfficeState) (bbank : UInt16) (buser : UInt32)
    (pkey : Hash) : UInt32 × OfficeState :=
  let luser := (o.addUser env bbank pkey env.time).1
  let o := (o.addUser env bbank pkey env.time).2
  if luser = 0 then (0, o)
  else
    match o.addMsg env (o.uokTxs env luser bbank buser pkey) with
    | some o => (luser, { o with accounts := (pkey, luser) :: o.accounts })
    | none => (luser, o)

/-- Answer the account request of another node. -/
def addRemoteUser (env : OfficeEnv) (o : OfficeState) (bbank : UInt16) (buser : UInt32)
    (pkey : Hash) : UInt32 × OfficeState :=
  if o.readonly then (0, o)
  else if (o.tryAccount pkey).1 then (o.tryAccount pkey).2.openRemote env bbank buser pkey
  else (0, (o.tryAccount pkey).2)

end OfficeState

end Esc
