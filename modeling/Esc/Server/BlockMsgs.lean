import Esc.Server.MessageList

/-!
# The messages at the end of a block

`LAST_block_final` takes the messages on which the network agreed into `txs_msgs_` and then
walks the map from its end, to forget old messages, to undo those that were not agreed on
and to queue the others. `signlater` signs the own messages again that came too late.

The queues, the files, the undoing itself and the marks of double spenders in the node table
are left out. The walk reports where it leaves what C++ defines.
-/

namespace Esc

open Lib

/-- A message in `txs_msgs_`, with the marks `MSGSTAT_DAT`, `_COM`, `_VAL` and `_BAD`. -/
structure BlockMsg where
  svid : UInt16
  msid : UInt32
  /-- The byte `hash.dat[0]`. -/
  hashval : UInt8
  /-- The byte `hash.dat[1]`. -/
  type : UInt8 := msgtypeMsg
  sigh : Hash := 0
  len : Nat := headerLength
  peer : UInt16 := 0
  now : UInt32 := 0
  path : UInt32 := 0
  dat : Bool := false
  com : Bool := false
  val : Bool := false
  bad : Bool := false
deriving DecidableEq, Repr

/-- `hash.num`. -/
def BlockMsg.num (m : BlockMsg) : UInt64 := hashNum m.hashval m.type m.msid m.svid

/-- `message::move`; a message without a path keeps none. -/
def BlockMsg.move (m : BlockMsg) (nextpath : UInt32) : BlockMsg :=
  { m with path := if m.path = 0 then 0 else nextpath }

/-- Entries of a message map, in the order of their keys. -/
abbrev BlockEntries := List (UInt64 × BlockMsg)

/-- What `LAST_block_final` reads. -/
structure BlockEnd where
  /-- `opts_.svid`. -/
  own : UInt16
  /-- `LAST_block`, which is `srvs_.now`. -/
  block : UInt32
  /-- `last_srvs_.now`. -/
  lastNow : UInt32
  /-- `last_srvs_.nodes.size()`. -/
  lastNodes : Nat
  /-- `last_srvs_.nodes[].msid`. -/
  lastMsid : UInt16 → UInt32
  /-- `LAST_block_all_msgs`. -/
  all : Map UInt64 BlockMsg := ∅
  /-- `winner->msg_del`. -/
  del : List UInt64 := []
  /-- `winner->msg_add`. -/
  add : List (UInt64 × Hash) := []
  /-- `bad_msgs_`. -/
  bad : Hash → Option BlockMsg := fun _ => none

namespace BlockEnd

/-- The message that the constructor makes of a key and a hash: an announced message. -/
def announced (own : UInt16) (block : UInt32) (key : UInt64) (sigh : Hash) : BlockMsg :=
  let msid := UInt32.ofNat (key.toNat / 2 ^ 16)
  let svid := UInt16.ofNat (key.toNat / 2 ^ 48)
  if msid = dblMsid then { svid, msid, hashval := 0, type := msgtypeDbl, sigh, path := block }
  else { svid, msid, hashval := Txs.hashval own sigh, sigh, path := block }

variable (e : BlockEnd)

/-- `LAST_block_tmp_msgs`. -/
def tmp : Map UInt64 BlockMsg := e.del.foldl (fun m k => m.erase k) e.all

/-- `LAST_block_final_msgs`; `none` is the assertion that no message is kept and added. -/
def final : Option (Map UInt64 BlockMsg) :=
  if e.tmp.toList.any fun p => e.add.any fun a => a.1 = p.1 then none
  else
    let kept := e.tmp.foldl (fun final _ m => final.insertIfNew m.num { m with val := true }) ∅
    some (e.add.foldl (fun final a =>
      let msg := { announced e.own e.block a.1 a.2 with val := true }
      final.insert msg.num msg) kept)

/-- `bad_insert`, as far as the message goes. -/
def badInsert (m : BlockMsg) : BlockMsg := { m with bad := true }

/-- Another version of an agreed message is bad. -/
def badVersion (k : UInt64) (t : UInt64 × BlockMsg) : UInt64 × BlockMsg :=
  if sameMessage t.1 k then (t.1, badInsert t.2) else t

/-- The loops that mark the versions behind an agreed message. -/
def badVersions (k : UInt64) : BlockEntries → BlockEntries × BlockEntries
  | t :: ts => if sameMessage t.1 k then
      ((t.1, badInsert t.2) :: (badVersions k ts).1, (badVersions k ts).2)
    else ([], t :: ts)
  | [] => ([], [])

/-- A stored message is agreed on. A stored version with another hash is replaced, and a
message that was bad is recovered behind the loop. -/
def agree (stored msg : BlockMsg) : BlockMsg :=
  let t := if !stored.dat then { stored with sigh := msg.sigh }
    else if stored.sigh = msg.sigh then stored else msg
  { t with val := true, path := e.block, bad := false }

theorem length_badVersions (k : UInt64) (ts : BlockEntries) :
    (badVersions k ts).2.length ≤ ts.length := by
  induction ts with
  | nil => exact Nat.le_refl _
  | cons t ts ih =>
      rw [badVersions]
      split
      · exact Nat.le_succ_of_le ih
      · exact Nat.le_refl _

/-- The loop over the agreed messages and `txs_msgs_`, with the key of the agreed message
before. The stored entries come first, the entries to be added second. -/
def mergeMsgs (prev : Option UInt64) : BlockEntries → BlockEntries → BlockEntries × BlockEntries
  | [], ts => (prev.elim ts fun k => (badVersions k ts).1 ++ (badVersions k ts).2, [])
  | (k, m) :: ls, [] =>
      let r := mergeMsgs (some k) ls []
      (r.1, (k, { m with path := e.block }) :: r.2)
  | (k, m) :: ls, t :: ts =>
      if k < t.1 then
        let r := mergeMsgs (some k) ls (badVersion k t :: ts)
        (r.1, (k, { m with path := e.block }) :: r.2)
      else if k = t.1 then
        let r := mergeMsgs (some k) ls (badVersions k ts).2
        ((k, e.agree t.2 m) :: (badVersions k ts).1 ++ r.1, r.2)
      else
        let r := mergeMsgs prev ((k, m) :: ls) ts
        (badVersion k t :: r.1, r.2)
termination_by ls ts => ls.length + ts.length
decreasing_by
  · simp
  · simp
  · have := length_badVersions k ts
    simp only [List.length_cons]
    omega
  · simp

/-- `txs_msgs_` with the agreed messages. -/
def merged (msgs final : Map UInt64 BlockMsg) : Map UInt64 BlockMsg :=
  let r := e.mergeMsgs none final.toList msgs.toList
  let stored := r.1.foldl (fun m t => m.insert t.1 t.2) (∅ : Map UInt64 BlockMsg)
  r.2.foldl (fun m t => m.insertIfNew t.1 t.2) stored

end BlockEnd

/-- What a walk must not do. -/
inductive WalkFault where
  /-- An index of `last_srvs_.nodes` is out of range. -/
  | nodeIndex
  /-- An erased entry is read. -/
  | erasedRead
  /-- An entry is erased twice. -/
  | erasedTwice
deriving DecidableEq, Repr

/-- Variables of the walk. -/
structure Walk where
  msgs : Map UInt64 BlockMsg
  lastsvid : UInt16 := 0
  minmsid : UInt32 := 0
  /-- `sign_msgs_`, by their keys. -/
  sign : List UInt64 := []

namespace BlockEnd

variable (e : BlockEnd)

/-- The node of the message. -/
def enterNode (w : Walk) (m : BlockMsg) : Except WalkFault Walk :=
  if m.svid = w.lastsvid then .ok w
  -- The source reads the node table when the node is not in it.
  else if e.lastNodes ≤ m.svid.toNat then .error .nodeIndex
  else .ok { w with lastsvid := m.svid, minmsid := 0 }

/-- An agreed message that is not committed: a double spend is, the others are queued or,
if they are found among the bad ones, recovered. -/
def queueMsg (w : Walk) (k : UInt64) (m : BlockMsg) : Walk :=
  if m.val ∧ m.com = false then
    if m.msid = dblMsid then { w with msgs := w.msgs.insert k { m with com := true } }
    else if m.dat then w
    else
      match e.bad m.sigh with
      | some b => if b.num = m.num then
          { w with msgs := w.msgs.insert k { b.move e.block with val := true, bad := false } }
        else w
      | none => w
  else w

/-- One message of the walk. -/
def cleanMsg (w : Walk) (t : UInt64 × BlockMsg) : Except WalkFault Walk := do
  let (k, m) := t
  let w ← e.enterNode w m
  if m.msid ≤ w.minmsid then .ok { w with msgs := w.msgs.erase k }
  -- The test for an own message reads the entry that was just erased.
  else if m.bad then .error .erasedRead
  else if m.val = false ∧ m.com then
    let w := { w with msgs := w.msgs.insert k { m with com := false } }
    if m.now < e.block then
      if m.svid = e.own then
        .ok { w with
          msgs := w.msgs.insert k { m with com := false, bad := true }
          sign := k :: w.sign }
      else .ok { w with msgs := w.msgs.erase k }
    else .ok { w with msgs := w.msgs.insert k { m.move (e.block + blockSec) with com := false } }
  else if m.val = false ∧ m.path ≠ 0 ∧ m.path ≤ e.block then
    if m.now < e.lastNow then
      -- The entry is erased; an own message goes on to the last test with it.
      if m.svid = e.own then .error .erasedRead else .error .erasedTwice
    else .ok { w with msgs := w.msgs.insert k (m.move (e.block + blockSec)) }
  else .ok (e.queueMsg w k m)

/-- The walk from the end of the map. -/
def clean (w : Walk) : Except WalkFault Walk := w.msgs.toList.reverse.foldlM e.cleanMsg w

end BlockEnd

/-- `txs_msgs_` and the keys of `sign_msgs_`. -/
structure MsgStore where
  msgs : Map UInt64 BlockMsg := ∅
  sign : List UInt64 := []

/-- What the functions on the messages read, and the hash tree of a message with a new
time. -/
structure StoreEnv where
  /-- `opts_.svid`. -/
  own : UInt16
  /-- The double spend bit of `last_srvs_.nodes[].status`. -/
  lastDbl : UInt16 → Bool
  hashTree : BlockMsg → UInt32 → Hash

namespace MsgStore

variable (env : StoreEnv) (s : MsgStore)

/-- `txs_insert` in the block `now`; `none` is the assertion on the type. -/
def txsInsert (now : UInt32) (msg : BlockMsg) : Option MsgStore :=
  if msg.type ≠ msgtypeMsg then none
  else if env.lastDbl msg.svid then some s
  else
    match s.msgs[msg.num]? with
    | some osg =>
      if headerLength < msg.len ∧ osg.len = headerLength ∧ ¬(osg.val ∧ osg.sigh ≠ msg.sigh) then
        some { s with msgs := s.msgs.insert msg.num { osg with
          len := msg.len, sigh := msg.sigh, peer := msg.peer, now := msg.now, dat := true
          path := now } }
      else some s
    | none =>
      if msg.len = headerLength then some { s with msgs := s.msgs.insert msg.num msg }
      else if msg.svid = env.own then
        some { s with msgs := s.msgs.insert msg.num { msg with path := now } }
      else some s

/-- `LAST_block_final`; `none` is a failed assertion or a fault of the walk. -/
def lastBlockFinal (e : BlockEnd) : Option MsgStore := do
  let final ← e.final
  match e.clean { msgs := e.merged s.msgs final, sign := s.sign } with
  | .ok w => some ⟨w.msgs, w.sign⟩
  | .error _ => none

/-- `signnewtime`, with the new marks. -/
def signNewTime (m : BlockMsg) (ntime : UInt32) : BlockMsg :=
  { m with
    now := ntime
    sigh := env.hashTree m ntime
    hashval := Txs.hashval m.svid (env.hashTree m ntime)
    dat := true
    bad := false }

/-- The loop of `signlater`; `none` is an assertion on the number or the type. -/
def signMsgs (msid ntime : UInt32) : BlockEntries → Option BlockEntries
  | t :: ts =>
    if t.2.svid ≠ env.own then some []
    else if msid + 1 ≠ t.2.msid ∨ t.2.type ≠ msgtypeMsg then none
    else (signMsgs (msid + 1) (ntime + 1) ts).map ((t.1, signNewTime env t.2 ntime) :: ·)
  | [] => some []

/-- The entries from the first message to be signed on. -/
def signFrom : BlockEntries :=
  match s.sign with
  | [] => []
  | front :: _ => s.msgs.toList.dropWhile fun t => t.1 ≠ front

/-- `signlater`. The messages are signed in place. -/
def signlater (msid ntime : UInt32) : Option MsgStore := do
  let signed ← signMsgs env msid ntime s.signFrom
  some { msgs := signed.foldl (fun msgs t => msgs.insert t.1 t.2) s.msgs, sign := [] }

end MsgStore

/-- What happens to the messages. -/
inductive StoreEvent where
  | insert (now : UInt32) (msg : BlockMsg)
  | final (e : BlockEnd)
  | signlater (msid ntime : UInt32)
  /-- Another function sets the marks of a stored message. -/
  | mark (key : UInt64) (dat com val bad : Bool) (path : UInt32)

def MsgStore.step (env : StoreEnv) (s : MsgStore) : StoreEvent → Option MsgStore
  | .insert now msg => s.txsInsert env now msg
  | .final e => s.lastBlockFinal e
  | .signlater msid ntime => s.signlater env msid ntime
  | .mark key dat com val bad path =>
    match s.msgs[key]? with
    | some m => some { s with msgs := s.msgs.insert key { m with dat, com, val, bad, path } }
    | none => some s

def MsgStore.run (env : StoreEnv) (s : MsgStore) (events : List StoreEvent) : Option MsgStore :=
  events.foldlM (MsgStore.step env) s

end Esc
