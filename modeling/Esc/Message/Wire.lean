import Esc.User
import Esc.Lib.Bytes

/-!
# Messages as bytes on the wire

The byte layout that peers exchange, the hash tree over the transactions of a
message, and the signature check of a received message. The three bytes behind the
type hold the length, then follow the signature and ten bytes with node id, message
id and time.

A failed assertion and a loop that does not end are kept apart from a returned
error: both end the process, not the check.
-/

namespace Esc

open Lib

def msgtypeDbl : UInt8 := 0
def msgtypeMsg : UInt8 := 3
def msgtypeIni : UInt8 := 6
def msgtypeCnd : UInt8 := 10
def msgtypeBlk : UInt8 := 13

/-- Size of the signed part of a block header: all of it but the two vote counts. -/
def signedHeader : Nat := 4 + 4 + 4 + 4 + 5 * 32

/-- How a check ends without success. -/
inductive Stop where
  /-- The function returns an error. -/
  | fail
  /-- The process ends on an assertion, or the function never returns. -/
  | abort
deriving DecidableEq, Repr

def require (p : Prop) [Decidable p] (stop : Stop) : Except Stop Unit :=
  if p then .ok () else .error stop

@[simp] theorem require_eq_ok {p : Prop} {_ : Decidable p} {stop : Stop} :
    require p stop = .ok () ↔ p := by
  unfold require
  split <;> simp [*]

@[simp] theorem require_bind_eq_ok {α : Type} {p : Prop} {_ : Decidable p} {stop : Stop}
    {f : Unit → Except Stop α} {a : α} :
    (require p stop >>= f) = .ok a ↔ p ∧ f () = .ok a := by
  unfold require
  split <;> simp [*, bind, Except.bind]

theorem bind_eq_ok_iff {α β : Type} {x : Except Stop α} {f : α → Except Stop β} {b : β} :
    (x >>= f) = .ok b ↔ ∃ a, x = .ok a ∧ f a = .ok b := by
  cases x <;> simp [bind, Except.bind]

/-- The hash and signature functions, and what a read in front of the table of
transaction lengths gives. -/
structure Crypto where
  sha256 : List UInt8 → Hash
  /-- Key, signed bytes, signature. -/
  signOpen : Hash → List UInt8 → Signature → Bool
  strayLength : UInt8 → Option Nat

def hashBytes (h : Hash) : List UInt8 := bytesLE 32 h.toNat

@[simp] theorem length_hashBytes (h : Hash) : (hashBytes h).length = 32 := by
  simp [hashBytes, bytesLE]

theorem ofLE_bytesLE (n v : Nat) : ofLE (bytesLE n v) = v % 256 ^ n := by
  induction n generalizing v with
  | zero => simp [bytesLE, ofLE, Nat.mod_one]
  | succ n ih =>
    have hstep : bytesLE (n + 1) v = UInt8.ofNat v :: bytesLE n (v / 256) := by
      simp only [bytesLE, List.range_succ_eq_map, List.map_cons, List.map_map]
      congr 1
      · simp
      · apply List.map_congr_left
        intro i _
        simp only [Function.comp, Nat.succ_eq_add_one, Nat.pow_succ', Nat.div_div_eq_div_mul]
    rw [hstep, ofLE, ih, UInt8.toNat_ofNat', Nat.pow_succ' (m := 256), Nat.mod_mul]

theorem hashBytes_inj {h h' : Hash} (heq : hashBytes h = hashBytes h') : h = h' := by
  have hvalue := congrArg ofLE heq
  rw [hashBytes, hashBytes, ofLE_bytesLE, ofLE_bytesLE] at hvalue
  have hh := h.isLt
  have hh' := h'.isLt
  exact BitVec.eq_of_toNat_eq (by omega)

def readHash (d : Bytes) : Hash := BitVec.ofNat 256 (ofLE (d.take 32))

/-- A number of `8 * n` bits from its `n` bytes. -/
theorem ofNat_toNat_mod {w n : Nat} (hw : w = 8 * n) (x : BitVec w) :
    BitVec.ofNat w (x.toNat % 256 ^ n) = x := by
  have hpow : 2 ^ w = 256 ^ n := by
    rw [hw, Nat.pow_mul]
  have hx : x.toNat < 256 ^ n := lt_of_lt_of_eq x.isLt hpow
  rw [Nat.mod_eq_of_lt hx, BitVec.ofNat_toNat, BitVec.setWidth_eq]

theorem ofNat_toNat_mod256 (x : Hash) : BitVec.ofNat 256 (x.toNat % 256 ^ 32) = x :=
  ofNat_toNat_mod (by decide) x

theorem readHash_ofList (hash : Hash) (bs : List UInt8) (memory : Bytes) :
    readHash (Bytes.ofList (hashBytes hash ++ bs) memory) = hash := by
  rw [readHash, Bytes.take_ofList_append (length_hashBytes hash), hashBytes, ofLE_bytesLE,
    ofNat_toNat_mod256]

theorem ofNat_toNat_mod512 (x : Signature) : BitVec.ofNat 512 (x.toNat % 256 ^ 64) = x :=
  ofNat_toNat_mod (by decide) x

def readSignature (d : Bytes) : Signature := BitVec.ofNat 512 (ofLE (d.take 64))

/-- `hashtree::addhash`: the pair is hashed in the order of its bytes. -/
def addhash (c : Crypto) (hash add : Hash) : Hash :=
  if hashBytes add < hashBytes hash then c.sha256 (hashBytes add ++ hashBytes hash)
  else c.sha256 (hashBytes hash ++ hashBytes add)

/-- The loaded hashes of a `hashtree`, one for each level. -/
abbrev HashTree := List (Option Hash)

def HashTree.empty : HashTree := List.replicate 32 none

/-- `hashtree::update`: two hashes of a level make one of the next. -/
def HashTree.update (c : Crypto) : HashTree → Hash → HashTree
  | [], _ => []
  | none :: levels, h => some h :: levels
  | some a :: levels, h => none :: HashTree.update c levels (addhash c a h)

/-- `hashtree::finish`: join the loaded hashes from the lowest level up. -/
def HashTree.finish (c : Crypto) (tree : HashTree) : Hash :=
  let join : Option Hash → Option Hash → Option Hash
    | none, level => level
    | some h, none => some h
    | some h, some a => some (addhash c h a)
  (tree.foldl join none).getD 0

/-- Lengths of the fixed part of a transaction, by numeric type. -/
def txslenTable : List Nat :=
  [4, 23, 53, 17, 61, 17, 17, 15, 21, 47, 49, 23, 21, 23, 21, 15,
    17, 17, 15, 19, 21, 43, 15, 15, 17, 15, 21, 61]

/-- Size of a transaction by its type, the count of a broadcast or multiple transfer and
the length of a placeholder. The type is compared as a signed number, so types from 128
on read in front of the table. -/
def txsSize (c : Crypto) (type : UInt8) (count len : Nat) : Option Nat :=
  if 128 ≤ type.toNat then (c.strayLength type).map (· + 64)
  else if txslenTable.length ≤ type.toNat then none
  else
    let base := txslenTable.getD type.toNat 0
    match type.toNat with
    | 0 => some (max 4 len)
    | 1 => some base
    | 2 => some base
    | 3 => some (base + 64 + count)
    | 5 => some (base + 64 + count * (6 + 8))
    | 6 => some (base + 64 + 4 + 32)
    | 10 => some (base + 64 + 32)
    | 15 => some (base + 64 + 128)
    | _ => some (base + 64)

/-- `usertxs::get_size` on the bytes of a transaction. -/
def getSize (c : Crypto) (txs : Bytes) : Option Nat :=
  txsSize c (txs 0) (txs.skip (1 + 14)).uint16.toNat (txs.skip 1).uint24

/-- The table and the sizes agree with those of parsed transactions. -/
example : txslenTable.take 17 =
    [.non, .con, .uok, .bro, .put, .mpt, .usr, .bnk, .get, .key, .bky, .sus, .sbs, .uus, .ubs,
      .sav, .inf].map txslen := rfl

theorem txsSize_congr {c : Crypto} {type : UInt8} {count count' len len' l : Nat}
    (h : txsSize c type count len = some l) (hcount : 17 ≤ l → count = count')
    (hlen : 4 ≤ l → len = len') : txsSize c type count' len' = some l := by
  rw [← h]
  by_cases h0 : type.toNat = 0
  · have hl : 4 ≤ l := by
      simp [txsSize, h0, txslenTable] at h
      omega
    simp [txsSize, h0, txslenTable, hlen hl]
  · by_cases h35 : type.toNat = 3 ∨ type.toNat = 5
    · have hl : 17 ≤ l := by
        rcases h35 with h35 | h35 <;> simp [txsSize, h35, txslenTable] at h <;> omega
      rcases h35 with h35 | h35 <;> simp [txsSize, h35, txslenTable, hcount hl]
    · unfold txsSize
      split
      · rfl
      · split
        · rfl
        · dsimp only
          split <;> first | rfl | omega

/-- The size of a transaction is read from its own bytes. -/
theorem getSize_congr {c : Crypto} {a b : Bytes} {l : Nat} (hzero : a 0 = b 0)
    (h : getSize c a = some l) (hab : ∀ i < l, a i = b i) : getSize c b = some l := by
  rw [getSize, hzero] at h
  apply txsSize_congr h
  · intro hl
    have htake : (a.skip (1 + 14)).take 2 = (b.skip (1 + 14)).take 2 :=
      Bytes.take_congr fun i hi => hab (1 + 14 + i) (by omega)
    rw [Bytes.uint16_congr htake]
  · intro hl
    exact Bytes.uint24_congr (Bytes.take_congr fun i hi => hab (1 + i) (by omega))

/-- Hash of one transaction, marked with node id, message id and position. -/
def txsLeaf (c : Crypto) (txs : List UInt8) (svid : UInt16) (msid : UInt32) (tnum : UInt16) :
    Hash :=
  c.sha256 txs ^^^
    BitVec.ofNat 256 (svid.toNat + 2 ^ 32 * msid.toNat + 2 ^ 64 * tnum.toNat)

/-- The loop over the transactions of a message, from offset `p` on. -/
def hashTxs (c : Crypto) (d : Bytes) (len : Nat) (svid : UInt16) (msid : UInt32) :
    Nat → Nat → UInt16 → HashTree → Except Stop (Nat × UInt16 × HashTree)
  | 0, _, _, _ => .error .abort
  | fuel + 1, p, tnum, tree =>
    if len ≤ p then .ok (p, tnum, tree)
    else
      match getSize c (d.skip p) with
      | none => .error .fail
      | some l =>
        hashTxs c d len svid msid fuel (p + l) (tnum + 1)
          (tree.update c (txsLeaf c ((d.skip p).take l) svid msid tnum))

/-- `message::hash_tree_fast`. A transaction takes at least one byte unless its length
came from outside the table, so `len` rounds are enough. -/
def hashTreeFast (c : Crypto) (d : Bytes) (len : Nat) (svid : UInt16) (msid : UInt32) :
    Except Stop Hash := do
  require (d 0 = msgtypeMsg ∧ svid ≠ 0 ∧ msid ≠ 0) .abort
  require (4 + 64 + 10 < len) .abort
  let first := HashTree.empty.update c (c.sha256 ((d.skip (4 + 64)).take 10))
  let (p, tnum, tree) ← hashTxs c d len svid msid (len + 1) (4 + 64 + 10) 1 first
  require (tnum ≠ 0) .fail
  require (p = len) .fail
  return tree.finish c

/-- A message as received: the data and what was read from it. -/
structure Wire where
  data : Bytes
  len : Nat
  svid : UInt16 := 0
  msid : UInt32 := 0
  now : UInt32 := 0
  sigh : Hash := 0

/-- Node id, message id and time at an offset. -/
def Wire.readIds (m : Wire) (off : Nat) : Wire :=
  { m with
    svid := (m.data.skip off).uint16
    msid := (m.data.skip (off + 2)).uint32
    now := (m.data.skip (off + 6)).uint32 }

/-- `message::read_head`. The second case is the one meant for double spend proofs; the
first one already takes them. -/
def Wire.readHead (m : Wire) : Wire :=
  if m.data 0 = msgtypeMsg ∨ m.data 0 = msgtypeIni ∨ m.data 0 = msgtypeCnd ∨
      m.data 0 = msgtypeDbl ∨ m.data 0 = msgtypeBlk then
    m.readIds (4 + 64)
  else if m.data 0 = msgtypeDbl then m.readIds (4 + 32 + 4 + 64)
  else m

/-- `message::hash_signature`: the two halves of the signature joined. -/
def Wire.hashSignature (m : Wire) : Wire :=
  let sig := readSignature (m.data.skip 4)
  { m with
    sigh := if m.data 0 = msgtypeDbl then 0
      else sig.setWidth 256 ^^^ (sig >>> 256).setWidth 256 }

/-- `message::hash_tree`, which computes the hash that `hash_tree_fast` does; the copy of
the tree behind the data is left out. -/
def Wire.hashTree (c : Crypto) (m : Wire) : Except Stop Wire := do
  let sigh ← hashTreeFast c m.data m.len m.svid m.msid
  return { m with sigh := sigh }

/-- The two messages inside a double spend proof, and the hash in front of them. -/
def Wire.first (m : Wire) : Wire :=
  { data := m.data.skip (4 + 32), len := (m.data.skip (4 + 32 + 1)).uint24 }

def Wire.second (m : Wire) : Wire :=
  let data := m.data.skip (4 + 32 + m.first.len)
  { data := data, len := (data.skip 1).uint24 }

def Wire.dblMsha (m : Wire) : Hash := readHash (m.data.skip 4)

/-- Check of the two signatures of a double spend proof, for each kind of message. The
block time of the second header is read from the first message. -/
def checkDblSignatures (c : Crypto) (svpk dblmsha : Hash) (m1 m2 : Wire) : Except Stop Unit := do
  let d1 := m1.data
  let d2 := m2.data
  let sig1 := readSignature (d1.skip 4)
  let sig2 := readSignature (d2.skip 4)
  if d1 0 = msgtypeCnd ∨ d1 0 = msgtypeBlk then
    require (m1.len = m2.len) .fail
    if d1 0 = msgtypeCnd then
      require (m1.len = 4 + 64 + 10 + 32) .fail
      require (c.signOpen svpk ((d1.skip (4 + 64)).take (10 + 32)) sig1 ∧
        c.signOpen svpk ((d2.skip (4 + 64)).take (10 + 32)) sig2) .fail
    else
      require (m1.len = 4 + 64 + 10 + signedHeader) .fail
      let hpath1 := (d1.skip (4 + 64 + 10)).uint32
      let hpath2 := (d1.skip (4 + 64 + 10)).uint32
      require (hpath1 = hpath2) .fail
      require (hpath1 = (d1.skip (4 + 64 + 2)).uint32) .fail
      require (c.signOpen svpk ((d1.skip (4 + 64 + 10)).take signedHeader) sig1 ∧
        c.signOpen svpk ((d2.skip (4 + 64 + 10)).take signedHeader) sig2) .fail
  else if d1 0 = msgtypeMsg then
    let now1 := (d1.skip (4 + 64 + 6)).uint32
    let now2 := (d2.skip (4 + 64 + 6)).uint32
    require (now1 ≤ now2 + 3 * blockSec ∧ now2 ≤ now1 + 3 * blockSec) .fail
    let svid := (d1.skip (4 + 64)).uint16
    let msid := (d1.skip (4 + 64 + 2)).uint32
    let sigh1 ← hashTreeFast c d1 m1.len svid msid
    let sigh2 ← hashTreeFast c d2 m2.len (d2.skip (4 + 64)).uint16 (d2.skip (4 + 64 + 2)).uint32
    require (c.signOpen svpk (hashBytes dblmsha ++ hashBytes sigh1) sig1 ∧
      c.signOpen svpk (hashBytes dblmsha ++ hashBytes sigh2) sig2) .fail
  else throw .fail

/-- `message::check_signature` on a double spend proof. -/
def checkDbl (c : Crypto) (m : Wire) (svpk : Hash) : Except Stop Unit := do
  let m1 := m.first
  require (4 + 32 + m1.len + 4 ≤ m.len) .fail
  let m2 := m.second
  require (4 + 32 + m1.len + m2.len = m.len) .fail
  require (m1.data 0 = m2.data 0) .fail
  require ((m1.data.skip (4 + 64)).uint16 = (m2.data.skip (4 + 64)).uint16 ∧
    (m1.data.skip (4 + 64 + 2)).uint32 = (m2.data.skip (4 + 64 + 2)).uint32) .fail
  require ((m1.data.skip 4).take 64 ≠ (m2.data.skip 4).take 64) .fail
  checkDblSignatures c svpk m.dblMsha m1 m2

/-- `message::check_signature`. -/
def checkSignature (c : Crypto) (m : Wire) (svpk msha : Hash) : Except Stop Unit :=
  let sig := readSignature (m.data.skip 4)
  if m.data 0 = msgtypeMsg then
    require (c.signOpen svpk (hashBytes msha ++ hashBytes m.sigh) sig) .fail
  else if m.data 0 = msgtypeBlk then do
    require ((m.data.skip (4 + 64 + 2)).take 4 = (m.data.skip (4 + 64 + 10)).take 4) .fail
    require (c.signOpen svpk ((m.data.skip (4 + 64 + 10)).take signedHeader) sig) .fail
  else if m.data 0 = msgtypeCnd then
    require (c.signOpen svpk ((m.data.skip (4 + 64)).take (10 + 32)) sig) .fail
  else if m.data 0 = msgtypeIni then
    require (c.signOpen svpk ((m.data.skip (4 + 64)).take (m.len - 4 - 64)) sig) .fail
  else if m.data 0 = msgtypeDbl then checkDbl c m svpk
  else throw .fail

/-- What a peer reads from the data of a plain message: the head and the hash. -/
def Wire.receive (c : Crypto) (m : Wire) : Except Stop Wire :=
  if m.data 0 = msgtypeMsg then m.readHead.hashTree c else pure m.readHead.hashSignature

/-- A plain message is read and its signature checked. -/
def Wire.verify (c : Crypto) (m : Wire) (svpk msha : Hash) : Except Stop Unit := do
  checkSignature c (← m.receive c) svpk msha

end Esc
