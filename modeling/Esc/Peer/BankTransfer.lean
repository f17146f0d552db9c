import Esc.Lib.Codec
import Esc.Message.Wire
import Esc.Servers

/-!
# Sending a bank to a synchronising node

`write_bank` sends the account records of a bank in chunks, and `handle_read_bank`
appends them to a file until it has all of them. Sender and receiver each compute
where a chunk belongs: the sender counts in steps of `MESSAGE_CHUNK`, the receiver in
steps of `0x10000` records.

The model has the messages of one bank that the receiver still needs.
-/

namespace Esc

open Lib

def msgtypeUsr : UInt8 := 21
def messageChunk : Nat := 0x100000

/-- A record in memory: the hashed part and the checksum. -/
def User.encode (u : User) : List UInt8 := u.bytes ++ hashBytes u.csum

def User.decode (bs : List UInt8) : User where
  msid := .ofNat (ofLE (bs.take 4))
  time := .ofNat (ofLE ((bs.drop 4).take 4))
  pkey := .ofNat 256 (ofLE ((bs.drop 8).take 32))
  hash := .ofNat 256 (ofLE ((bs.drop 40).take 32))
  lpath := .ofNat (ofLE ((bs.drop 72).take 4))
  user := .ofNat (ofLE ((bs.drop 76).take 4))
  node := .ofNat (ofLE ((bs.drop 80).take 2))
  stat := .ofNat (ofLE ((bs.drop 82).take 2))
  rpath := .ofNat (ofLE ((bs.drop 84).take 4))
  weight := (UInt64.ofNat (ofLE ((bs.drop 88).take 8))).toInt64
  csum := .ofNat 256 (ofLE ((bs.drop 96).take 32))

theorem ofNat_toNat_mod32 (x : UInt32) : UInt32.ofNat (x.toNat % 256 ^ 4) = x := by
  have hx : x.toNat < 256 ^ 4 := x.toNat_lt
  rw [Nat.mod_eq_of_lt hx, UInt32.ofNat_toNat]

theorem ofNat_toNat_mod16 (x : UInt16) : UInt16.ofNat (x.toNat % 256 ^ 2) = x := by
  have hx : x.toNat < 256 ^ 2 := x.toNat_lt
  rw [Nat.mod_eq_of_lt hx, UInt16.ofNat_toNat]

theorem ofNat_toNat_mod64 (x : Int64) :
    (UInt64.ofNat (x.toUInt64.toNat % 256 ^ 8)).toInt64 = x := by
  have hx : x.toUInt64.toNat < 256 ^ 8 := x.toUInt64.toNat_lt
  rw [Nat.mod_eq_of_lt hx, UInt64.ofNat_toNat, Int64.toInt64_toUInt64]

def u16Codec : Codec UInt16 where
  width := 2
  encode x := bytesLE 2 x.toNat
  decode bs := .ofNat (ofLE (bs.take 2))
  length_encode x := length_bytesLE 2 _
  decode_encode x rest := by
    rw [List.take_left' (length_bytesLE 2 _), ofLE_bytesLE, ofNat_toNat_mod16]

def u32Codec : Codec UInt32 where
  width := 4
  encode x := bytesLE 4 x.toNat
  decode bs := .ofNat (ofLE (bs.take 4))
  length_encode x := length_bytesLE 4 _
  decode_encode x rest := by
    rw [List.take_left' (length_bytesLE 4 _), ofLE_bytesLE, ofNat_toNat_mod32]

def i64Codec : Codec Int64 where
  width := 8
  encode x := bytesLE 8 x.toUInt64.toNat
  decode bs := (UInt64.ofNat (ofLE (bs.take 8))).toInt64
  length_encode x := length_bytesLE 8 _
  decode_encode x rest := by
    rw [List.take_left' (length_bytesLE 8 _), ofLE_bytesLE, ofNat_toNat_mod64]

def hashCodec : Codec Hash where
  width := 32
  encode x := hashBytes x
  decode bs := .ofNat 256 (ofLE (bs.take 32))
  length_encode x := length_hashBytes x
  decode_encode x rest := by
    rw [List.take_left' (length_hashBytes x), hashBytes, ofLE_bytesLE, ofNat_toNat_mod256]

def sigCodec : Codec Signature where
  width := 64
  encode x := bytesLE 64 x.toNat
  decode bs := .ofNat 512 (ofLE (bs.take 64))
  length_encode x := length_bytesLE 64 _
  decode_encode x rest := by
    rw [List.take_left' (length_bytesLE 64 _), ofLE_bytesLE, ofNat_toNat_mod512]

def u8Codec : Codec UInt8 where
  width := 1
  encode x := [x]
  decode bs := bs.headD 0
  length_encode _ := rfl
  decode_encode _ _ := rfl

theorem User.decode_encode (u : User) (rest : List UInt8) :
    User.decode (u.encode ++ rest) = u := by
  simp only [User.decode, User.encode, User.bytes, hashBytes, List.append_assoc]
  -- Each field is the part of the stream between two offsets.
  simp (disch := simp) only [List.drop_append, List.drop_of_length_le, List.take_append,
    List.take_of_length_le, length_bytesLE, List.nil_append, Nat.sub_self, List.drop_zero,
    List.take_zero, List.append_nil, Nat.reduceSub, ofLE_bytesLE, ofNat_toNat_mod32,
    ofNat_toNat_mod16, ofNat_toNat_mod64, ofNat_toNat_mod256]

def userCodec : Codec User where
  width := 128
  encode := User.encode
  decode := User.decode
  length_encode u := by simp [User.encode, User.bytes]
  decode_encode := User.decode_encode

/-- The first eight bytes of a message with account records. -/
def usrHeader (bank : UInt16) (msid len : Nat) : List UInt8 :=
  msgtypeUsr :: (bytesLE 3 len ++ (bytesLE 2 msid ++ bytesLE 2 bank.toNat))

/-- The messages of `write_bank` from chunk `msid` on. -/
def writeBank (bank : UInt16) (records : List User) (msid : Nat) : List UInt8 :=
  if records = [] then []
  else
    usrHeader bank msid (records.take messageChunk).length ++
      (userCodec.encodeAll (records.take messageChunk) ++
        writeBank bank (records.drop messageChunk) (msid + 1))
termination_by records.length
decreasing_by
  have hpos := List.length_pos_iff_ne_nil.mpr ‹records ≠ []›
  rw [List.length_drop]
  exact Nat.sub_lt hpos (by decide)

/-- The fields of a peer that `handle_read_bank` keeps between messages, and the file
that it writes. -/
structure BankReader where
  lastBank : UInt16 := 0
  lastMsid : UInt32 := 0
  lastWeight : Int64 := 0
  lastCsum : Hash := 0
  file : List UInt8 := []

inductive BankStatus where
  | waiting (r : BankReader)
  | left
  /-- The file becomes the bank file. -/
  | done (r : BankReader)

section Read

variable (sha256 : List UInt8 → Hash) (last : Servers)

/-- Adding up the records of a chunk, with the checksums computed anew. -/
def BankReader.addUsers (r : BankReader) (bank : UInt16) (uid : UInt32) (us : List User) :
    BankReader :=
  let sums := us.foldl (fun (acc : Int64 × Hash × UInt32) u =>
    (acc.1 + u.weight, acc.2.1 ^^^ csumOf sha256 u bank acc.2.2, acc.2.2 + 1))
    (r.lastWeight, r.lastCsum, uid)
  { r with lastWeight := sums.1, lastCsum := sums.2.1 }

/-- `handle_read_bank` on a chunk whose header has been parsed. -/
def handleReadBank (r : BankReader) (bank : UInt16) (msid len : UInt32) (body : List UInt8) :
    BankStatus :=
  let node := last.node bank
  if bank = 0 ∨ last.nodes.size ≤ bank.toNat then .left
  else if node.users < len + 0x10000 * msid then .left
  else if msid ≠ 0 ∧ (r.lastBank ≠ bank ∨ r.lastMsid ≠ msid - 1) then .left
  else
    let r := if msid = 0 then { lastBank := bank } else { r with lastMsid := msid }
    let r := { r with file := r.file ++ body }
    let r := r.addUsers sha256 bank (0x10000 * msid) (userCodec.decodeAll len.toNat body)
    if len + 0x10000 * msid < node.users then .waiting r
    else if node.weight ≠ r.lastWeight then .left
    else if node.hash ≠ r.lastCsum then .left
    else .done r

/-- One message: the header is parsed by `message::header`, which gives the size of the
rest. -/
def readUsr (r : BankReader) (stream : List UInt8) : BankStatus × List UInt8 :=
  let len := ofLE ((stream.drop 1).take 3)
  let msid := ofLE ((stream.drop 4).take 2)
  let svid := ofLE ((stream.drop 6).take 2)
  let rest := stream.drop 8
  if stream.head? ≠ some msgtypeUsr then (.left, stream)
  else if messageChunk < len then (.left, stream)
  else if rest.length < len * userCodec.width then (.waiting r, stream)
  else
    (handleReadBank sha256 last r (.ofNat svid) (.ofNat msid) (.ofNat len)
      (rest.take (len * userCodec.width)), rest.drop (len * userCodec.width))

/-- The receiver reads messages until it leaves, has the bank or has nothing to read. -/
def receiveBank : Nat → BankReader → List UInt8 → BankStatus
  | 0, r, _ => .waiting r
  | fuel + 1, r, stream =>
    if stream = [] then .waiting r
    else
      match readUsr sha256 last r stream with
      | (.waiting r, rest) => receiveBank fuel r rest
      | (status, _) => status

end Read

/-- A bank at the end of a block: its records carry their checksums. -/
structure Bank (sha256 : List UInt8 → Hash) where
  svid : UInt16
  records : List User
  svid_ne_zero : svid ≠ 0
  length_lt : records.length < 2 ^ 32
  csum_eq : ∀ i u, records[i]? = some u → u.csum = csumOf sha256 u svid (.ofNat i)

namespace Bank

variable {sha256 : List UInt8 → Hash} (b : Bank sha256)

def users : UInt32 := .ofNat b.records.length

def weight : Int64 := b.records.foldl (fun weight u => weight + u.weight) 0

def hash : Hash := b.records.foldl (fun hash u => hash ^^^ u.csum) 0

/-- The node table entry of a bank has its user count, weight and hash. -/
structure AgreesWith (last : Servers) : Prop where
  size : b.svid.toNat < last.nodes.size
  users : (last.node b.svid).users = b.users
  weight : (last.node b.svid).weight = b.weight
  hash : (last.node b.svid).hash = b.hash

/-- The receiver has the bank: the same records, and their sums. -/
def Received (status : BankStatus) : Prop :=
  ∃ r, status = .done r ∧ r.file = userCodec.encodeAll b.records ∧
    userCodec.decodeAll b.users.toNat r.file = b.records ∧
    r.lastWeight = b.weight ∧ r.lastCsum = b.hash

/-- What the receiver makes of the messages of the sender. -/
def transfer (last : Servers) : BankStatus :=
  receiveBank sha256 last (writeBank b.svid b.records 0).length {} (writeBank b.svid b.records 0)

end Bank

section Transfer

variable {sha256 : List UInt8 → Hash} {last : Servers}

theorem length_usrHeader (bank : UInt16) (msid len : Nat) :
    (usrHeader bank msid len).length = 8 := by simp [usrHeader]

/-- `message::header` finds the three numbers of the header. -/
theorem parse_usrHeader (bank : UInt16) {msid len : Nat} (hmsid : msid < 2 ^ 16)
    (hlen : len < 2 ^ 24)
    (rest : List UInt8) :
    ofLE (((usrHeader bank msid len ++ rest).drop 1).take 3) = len ∧
      ofLE (((usrHeader bank msid len ++ rest).drop 4).take 2) = msid ∧
      ofLE (((usrHeader bank msid len ++ rest).drop 6).take 2) = bank.toNat ∧
      (usrHeader bank msid len ++ rest).drop 8 = rest := by
  have hlen3 : len < 256 ^ 3 := hlen
  have hmsid2 : msid < 256 ^ 2 := hmsid
  have hbank : bank.toNat < 256 ^ 2 := bank.toNat_lt
  have hsplit : usrHeader bank msid len ++ rest =
      [msgtypeUsr] ++ (bytesLE 3 len ++ (bytesLE 2 msid ++ (bytesLE 2 bank.toNat ++ rest))) := by
    simp [usrHeader]
  rw [hsplit]
  simp (disch := simp) only [List.drop_append, List.drop_of_length_le, List.take_append,
    List.take_of_length_le, length_bytesLE, List.nil_append, Nat.sub_self, Nat.zero_sub,
    List.drop_zero, List.take_zero, List.append_nil, Nat.reduceSub, ofLE_bytesLE,
    List.length_singleton]
  exact ⟨Nat.mod_eq_of_lt hlen3, Nat.mod_eq_of_lt hmsid2, Nat.mod_eq_of_lt hbank, trivial⟩

/-- The receiver handles the chunk that the sender wrote. -/
theorem readUsr_chunk (r : BankReader) (bank : UInt16) {msid : Nat} (hmsid : msid < 2 ^ 16)
    {us : List User} (hlen : us.length ≤ messageChunk) (rest : List UInt8) :
    readUsr sha256 last r (usrHeader bank msid us.length ++ (userCodec.encodeAll us ++ rest)) =
      (handleReadBank sha256 last r bank (.ofNat msid) (.ofNat us.length) (userCodec.encodeAll us),
        rest) := by
  have hchunk : messageChunk = 2 ^ 20 := rfl
  obtain ⟨hlen', hmsid', hsvid, hrest⟩ := parse_usrHeader bank hmsid
    (show us.length < 2 ^ 24 by omega) (userCodec.encodeAll us ++ rest)
  rw [readUsr]
  simp only [hlen', hmsid', hsvid, hrest]
  rw [if_neg (by simp [usrHeader]), if_neg (Nat.not_lt.mpr hlen), if_neg (by simp),
    List.take_left' (userCodec.length_encodeAll us),
    List.drop_left' (userCodec.length_encodeAll us), UInt16.ofNat_toNat]

/-- A chunk that starts where the receiver puts it adds the records' own checksums. -/
theorem BankReader.addUsers_eq (r : BankReader) {bank : UInt16} {us : List User} {k : Nat}
    (hcsum : ∀ i u, us[i]? = some u → u.csum = csumOf sha256 u bank (.ofNat (k + i))) :
    r.addUsers sha256 bank (.ofNat k) us =
      { r with
        lastWeight := us.foldl (fun weight u => weight + u.weight) r.lastWeight
        lastCsum := us.foldl (fun hash u => hash ^^^ u.csum) r.lastCsum } := by
  suffices hsums : ∀ weight hash, us.foldl (fun (acc : Int64 × Hash × UInt32) u =>
      (acc.1 + u.weight, acc.2.1 ^^^ csumOf sha256 u bank acc.2.2, acc.2.2 + 1))
      (weight, hash, .ofNat k) = (us.foldl (fun weight u => weight + u.weight) weight,
        us.foldl (fun hash u => hash ^^^ u.csum) hash, .ofNat (k + us.length)) by
    rw [addUsers, hsums]
  induction us generalizing k with
  | nil => exact fun _ _ => rfl
  | cons u us ih =>
      intro weight hash
      have hfirst := hcsum 0 u rfl
      have hnext : (UInt32.ofNat k) + 1 = .ofNat (k + 1) := (UInt32.ofNat_add k 1).symm
      rw [List.foldl_cons, List.foldl_cons, List.foldl_cons]
      simp only [hnext]
      rw [ih, hfirst, List.length_cons]
      · simp only [Nat.add_zero, Nat.add_comm, Nat.add_left_comm]
      · intro i v hv
        rw [hcsum (i + 1) v hv]
        congr 2
        omega

theorem writeBank_nil (bank : UInt16) (msid : Nat) : writeBank bank [] msid = [] := by
  rw [writeBank, if_pos rfl]

theorem Bank.toNat_users_ofNat (b : Bank sha256) :
    (UInt32.ofNat b.records.length).toNat = b.records.length :=
  UInt32.toNat_ofNat_of_lt' b.length_lt

theorem Bank.toNat_users (b : Bank sha256) : b.users.toNat = b.records.length :=
  UInt32.toNat_ofNat_of_lt' b.length_lt

/-- A bank of one chunk is received. -/
theorem Bank.received_of_one_chunk (b : Bank sha256) (hlast : b.AgreesWith last)
    (hpos : 0 < b.records.length) (hlen : b.records.length ≤ messageChunk) :
    b.Received (b.transfer last) := by
  have hne : b.records ≠ [] := List.length_pos_iff_ne_nil.mp hpos
  have hstream : writeBank b.svid b.records 0 =
      usrHeader b.svid 0 b.records.length ++ (userCodec.encodeAll b.records ++ []) := by
    rw [writeBank, if_neg hne, List.take_of_length_le hlen, List.drop_of_length_le hlen,
      writeBank_nil]
  obtain ⟨fuel, hfuel⟩ : ∃ fuel, (writeBank b.svid b.records 0).length = fuel + 1 := by
    refine ⟨(writeBank b.svid b.records 0).length - 1, ?_⟩
    rw [hstream, List.length_append, length_usrHeader]
    omega
  have hsums : BankReader.addUsers sha256 ⟨b.svid, 0, 0, 0, userCodec.encodeAll b.records⟩ b.svid 0
      b.records = ⟨b.svid, 0, b.weight, b.hash, userCodec.encodeAll b.records⟩ :=
    BankReader.addUsers_eq (k := 0) _ fun i u hu => by
      rw [Nat.zero_add]
      exact b.csum_eq i u hu
  have hdecode := userCodec.decodeAll_encodeAll b.records []
  rw [List.append_nil] at hdecode
  have hhandle : handleReadBank sha256 last {} b.svid (.ofNat 0) (.ofNat b.records.length)
      (userCodec.encodeAll b.records) =
        .done ⟨b.svid, 0, b.weight, b.hash, userCodec.encodeAll b.records⟩ := by
    have hzero : UInt32.ofNat 0 = 0 := rfl
    have hcount : UInt32.ofNat b.records.length + 0x10000 * 0 = (last.node b.svid).users := by
      rw [hlast.users, Bank.users, UInt32.mul_zero, UInt32.add_zero]
    rw [handleReadBank, hzero, hcount,
      if_neg (not_or.mpr ⟨b.svid_ne_zero, Nat.not_le.mpr hlast.size⟩),
      if_neg (UInt32.lt_irrefl _), if_neg (fun h => h.1 rfl)]
    simp only [if_true, List.nil_append, b.toNat_users_ofNat, hdecode, UInt32.mul_zero]
    rw [if_neg (UInt32.lt_irrefl _), hsums]
    exact (if_neg (not_not.mpr hlast.weight)).trans (if_neg (not_not.mpr hlast.hash))
  refine ⟨⟨b.svid, 0, b.weight, b.hash, userCodec.encodeAll b.records⟩, ?_, rfl, ?_, rfl, rfl⟩
  · rw [Bank.transfer, hfuel, receiveBank, if_neg]
    · rw [hstream, readUsr_chunk {} b.svid (by decide) hlen, hhandle]
    · rw [hstream]
      simp [usrHeader]
  · rw [b.toNat_users]
    exact hdecode

/-- A chunk after which records are missing, as the receiver counts them, never ends
the transfer. -/
theorem handleReadBank_ne_done (r r' : BankReader) (bank : UInt16) {msid len : Nat}
    (body : List UInt8) (h : len + 0x10000 * msid < (last.node bank).users.toNat) :
    handleReadBank sha256 last r bank (.ofNat msid) (.ofNat len) body ≠ .done r' := by
  have hcount : UInt32.ofNat len + 0x10000 * UInt32.ofNat msid = .ofNat (len + 0x10000 * msid) := by
    rw [UInt32.ofNat_add, UInt32.ofNat_mul]
    rfl
  have hmissing : UInt32.ofNat (len + 0x10000 * msid) < (last.node bank).users := by
    rw [UInt32.lt_iff_toNat_lt, UInt32.toNat_ofNat_of_lt' (h.trans (UInt32.toNat_lt _))]
    exact h
  intro hdone
  rw [handleReadBank] at hdone
  simp only [hcount] at hdone
  split at hdone
  · cases hdone
  split at hdone
  · cases hdone
  split at hdone
  · cases hdone
  cases hdone

theorem receiveBank_nil (fuel : Nat) (r : BankReader) :
    receiveBank sha256 last fuel r [] = .waiting r := by
  cases fuel with
  | zero => rfl
  | succ fuel => rw [receiveBank, if_pos rfl]

/-- From the second chunk on, and in the first one of a bank of several, the receiver
misses records to the end. -/
theorem receiveBank_ne_done (bank : UInt16) (fuel : Nat) (r r' : BankReader) {us : List User}
    {msid : Nat} (hcount : msid * messageChunk + us.length = (last.node bank).users.toNat)
    (hmany : msid = 0 → messageChunk < us.length) :
    receiveBank sha256 last fuel r (writeBank bank us msid) ≠ .done r' := by
  have hchunk : messageChunk = 2 ^ 20 := rfl
  have husers := (last.node bank).users.toNat_lt
  induction fuel generalizing r us msid with
  | zero => rintro ⟨⟩
  | succ fuel ih =>
      rw [receiveBank]
      split
      · rintro ⟨⟩
      rename_i hne
      have hus : us ≠ [] := by
        rintro rfl
        exact hne (writeBank_nil bank msid)
      have hpos := List.length_pos_iff_ne_nil.mpr hus
      have htake : (us.take messageChunk).length = min messageChunk us.length := List.length_take
      rw [hchunk] at hcount hmany
      have hmissing : (us.take messageChunk).length + 0x10000 * msid <
          (last.node bank).users.toNat := by
        rw [htake, hchunk]
        rcases Nat.eq_zero_or_pos msid with rfl | hmsid
        · have hlong := hmany rfl
          omega
        · omega
      have hnot := @handleReadBank_ne_done sha256 last r r' bank msid _
        (userCodec.encodeAll (us.take messageChunk)) hmissing
      rw [writeBank, if_neg hus, readUsr_chunk r bank (by omega) (by rw [htake]; omega)]
      generalize handleReadBank sha256 last r bank _ _ _ = status at hnot ⊢
      cases status with
      | left => rintro ⟨⟩
      | done r₁ => exact hnot
      | waiting r₁ =>
          change receiveBank sha256 last fuel r₁ _ ≠ _
          by_cases hlast : us.length ≤ messageChunk
          · rw [List.drop_of_length_le hlast, writeBank_nil, receiveBank_nil]
            rintro ⟨⟩
          · refine ih _ ?_ (by rintro ⟨⟩)
            rw [List.length_drop, Nat.add_mul, Nat.one_mul, ← hcount, ← hchunk, Nat.add_assoc,
              Nat.add_sub_cancel' (Nat.le_of_not_le hlast)]

/-- The receiver gets the bank exactly when it fits into one chunk and is not empty. -/
theorem Bank.received_iff (b : Bank sha256) (hlast : b.AgreesWith last) :
    b.Received (b.transfer last) ↔ 0 < b.records.length ∧ b.records.length ≤ messageChunk := by
  constructor
  · rintro ⟨r, hdone, -⟩
    by_contra hnot
    rcases Nat.eq_zero_or_pos b.records.length with hzero | hpos
    · rw [Bank.transfer, List.length_eq_zero_iff.mp hzero, writeBank_nil] at hdone
      cases hdone
    · refine receiveBank_ne_done b.svid _ {} r ?_ (fun _ => ?_) hdone
      · rw [hlast.users, b.toNat_users, Nat.zero_mul, Nat.zero_add]
      · exact Nat.not_le.mp fun hle => hnot ⟨hpos, hle⟩
  · rintro ⟨hpos, hlen⟩
    exact b.received_of_one_chunk hlast hpos hlen

/-- A node table with the entry of the bank. -/
def Bank.servers (b : Bank sha256) : Servers where
  nodes := (Table.empty.resize (b.svid.toNat + 1)).set b.svid.toNat
    { users := b.users, weight := b.weight, hash := b.hash }

theorem Bank.agreesWith_servers (b : Bank sha256) : b.AgreesWith b.servers := by
  have hnode : b.servers.node b.svid = { users := b.users, weight := b.weight, hash := b.hash } :=
    if_pos ⟨rfl, Nat.lt_succ_self _⟩
  exact ⟨Nat.lt_succ_self _, by rw [hnode], by rw [hnode], by rw [hnode]⟩

end Transfer

namespace Sample

/-- Bank 1 with a number of equal accounts. -/
def equalBank (sha256 : List UInt8 → Hash) (n : Nat) (hn : n < 2 ^ 32) : Bank sha256 where
  svid := 1
  records := (List.range n).map fun i => userCsum sha256 { msid := 1, weight := 5 } 1 (.ofNat i)
  svid_ne_zero := by decide
  length_lt := by rwa [List.length_map, List.length_range]
  csum_eq i u hu := by
    rw [List.getElem?_map, Option.map_eq_some_iff] at hu
    obtain ⟨j, hj, rfl⟩ := hu
    obtain ⟨-, rfl⟩ := List.getElem?_eq_some_iff.mp hj
    rw [List.getElem_range]
    rfl

theorem length_equalBank (sha256 : List UInt8 → Hash) (n : Nat) (hn : n < 2 ^ 32) :
    (equalBank sha256 n hn).records.length = n := by
  rw [equalBank, List.length_map, List.length_range]

def byteCount (bytes : List UInt8) : Hash := bytes.length

end Sample

/-- A bank of three accounts is received. -/
theorem Bank.received_iff_three :
    (Sample.equalBank Sample.byteCount 3 (by decide)).Received
      ((Sample.equalBank Sample.byteCount 3 (by decide)).transfer
        (Sample.equalBank Sample.byteCount 3 (by decide)).servers) :=
  (Bank.received_iff _ (Bank.agreesWith_servers _)).mpr ⟨by decide, by decide⟩

/-- Of a bank with one account more than a chunk the receiver misses accounts when all
have been sent. -/
theorem Bank.not_received_two_chunks :
    ¬ (Sample.equalBank Sample.byteCount 1048577 (by decide)).Received
      ((Sample.equalBank Sample.byteCount 1048577 (by decide)).transfer
        (Sample.equalBank Sample.byteCount 1048577 (by decide)).servers) := by
  have hlength : (Sample.equalBank Sample.byteCount 1048577 (by decide)).records.length =
      1048577 := Sample.length_equalBank ..
  rintro ⟨r, hdone, -⟩
  generalize Sample.equalBank Sample.byteCount 1048577 (by decide) = b at hlength hdone
  refine receiveBank_ne_done b.svid _ {} r ?_ (fun _ => ?_) hdone
  · rw [b.agreesWith_servers.users, b.toNat_users, Nat.zero_mul, Nat.zero_add]
  · have hchunk : messageChunk = 1048576 := rfl
    rw [hlength, hchunk]
    norm_num

end Esc
