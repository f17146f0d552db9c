import Esc.Lib.Map
import Esc.Peer.BankTransfer
import Esc.Peer.Headers

/-!
# Requests for blocks

`GetBlocksHandler` answers a request for the block headers of a time range with a byte
stream, and `GetBlocks::send` reads it on the client. Both decide on their own which parts
the stream has: the handler from the range rounded to block times, the client from the range
as it was given.

The stored blocks, keys and signatures of the server and the last header and keys of the
client are the surroundings of the two functions.
-/

namespace Esc

open Lib

/-- `header_t`: a block header with the votes for the block. -/
structure VotedHeader extends Header where
  vok : UInt16 := 0
  vno : UInt16 := 0
deriving DecidableEq

/-- The part of a header that is signed: all but the votes. -/
def Header.signedBytes (h : Header) : List UInt8 :=
  bytesLE 4 h.now.toNat ++ (bytesLE 4 h.msg.toNat ++ (bytesLE 4 h.nod.toNat ++
    (bytesLE 4 h.div.toNat ++ (hashBytes h.oldhash ++ (hashBytes h.msghash ++
      (hashBytes h.nodhash ++ (hashBytes h.viphash ++ hashBytes h.nowhash)))))))

def VotedHeader.encode (h : VotedHeader) : List UInt8 :=
  h.signedBytes ++ (bytesLE 2 h.vok.toNat ++ bytesLE 2 h.vno.toNat)

def VotedHeader.decode (bs : List UInt8) : VotedHeader where
  now := .ofNat (ofLE (bs.take 4))
  msg := .ofNat (ofLE ((bs.drop 4).take 4))
  nod := .ofNat (ofLE ((bs.drop 8).take 4))
  div := .ofNat (ofLE ((bs.drop 12).take 4))
  oldhash := .ofNat 256 (ofLE ((bs.drop 16).take 32))
  msghash := .ofNat 256 (ofLE ((bs.drop 48).take 32))
  nodhash := .ofNat 256 (ofLE ((bs.drop 80).take 32))
  viphash := .ofNat 256 (ofLE ((bs.drop 112).take 32))
  nowhash := .ofNat 256 (ofLE ((bs.drop 144).take 32))
  vok := .ofNat (ofLE ((bs.drop 176).take 2))
  vno := .ofNat (ofLE ((bs.drop 178).take 2))

theorem VotedHeader.decode_encode (h : VotedHeader) (rest : List UInt8) :
    VotedHeader.decode (h.encode ++ rest) = h := by
  simp only [VotedHeader.decode, VotedHeader.encode, Header.signedBytes, hashBytes,
    List.append_assoc]
  simp (disch := simp) only [List.drop_append, List.drop_of_length_le, List.take_append,
    List.take_of_length_le, length_bytesLE, List.nil_append, Nat.sub_self, List.drop_zero,
    List.take_zero, List.append_nil, Nat.reduceSub, ofLE_bytesLE, ofNat_toNat_mod32,
    ofNat_toNat_mod16, ofNat_toNat_mod256]

def headerCodec : Codec VotedHeader where
  width := 180
  encode := VotedHeader.encode
  decode := VotedHeader.decode
  length_encode h := by simp [VotedHeader.encode, Header.signedBytes]
  decode_encode := VotedHeader.decode_encode

/-- The signature of a VIP node under a block header. -/
structure VipSignature where
  svid : UInt16
  signature : Signature
deriving DecidableEq

def signatureCodec : Codec VipSignature where
  width := 66
  encode s := bytesLE 2 s.svid.toNat ++ bytesLE 64 s.signature.toNat
  decode bs := ⟨.ofNat (ofLE (bs.take 2)), .ofNat 512 (ofLE ((bs.drop 2).take 64))⟩
  length_encode s := by simp
  decode_encode s rest := by
    simp only [List.append_assoc]
    simp (disch := simp) only [List.drop_append, List.drop_of_length_le, List.take_append,
      List.take_of_length_le, length_bytesLE, List.nil_append, Nat.sub_self, List.drop_zero,
      List.take_zero, List.append_nil, Nat.zero_sub, ofLE_bytesLE, ofNat_toNat_mod16,
      ofNat_toNat_mod512]

/-- An entry of a VIP key file. -/
structure VipKey where
  svid : UInt16
  key : Hash
deriving DecidableEq

def vipKeyCodec : Codec VipKey where
  width := 34
  encode k := bytesLE 2 k.svid.toNat ++ hashBytes k.key
  decode bs := ⟨.ofNat (ofLE (bs.take 2)), .ofNat 256 (ofLE ((bs.drop 2).take 32))⟩
  length_encode k := by simp
  decode_encode k rest := by
    simp only [hashBytes, List.append_assoc]
    simp (disch := simp) only [List.drop_append, List.drop_of_length_le, List.take_append,
      List.take_of_length_le, length_bytesLE, List.nil_append, Nat.sub_self, List.drop_zero,
      List.take_zero, List.append_nil, Nat.zero_sub, ofLE_bytesLE, ofNat_toNat_mod16,
      ofNat_toNat_mod256]

/-- The hash that `VipKeys::checkVipKeys` compares. -/
def vipKeysHash (c : Crypto) (keys : List VipKey) : Hash :=
  keys.foldl (fun h k => addhash c h k.key) 0

/-- What the handler reads: the first block, the header files (under 0 the last header), the
VIP key files, the signatures of the blocks, the time, and what a failed `stat` leaves in
its buffer. -/
structure BlockStore where
  start : UInt32
  header : UInt32 → Option VotedHeader
  vip : Hash → Option (List VipKey)
  signatures : UInt32 → List VipSignature
  time : UInt32
  stray : Int := 0

namespace BlockStore

variable (c : Crypto) (store : BlockStore)

/-- `Block::readDataFromHeaderFile`: whether the header has the time that was asked for, and
the block data afterwards. -/
def readDataFromHeaderFile (block : VotedHeader) : Bool × VotedHeader :=
  match store.header block.now with
  | none => (false, block)
  | some h => (h.now ≠ 0 && (block.now = 0 || block.now = h.now), h)

def vipSize (viphash : Hash) : Int :=
  match store.vip viphash with
  | some keys => keys.length
  | none => store.stray

/-- The key file of a hash, if it has keys and they have the hash. -/
def checkedKeys (viphash : Hash) : Option (List VipKey) :=
  (store.vip viphash).filter fun keys => keys ≠ [] ∧ vipKeysHash c keys = viphash

end BlockStore

/-- Variables of the loop of `readBlockHeaders`. -/
structure HeaderLoop where
  upto : UInt32
  header : VotedHeader
  block : VotedHeader
  headers : List VotedHeader := []
  newviphash : Bool := false
  lastValid : UInt32 := 0
  invalidCounter : Nat := 0

/-- The block has at most half of the votes of the VIP nodes before it. -/
def BlockStore.tooFewVotes (store : BlockStore) (header block : VotedHeader) : Bool :=
  (block.vok.toNat : Int) ≤ (store.vipSize header.viphash).tdiv 2

/-- One block added by the loop. -/
def HeaderLoop.add (store : BlockStore) (r : HeaderLoop) (block : VotedHeader) : HeaderLoop :=
  let changed := r.header.viphash ≠ block.viphash
  let few := store.tooFewVotes r.header block
  { upto := if changed then block.now else r.upto
    header := block
    block := { block with now := block.now + blockSec }
    headers := r.headers ++ [block]
    newviphash := r.newviphash || changed
    lastValid := if few then r.lastValid else block.now
    invalidCounter := if few then r.invalidCounter + 1 else 0 }

/-- The loop, for at most `n` blocks. -/
def HeaderLoop.run (store : BlockStore) : Nat → HeaderLoop → HeaderLoop
  | 0, r => r
  | n + 1, r =>
      if r.block.now ≤ r.upto then
        match store.readDataFromHeaderFile r.block with
        | (false, block) => { r with block := block }
        | (true, block) => HeaderLoop.run store n (r.add store block)
      else r

/-- `readBlockHeaders`: the blocks at the end that have too few votes are dropped. The range
has so many blocks that the loop ends by itself. -/
def readBlockHeaders (store : BlockStore) (start upto : UInt32) (header block : VotedHeader) :
    HeaderLoop :=
  let r := HeaderLoop.run store ((upto.toNat - start.toNat) / blockSec.toNat + 1)
    { upto := upto, header := header, block := { block with now := start } }
  { r with
    block := { r.block with now := r.lastValid }
    headers := r.headers.take (r.headers.length - r.invalidCounter) }

/-- What the handler sends when there is no error. -/
structure BlocksResponse where
  firstVipKeys : List VipKey := []
  headers : List VotedHeader := []
  newviphash : Bool := false
  signatures : List VipSignature := []
  newVipKeys : List VipKey := []

inductive BlocksError where
  | failedToReadBlockStart
  | failedToReadBlockAtStart
  | couldNotReadCorrectVipKeys
  | noBlockInSpecifiedRange
deriving DecidableEq

/-- The start of the block of a time. -/
def roundTime (t : UInt32) : UInt32 := t - t % blockSec

/-- The part of `prepareResponse` behind the choice of the first header. -/
def prepareBlocks (c : Crypto) (store : BlockStore) (start upto : UInt32)
    (header block : VotedHeader) (firstVipKeys : List VipKey) :
    Except BlocksError BlocksResponse :=
  let upto := if upto = 0 then store.time - (store.time % blockSec - blockSec) else upto
  if upto < start then .ok { firstVipKeys }
  else
    let r := readBlockHeaders store start upto header block
    if r.headers ≠ [] then
      .ok {
        firstVipKeys
        headers := r.headers
        newviphash := r.newviphash
        signatures := store.signatures r.block.now
        newVipKeys := if r.newviphash then (store.checkedKeys c r.block.viphash).getD [] else [] }
    else if r.block.now < start then .ok { firstVipKeys, newviphash := r.newviphash }
    else .error .noBlockInSpecifiedRange

/-- The first VIP keys are wanted for a range from the beginning or of one block. -/
def wantsFirstKeys (start upto : UInt32) : Bool := start = 0 || start = upto

/-- `prepareResponse`. -/
def prepareResponse (c : Crypto) (store : BlockStore) (fromTime toTime : UInt32) :
    Except BlocksError BlocksResponse :=
  let start := roundTime fromTime
  let upto := roundTime toTime
  if store.start = 0 then .error .failedToReadBlockStart
  else if wantsFirstKeys start upto then
    let start := if start = 0 then store.start else start
    match store.readDataFromHeaderFile { now := start, nowhash := 0 } with
    | (false, _) => .error .failedToReadBlockAtStart
    | (true, block) =>
        match store.checkedKeys c block.viphash with
        | none => .error .couldNotReadCorrectVipKeys
        | some keys => prepareBlocks c store start upto block block keys
  else if start < store.start then .error .noBlockInSpecifiedRange
  else
    match store.readDataFromHeaderFile { now := start - blockSec, nowhash := 0 } with
    | (false, block) => prepareBlocks c store start upto { now := 0, nowhash := 0 } block []
    | (true, block) => prepareBlocks c store start upto block block []

def BlocksError.code : BlocksError → Nat
  | failedToReadBlockStart => 53
  | failedToReadBlockAtStart => 54
  | noBlockInSpecifiedRange => 55
  | couldNotReadCorrectVipKeys => 56

/-- The length of a list of records in bytes and the records. -/
def keysBytes (keys : List VipKey) : List UInt8 :=
  bytesLE 4 (34 * keys.length) ++ vipKeyCodec.encodeAll keys

/-- Signatures and new keys follow when there are headers. -/
def BlocksResponse.lastBytes (r : BlocksResponse) : List UInt8 :=
  if r.headers = [] then []
  else bytesLE 4 r.signatures.length ++ (signatureCodec.encodeAll r.signatures ++
    if r.newVipKeys = [] then bytesLE 4 0 else keysBytes r.newVipKeys)

def BlocksResponse.headerBytes (r : BlocksResponse) : List UInt8 :=
  bytesLE 4 r.headers.length ++ (headerCodec.encodeAll r.headers ++
    (if r.newviphash then 1 else 0) :: r.lastBytes)

/-- The response of `onExecute` behind its size. -/
def responseBytes : Except BlocksError BlocksResponse → List UInt8
  | .error e => bytesLE 4 e.code
  | .ok r => bytesLE 4 0 ++
      ((if r.firstVipKeys = [] then [] else keysBytes r.firstVipKeys) ++ r.headerBytes)

/-- What the client has: its last header and VIP key files. -/
structure BlocksClient where
  last : Option VotedHeader
  vip : Hash → Option (List VipKey)

/-- A number of four bytes. -/
def readNumber (stream : List UInt8) : Option (Nat × List UInt8) :=
  (readData 4 stream).map fun (bytes, stream) => (ofLE bytes, stream)

/-- The keys in a buffer of `length` bytes. -/
def readKeys (length : Nat) (stream : List UInt8) : Option (List VipKey × List UInt8) :=
  (readData length stream).map fun (bytes, stream) =>
    (vipKeyCodec.decodeAll (length / 34) bytes, stream)

/-- `receiveFirstVipKeys`. -/
def receiveFirstVipKeys (stream : List UInt8) : Option (List VipKey × List UInt8) := do
  let (length, stream) ← readNumber stream
  if length = 0 then none else readKeys length stream

/-- The first keys, if the range as it was given asks for them. -/
def receiveWantedKeys (fromTime toTime : UInt32) (stream : List UInt8) :
    Option (Option (List VipKey) × List UInt8) :=
  if wantsFirstKeys fromTime toTime then
    (receiveFirstVipKeys stream).map fun (keys, stream) => (some keys, stream)
  else some (none, stream)

/-- `receiveHeaders`; the flag for new keys is not used later. -/
def receiveHeaders (stream : List UInt8) : Option (List VotedHeader × List UInt8) := do
  let (count, stream) ← readNumber stream
  let (headers, stream) ← headerCodec.readAll count stream
  let (_, stream) ← readData 1 stream
  return (headers, stream)

/-- What `loadLastHeader` takes from the first header or from the last one known: the hash of
the VIP keys, the hash of the block before, and the keys. -/
structure Anchor where
  viphash : Hash
  oldhash : Hash
  keys : List VipKey

def loadLastHeader (c : Crypto) (client : BlocksClient) (first : VotedHeader) :
    Option (List VipKey) → Option Anchor
  | some keys =>
      if vipKeysHash c keys ≠ first.viphash then none
      else if first.nowhash ≠ first.hashnow c then none
      else some ⟨first.viphash, first.oldhash, keys⟩
  | none => do
      let last ← client.last
      if last.now + blockSec ≠ first.now then none
      else some ⟨last.viphash, last.nowhash, (client.vip last.viphash).getD []⟩

def receiveSignatures (stream : List UInt8) : Option (List VipSignature × List UInt8) := do
  let (count, stream) ← readNumber stream
  signatureCodec.readAll count stream

/-- `receiveNewVipKeys`: the keys must have the hash of the last header. -/
def receiveNewVipKeys (c : Crypto) (viphash : Hash) (stream : List UInt8) :
    Option (List UInt8) := do
  let (length, stream) ← readNumber stream
  if length = 0 then return stream
  else
    let (keys, stream) ← readKeys length stream
    if vipKeysHash c keys = viphash then return stream else none

/-- `validateChain`. -/
def validateChain (c : Crypto) (viphash : Hash) : Hash → List VotedHeader → Bool
  | _, [] => true
  | oldhash, h :: hs =>
      (hs = [] || h.viphash = viphash) && h.oldhash = oldhash && h.nowhash = h.hashnow c &&
        validateChain c viphash h.nowhash hs

/-- The keys by node. -/
def keyMap (keys : List VipKey) : Map UInt16 Hash := keys.foldl (fun m k => m.insert k.svid k.key) ∅

/-- The signature was made with the key of its node. -/
def VipSignature.valid (c : Crypto) (keys : List VipKey) (h : Header) (s : VipSignature) : Bool :=
  (keyMap keys)[s.svid]?.any fun key => c.signOpen key h.signedBytes s.signature

/-- `validateLastBlockUsingFirstKeys`. -/
def validateLastBlock (c : Crypto) (keys : List VipKey) (last : Header)
    (signatures : List VipSignature) : Bool :=
  (keyMap keys).size ≤ 2 * (signatures.filter (VipSignature.valid c keys last)).length

/-- `GetBlocks::send` behind the size of the response: the bytes that it has not read when it
returns true, `none` when it returns false. -/
def getBlocksSend (c : Crypto) (client : BlocksClient) (fromTime toTime : UInt32)
    (stream : List UInt8) : Option (List UInt8) := do
  let (code, stream) ← readNumber stream
  if code ≠ 0 then return stream
  else
    let (keys, stream) ← receiveWantedKeys fromTime toTime stream
    let (headers, stream) ← receiveHeaders stream
    match headers.head?, headers.getLast? with
    | some first, some last =>
        let anchor ← loadLastHeader c client first keys
        let (signatures, stream) ← receiveSignatures stream
        let stream ← receiveNewVipKeys c last.viphash stream
        if !validateChain c anchor.viphash anchor.oldhash headers then none
        else if !validateLastBlock c anchor.keys last.toHeader signatures then none
        else return stream
    | _, _ => return stream

end Esc
