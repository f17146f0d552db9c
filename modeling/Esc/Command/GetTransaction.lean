import Esc.Command.Response
import Esc.Message.TreePath
import Esc.Server.ListPath

/-!
# Reading a transaction

A client asks for a transaction by its node, the number of the message and its position. The server
looks up the block of the message, takes the transaction from the file of the message, and sends it
with the hashes that join it to the hash of the block. The client checks the hashes.

The length of the transaction is sent as a number of 16 bits in front of its bytes.
-/

namespace Esc

open Lib

variable {memory : Bytes} {fd : BlockFileReader}

/-! ## The server -/

structure GetTransactionResponse where
  path : UInt32
  msid : UInt32
  node : UInt16
  tnum : UInt16
  len : UInt16
  hnum : UInt16
deriving DecidableEq

def getTransactionResponseCodec : Codec GetTransactionResponse :=
  (u32Codec.prod (u32Codec.prod (u16Codec.prod (u16Codec.prod (u16Codec.prod u16Codec))))).map
    (fun p => ⟨p.1, p.2.1, p.2.2.1, p.2.2.2.1, p.2.2.2.2.1, p.2.2.2.2.2⟩)
    (fun r => (r.path, r.msid, r.node, r.tnum, r.len, r.hnum)) fun _ => rfl

/-- The files of the server: the index of each node, and in the directory of a block the messages,
the list of messages and what `data_read` finds in the header. -/
structure BlockFiles where
  inx : UInt16 → Option (List UInt8)
  message : UInt32 → UInt16 → UInt32 → BlockFileReader
  msglist : UInt32 → BlockFileReader
  header : UInt32 → Option SrvHeader

/-- `message::load_path`: the block of a message. -/
def BlockFiles.loadPath (files : BlockFiles) (svid : UInt16) (msid : UInt32) : UInt32 :=
  match files.inx svid with
  | none => 0
  | some file => .ofNat (ofLE (slice file (msid.toNat * 4) 4))

structure TransactionReply where
  errorCode : UInt32
  res : GetTransactionResponse := ⟨0, 0, 0, 0, 0, 0⟩
  data : List UInt8 := []
  hashes : List Hash := []

/-- `GetTransactionHandler::onExecute` until the response. -/
def getTransaction (c : Crypto) (memory : Bytes) (lastPath : UInt32) (files : BlockFiles)
    (svid : UInt16) (msid : UInt32) (position : UInt16) : Except Stop TransactionReply :=
  let path := files.loadPath svid msid
  if path = 0 ∨ lastPath < path then .ok { errorCode := eFailToProvideTxnInfo }
  else
    match hashTreeGet c memory msgtypeMsg (files.message path svid msid) position.toUInt32 with
    | .error .fail => .ok { errorCode := eFailToReadTxnInfo }
    | .error .abort => .error .abort
    | .ok msg =>
      match msglHashTreeGet c memory { now := path } (files.header path) (files.msglist path) svid
          msid msg.mnum msg.hashes with
      | .error .fail => .ok { errorCode := eFailToGetHashTree }
      | .error .abort => .error .abort
      | .ok hashes => .ok {
          errorCode := eNone
          res := {
            path, msid
            node := svid
            tnum := position
            len := .ofNat msg.data.length
            hnum := .ofNat hashes.length }
          data := msg.data
          hashes }

/-- The response on the wire. -/
def TransactionReply.bytes (r : TransactionReply) : List UInt8 :=
  sendResponse (u32Codec.encode r.errorCode ::
    if r.errorCode = eNone then
      getTransactionResponseCodec.encode r.res :: r.data :: r.hashes.map hashCodec.encode
    else [])

/-! ## The client -/

/-- `Servers::loadNowhash` with the files of hashes that the client keeps. -/
def loadNowhash (nowFile : UInt32 → Option (List UInt8)) (ttime : UInt32) : Option Hash := do
  let file ← nowFile (ttime >>> 20)
  let (hash, _) ← hashCodec.read (file.drop (((ttime &&& 0xFFFFF) / blockSec).toNat * 32))
  return hash

/-- `GetTransaction::checkMessageHash`, as the error that it sets. -/
def checkMessageHash (c : Crypto) (nowFile : UInt32 → Option (List UInt8)) (svid : UInt16)
    (msid : UInt32) (tnum : UInt16) (header : GetTransactionResponse) (data : List UInt8)
    (hashes : List Hash) : UInt32 :=
  if header.path = 0 then eGotEmptyBlock
  else if header.node ≠ svid ∨ header.msid ≠ msid ∨ header.tnum ≠ tnum then eIncorrectTransaction
  else
    match loadNowhash nowFile header.path with
    | none => eFailedToLoadHash
    | some nowhash =>
      let nhash := txsLeafWords c data svid msid tnum
      if hashes.head? ≠ some nhash then eHashMismatch
      else if HashTree.hashpathrun c nhash hashes ≠ nowhash then eHashMismatch
      else eNone

/-- What the client knows at the end: the error, and the parts of the response. -/
structure ReceivedTransaction where
  error : UInt32
  header : GetTransactionResponse := ⟨0, 0, 0, 0, 0, 0⟩
  data : List UInt8 := []
  hashes : List Hash := []
deriving DecidableEq

/-- `GetTransaction::send` from the response on, without the local copy; `none` if it fails or
waits. -/
def receiveTransaction (c : Crypto) (nowFile : UInt32 → Option (List UInt8)) (svid : UInt16)
    (msid : UInt32) (tnum : UInt16) (stream : List UInt8) : Option ReceivedTransaction := do
  let r ← readResponseError stream
  if r.error ≠ eNone then return { error := r.error }
  let (header, stream) ← getTransactionResponseCodec.read r.stream
  let (data, stream) ← readData header.len.toNat stream
  let (hashes, _) ← hashCodec.readAll header.hnum.toNat stream
  return ⟨checkMessageHash c nowFile svid msid tnum header data hashes, header, data, hashes⟩

/-! ## The transfer -/

section Transfer

variable {c : Crypto} {nowFile : UInt32 → Option (List UInt8)} {svid : UInt16} {msid : UInt32}
  {tnum : UInt16} {reply : TransactionReply}

/-- What the client reads of a response without an error. -/
theorem receiveTransaction_bytes (herror : reply.errorCode = eNone) :
    receiveTransaction c nowFile svid msid tnum reply.bytes =
      (readData reply.res.len.toNat (reply.data ++ hashCodec.encodeAll reply.hashes)).bind fun p =>
        (hashCodec.readAll reply.res.hnum.toNat p.2).map fun q =>
          ⟨checkMessageHash c nowFile svid msid tnum reply.res p.1 q.1, reply.res, p.1, q.1⟩ := by
  have hbytes : (getTransactionResponseCodec.encode reply.res :: reply.data ::
      reply.hashes.map hashCodec.encode).flatten = getTransactionResponseCodec.encode reply.res ++
        (reply.data ++ hashCodec.encodeAll reply.hashes) := by
    rw [List.flatten_cons, List.flatten_cons, Codec.encodeAll, List.flatMap_def]
  rw [receiveTransaction, TransactionReply.bytes, if_pos herror, herror,
    readResponseError_sendResponse, hbytes]
  simp only [Option.bind_eq_bind, Option.bind_some, ne_eq, not_true_eq_false, if_false,
    Codec.read_append, Option.pure_def]
  congr 1
  funext p
  cases hashCodec.readAll reply.res.hnum.toNat p.2 <;> rfl

/-- A response is received as it was sent if its numbers fit their fields. -/
theorem receiveTransaction_of_fits (herror : reply.errorCode = eNone)
    (hlen : reply.res.len.toNat = reply.data.length)
    (hnum : reply.res.hnum.toNat = reply.hashes.length) :
    receiveTransaction c nowFile svid msid tnum reply.bytes =
      some ⟨checkMessageHash c nowFile svid msid tnum reply.res reply.data reply.hashes, reply.res,
        reply.data, reply.hashes⟩ := by
  have hread := hashCodec.readAll_encodeAll reply.hashes []
  rw [List.append_nil] at hread
  rw [receiveTransaction_bytes herror, hlen, hnum, readData_append _ rfl, Option.bind_some, hread,
    Option.map_some]

/-- The client takes as many bytes as the field says. -/
theorem length_of_receiveTransaction (herror : reply.errorCode = eNone) {r : ReceivedTransaction}
    (h : receiveTransaction c nowFile svid msid tnum reply.bytes = some r) :
    r.data.length = reply.res.len.toNat := by
  rw [receiveTransaction_bytes herror] at h
  obtain ⟨p, hp, h⟩ := Option.bind_eq_some_iff.mp h
  obtain ⟨q, -, rfl⟩ := Option.map_eq_some_iff.mp h
  exact (length_of_readData hp).1

end Transfer

/-! ## The number of hashes -/

theorem HashTree.length_hashpathLoop_le (posend : UInt32) (fuel : Nat)
    (hashnum hashmax posnum posfin diff : UInt32) :
    (HashTree.hashpathLoop posend fuel hashnum hashmax posnum posfin diff).length ≤ fuel := by
  induction fuel generalizing hashnum hashmax posnum posfin diff with
  | zero => exact Nat.le_refl 0
  | succ fuel ih =>
    have hadd (a : UInt32) :
        (if a < posend then [a] else if 0 < posfin then [posfin] else []).length ≤ 1 := by
      split
      · exact Nat.le_refl 1
      · split
        · exact Nat.le_refl 1
        · exact Nat.zero_le 1
    rw [HashTree.hashpathLoop]
    split
    · dsimp only
      rw [List.length_append, Nat.add_comm]
      exact Nat.add_le_add (ih _ _ _ _ _) (hadd _)
    · exact Nat.zero_le _

theorem HashTree.length_hashpath_le (hashnum hashmax : UInt32) :
    (HashTree.hashpath hashnum hashmax).length ≤ 32 :=
  HashTree.length_hashpathLoop_le _ _ _ _ _ _ _

theorem length_of_readStored {start leaf m : UInt32} {inside : UInt32 → Bool} {ns : List UInt32}
    {r : BlockFileReader} {hashes : List Hash}
    (h : readStored memory start leaf m inside ns r = .ok hashes) : hashes.length = ns.length := by
  induction ns generalizing r hashes with
  | nil =>
    cases h
    rfl
  | cons n ns ih =>
    rw [readStored, bind_eq_ok_iff] at h
    obtain ⟨position, -, h⟩ := h
    obtain ⟨⟨b, r'⟩, -, h⟩ := bind_eq_ok_iff.mp h
    obtain ⟨rest, hrest, h⟩ := bind_eq_ok_iff.mp h
    cases h
    rw [List.length_cons, List.length_cons, ih hrest]

theorem length_of_treeEntry {mlen tmax tnum : UInt32} {r : TreeEntry × BlockFileReader}
    (h : treeEntry memory mlen tmax tnum fd = .ok r) :
    r.1.hashes.length ≤ 2 := by
  rw [treeEntry] at h
  split at h
  · obtain ⟨p, -, h⟩ := bind_eq_ok_iff.mp h
    cases h
    exact Nat.le_refl 2
  · obtain ⟨p, -, h⟩ := bind_eq_ok_iff.mp h
    dsimp only at h
    split at h
    · cases h
      exact Nat.le_succ 1
    · cases h
      exact Nat.le_refl 2

theorem length_of_hashTreeGet {c : Crypto} {hashtype : UInt8} {tnum : UInt32} {path : TreePath}
    (h : hashTreeGet c memory hashtype fd tnum = .ok path) : path.hashes.length ≤ 34 := by
  rw [hashTreeGet] at h
  obtain ⟨-, h⟩ := require_bind_eq_ok.mp h
  obtain ⟨-, h⟩ := require_bind_eq_ok.mp h
  obtain ⟨mlen, -, h⟩ := bind_eq_ok_iff.mp h
  obtain ⟨-, h⟩ := require_bind_eq_ok.mp h
  obtain ⟨mhash, -, h⟩ := bind_eq_ok_iff.mp h
  obtain ⟨mnum, -, h⟩ := bind_eq_ok_iff.mp h
  obtain ⟨ttot, -, h⟩ := bind_eq_ok_iff.mp h
  obtain ⟨tmax, -, h⟩ := bind_eq_ok_iff.mp h
  obtain ⟨-, h⟩ := require_bind_eq_ok.mp h
  obtain ⟨-, h⟩ := require_bind_eq_ok.mp h
  obtain ⟨entry, hentry, h⟩ := bind_eq_ok_iff.mp h
  obtain ⟨-, h⟩ := require_bind_eq_ok.mp h
  obtain ⟨data, -, h⟩ := bind_eq_ok_iff.mp h
  obtain ⟨stored, hstored, h⟩ := bind_eq_ok_iff.mp h
  obtain ⟨-, h⟩ := require_bind_eq_ok.mp h
  cases h
  rw [List.length_append, length_of_readStored hstored]
  exact Nat.add_le_add (length_of_treeEntry hentry) (HashTree.length_hashpath_le _ _)

theorem length_of_listEntry {svid : UInt16} {msid msg mnum : UInt32}
    {r : List Hash × BlockFileReader} (h : listEntry memory svid msid msg mnum fd = .ok r) :
    r.1.length ≤ 1 := by
  rw [listEntry] at h
  split at h
  · obtain ⟨p, -, h⟩ := bind_eq_ok_iff.mp h
    obtain ⟨-, h⟩ := require_bind_eq_ok.mp h
    cases h
    exact Nat.le_refl 1
  · obtain ⟨p, -, h⟩ := bind_eq_ok_iff.mp h
    obtain ⟨-, h⟩ := require_bind_eq_ok.mp h
    cases h
    dsimp only
    split
    · exact Nat.le_refl 1
    · exact Nat.zero_le 1

theorem length_of_msglHashTreeGet {c : Crypto} {srv : SrvHeader} {dataRead : Option SrvHeader}
    {svid : UInt16} {msid mnum : UInt32} {hashes all : List Hash}
    (h : msglHashTreeGet c memory srv dataRead fd svid msid mnum hashes = .ok all) :
    all.length ≤ hashes.length + 34 := by
  rw [msglHashTreeGet] at h
  obtain ⟨-, h⟩ := require_bind_eq_ok.mp h
  obtain ⟨block, -, h⟩ := bind_eq_ok_iff.mp h
  obtain ⟨-, h⟩ := require_bind_eq_ok.mp h
  obtain ⟨entry, hentry, h⟩ := bind_eq_ok_iff.mp h
  obtain ⟨htot, -, h⟩ := bind_eq_ok_iff.mp h
  obtain ⟨stored, hstored, h⟩ := bind_eq_ok_iff.mp h
  obtain ⟨-, h⟩ := require_bind_eq_ok.mp h
  obtain ⟨-, h⟩ := require_bind_eq_ok.mp h
  cases h
  have hlength := length_of_listEntry hentry
  have hpath := HashTree.length_hashpath_le ((mnum - 1) / 2) ((block.msg + 1) / 2)
  simp only [List.length_append, List.length_singleton, length_of_readStored hstored]
  omega

end Esc
