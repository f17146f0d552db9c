import Esc.Command.Response
import Esc.Helper.BlockFileReader

/-!
# Reading the broadcasts of a block

The server appends the broadcasts of a block to a file. A client that asks for them receives a
header with the size of the file, followed by the file. The server stops after ten megabytes, but
it announces the whole size, so the client of a longer log waits for bytes that are never sent.
-/

namespace Esc

open Lib

variable {blockTime lpath : UInt32} {fuel : Nat} {bs : List GetBroadcastResponse} {stack : Bytes}
  {logs : UInt32 → BlockFileReader}

/-- Logs larger than this are not submitted to clients. -/
def maxBlgSize : Nat := 10 * 1024 * 1024

structure SendBroadcastInfo where
  ttype : UInt8
  srcNode : UInt16
  srcUser : UInt32
  msgId : UInt32
  ttime : UInt32
  msgLength : UInt16
deriving DecidableEq

/-- What follows the message of a broadcast in the log. -/
structure GetBroadcastAdditionalData where
  sign : Signature
  hash : Hash
  pkey : Hash
  msid : UInt32
  mpos : UInt32
deriving DecidableEq

def sendBroadcastInfoCodec : Codec SendBroadcastInfo :=
  (u8Codec.prod (u16Codec.prod (u32Codec.prod (u32Codec.prod (u32Codec.prod u16Codec))))).map
    (fun p => ⟨p.1, p.2.1, p.2.2.1, p.2.2.2.1, p.2.2.2.2.1, p.2.2.2.2.2⟩)
    (fun i => (i.ttype, i.srcNode, i.srcUser, i.msgId, i.ttime, i.msgLength)) fun _ => rfl

def additionalDataCodec : Codec GetBroadcastAdditionalData :=
  (sigCodec.prod (hashCodec.prod (hashCodec.prod (u32Codec.prod u32Codec)))).map
    (fun p => ⟨p.1, p.2.1, p.2.2.1, p.2.2.2.1, p.2.2.2.2⟩)
    (fun d => (d.sign, d.hash, d.pkey, d.msid, d.mpos)) fun _ => rfl

/-- A broadcast as the client keeps it. -/
structure GetBroadcastResponse where
  info : SendBroadcastInfo
  data : GetBroadcastAdditionalData
  message : List UInt8
  length : message.length = info.msgLength.toNat

/-- `log_broadcast` appends a transaction and where it was found. -/
def logBroadcast (file p : List UInt8) (hash pkey : Hash) (msid mpos : UInt32) : List UInt8 :=
  file ++ (p ++ (hashCodec.encode hash ++ (hashCodec.encode pkey ++ (u32Codec.encode msid ++
    u32Codec.encode mpos))))

/-- The bytes of the transaction: its fields, the message and the signature. -/
def GetBroadcastResponse.txs (b : GetBroadcastResponse) : List UInt8 :=
  sendBroadcastInfoCodec.encode b.info ++ (b.message ++ sigCodec.encode b.data.sign)

/-- The log after a number of broadcasts. -/
def broadcastFile (bs : List GetBroadcastResponse) : List UInt8 :=
  bs.foldl (fun file b =>
    logBroadcast file b.txs b.data.hash b.data.pkey b.data.msid b.data.mpos) []

/-! ## The server -/

structure BroadcastFileHeader where
  path : UInt32
  lpath : UInt32
  fileSize : UInt32
deriving DecidableEq

def broadcastFileHeaderCodec : Codec BroadcastFileHeader :=
  (u32Codec.prod (u32Codec.prod u32Codec)).map (fun p => ⟨p.1, p.2.1, p.2.2⟩)
    (fun h => (h.path, h.lpath, h.fileSize)) fun _ => rfl

/-- The blocks of at most `MESSAGE_CHUNK` bytes. What a read does not fill stays as it was on the
stack. The number of blocks is bounded by `fuel`. -/
def readBlocks (stack : Bytes) : Nat → Nat → BlockFileReader → Option (List (List UInt8))
  | 0, _, _ => none
  | fuel + 1, remainData, file =>
    if remainData = 0 then some []
    else do
      let sizeOfBlock := min remainData messageChunk
      let (bytes, file) ← file.read (.ofNat sizeOfBlock)
      let messageBlock := (Bytes.ofList bytes stack).take sizeOfBlock
      let rest ← readBlocks stack fuel (remainData - sizeOfBlock) file
      return messageBlock :: rest

/-- The block that a request is about. -/
def broadcastPath (lpath blockTime : UInt32) : UInt32 :=
  if blockTime = 0 then lpath else blockTime - blockTime % blockSec

structure BroadcastReply where
  errorCode : UInt32
  header : BroadcastFileHeader
  fileBuffer : List (List UInt8)

/-- `GetBroadcastMsgHandler::onExecute` until the response; `none` is a failed assertion in the
reader. -/
def getBroadcastMsg (stack : Bytes) (lpath blockTime : UInt32) (logs : UInt32 → BlockFileReader) :
    Option BroadcastReply :=
  let path := broadcastPath lpath blockTime
  if lpath < path then some ⟨eBroadcastNotReady, ⟨path, lpath, 0⟩, []⟩
  else
    let file := logs path
    if file.isOpen = false then some ⟨eNone, ⟨path, lpath, 0⟩, []⟩
    else
      let size := file.getSize
      let remainData := if maxBlgSize < size.toNat then maxBlgSize else size.toNat
      (readBlocks stack (remainData + 1) remainData file).map fun fileBuffer =>
        ⟨eNone, ⟨path, lpath, size⟩, fileBuffer⟩

/-- The response on the wire. -/
def BroadcastReply.bytes (r : BroadcastReply) : List UInt8 :=
  sendResponse (u32Codec.encode r.errorCode ::
    if r.errorCode = eNone then broadcastFileHeaderCodec.encode r.header :: r.fileBuffer else [])

/-! ## The client -/

/-- The message of a broadcast. -/
def readMessage (n : Nat) (buffer : List UInt8) :
    Option ({message : List UInt8 // message.length = n} × List UInt8) :=
  if h : n ≤ buffer.length then
    some (⟨buffer.take n, List.length_take_of_le h⟩, buffer.drop n)
  else none

/-- `readDataBuffer`; `none` if it reads behind the buffer. Each broadcast takes more than a byte,
so the length of the buffer bounds their number. -/
def readDataBuffer : Nat → List UInt8 → Option (List GetBroadcastResponse)
  | 0, _ => none
  | fuel + 1, buffer =>
    if buffer = [] then some []
    else do
      let (info, buffer) ← sendBroadcastInfoCodec.read buffer
      let (message, buffer) ← readMessage info.msgLength.toNat buffer
      let (data, buffer) ← additionalDataCodec.read buffer
      let rest ← readDataBuffer fuel buffer
      return ⟨info, data, message.1, message.2⟩ :: rest

/-- The length that a read of an unsigned number of bytes passes to the socket as an `int`. -/
def readLength (n : UInt32) : Nat :=
  if n.toNat < 2 ^ 31 then n.toNat else n.toNat + (2 ^ 64 - 2 ^ 32)

/-- `GetBroadcastMsg::send` from the response on, without the local copy; `none` if it fails, waits
or reads behind its buffer. -/
def receiveBroadcasts (stream : List UInt8) :
    Option (UInt32 × BroadcastFileHeader × List GetBroadcastResponse) := do
  let r ← readResponseError stream
  if r.error ≠ eNone then return (r.error, ⟨0, 0, 0⟩, [])
  let (header, stream) ← broadcastFileHeaderCodec.read r.stream
  let (buffer, _) ← readData (readLength header.fileSize) stream
  let broadcasts ← readDataBuffer (buffer.length + 1) buffer
  return (eNone, header, broadcasts)

/-! ## The transfer -/

/-- A broadcast in the log. -/
def GetBroadcastResponse.bytes (b : GetBroadcastResponse) : List UInt8 :=
  sendBroadcastInfoCodec.encode b.info ++ (b.message ++ additionalDataCodec.encode b.data)

theorem GetBroadcastResponse.length_bytes (b : GetBroadcastResponse) :
    b.bytes.length = 17 + (b.info.msgLength.toNat + 136) := by
  rw [bytes, List.length_append, List.length_append, Codec.length_encode, Codec.length_encode,
    b.length]
  rfl

theorem logBroadcast_eq (file : List UInt8) (b : GetBroadcastResponse) :
    logBroadcast file b.txs b.data.hash b.data.pkey b.data.msid b.data.mpos = file ++ b.bytes := by
  rw [logBroadcast, GetBroadcastResponse.txs, GetBroadcastResponse.bytes, List.append_assoc,
    List.append_assoc]
  rfl

theorem broadcastFile_eq (bs : List GetBroadcastResponse) :
    broadcastFile bs = bs.flatMap GetBroadcastResponse.bytes := by
  have hfold (file : List UInt8) :
      bs.foldl (fun file b =>
        logBroadcast file b.txs b.data.hash b.data.pkey b.data.msid b.data.mpos) file =
        file ++ bs.flatMap GetBroadcastResponse.bytes := by
    induction bs generalizing file with
    | nil => rw [List.foldl_nil, List.flatMap_nil, List.append_nil]
    | cons b bs ih => rw [List.foldl_cons, ih, logBroadcast_eq, List.flatMap_cons,
        List.append_assoc]
  exact hfold []

theorem length_le_flatMap (bs : List GetBroadcastResponse) :
    bs.length ≤ (bs.flatMap GetBroadcastResponse.bytes).length := by
  induction bs with
  | nil => exact Nat.le_refl 0
  | cons b bs ih =>
    rw [List.flatMap_cons, List.length_append, List.length_cons, b.length_bytes]
    omega

theorem readMessage_append (b : GetBroadcastResponse) (rest : List UInt8) :
    readMessage b.info.msgLength.toNat (b.message ++ rest) =
      some (⟨b.message, b.length⟩, rest) := by
  have hle : b.info.msgLength.toNat ≤ (b.message ++ rest).length := by
    rw [List.length_append, b.length]
    omega
  rw [readMessage, dif_pos hle]
  congr 2
  · exact Subtype.ext (List.take_left' b.length)
  · exact List.drop_left' b.length

theorem length_of_readMessage {n : Nat} {buffer rest : List UInt8}
    {message : {message : List UInt8 // message.length = n}}
    (h : readMessage n buffer = some (message, rest)) : buffer.length = n + rest.length := by
  rw [readMessage] at h
  split at h
  · rw [← (Prod.mk.inj (Option.some.inj h)).2, List.length_drop]
    omega
  · cases h

/-- The client finds the broadcasts of a log in its buffer. -/
theorem readDataBuffer_flatMap (hfuel : bs.length < fuel) :
    readDataBuffer fuel (bs.flatMap GetBroadcastResponse.bytes) = some bs := by
  induction bs generalizing fuel with
  | nil =>
    obtain ⟨fuel, rfl⟩ := Nat.exists_eq_add_one_of_ne_zero (Nat.ne_of_gt hfuel)
    rfl
  | cons b bs ih =>
    obtain ⟨fuel, rfl⟩ := Nat.exists_eq_add_one_of_ne_zero (Nat.ne_of_gt (Nat.zero_lt_of_lt hfuel))
    have hne : b.bytes ++ bs.flatMap GetBroadcastResponse.bytes ≠ [] := by
      intro h
      have hlength := b.length_bytes
      rw [(List.append_eq_nil_iff.mp h).1, List.length_nil] at hlength
      omega
    rw [List.flatMap_cons, readDataBuffer, if_neg hne, GetBroadcastResponse.bytes,
      List.append_assoc, List.append_assoc]
    simp only [Codec.read_append, Option.bind_eq_bind, Option.bind_some, readMessage_append,
      ih (Nat.lt_of_succ_lt_succ hfuel), Option.pure_def]

/-- The broadcasts that the client finds fill the buffer. -/
theorem length_of_readDataBuffer {buffer : List UInt8} (h : readDataBuffer fuel buffer = some bs) :
    (bs.flatMap GetBroadcastResponse.bytes).length = buffer.length := by
  induction fuel generalizing buffer bs with
  | zero => cases h
  | succ fuel ih =>
    rw [readDataBuffer] at h
    split at h
    · rename_i hnil
      rw [← Option.some.inj h, hnil]
      rfl
    · simp only [Option.bind_eq_bind, Option.bind_eq_some_iff, Option.pure_def, Option.some.injEq,
        Prod.exists] at h
      obtain ⟨info, buffer₁, hinfo, message, buffer₂, hmessage, data, buffer₃, hdata, rest, hrest,
        rfl⟩ := h
      have h₁ := Codec.length_of_read _ hinfo
      have h₂ := length_of_readMessage hmessage
      have h₃ := Codec.length_of_read _ hdata
      rw [List.flatMap_cons, List.length_append, ih hrest,
        GetBroadcastResponse.length_bytes, h₁, h₂, h₃, Nat.add_assoc, Nat.add_assoc]
      rfl

/-- The blocks that the server reads from the log. -/
theorem exists_readBlocks (stack : Bytes) {log : List UInt8} (hlog : log.length < 2 ^ 31)
    {pos remain : Nat} (hle : pos + remain ≤ log.length) (hfuel : remain < fuel) :
    ∃ blocks, readBlocks stack fuel remain (.atPos log pos) = some blocks ∧
      blocks.flatten = slice log pos remain := by
  induction fuel generalizing pos remain with
  | zero => omega
  | succ fuel ih =>
    rw [readBlocks]
    split
    · rename_i hzero
      exact ⟨[], rfl, by rw [hzero, slice, List.take_zero]; rfl⟩
    · set n := min remain messageChunk with hn
      have hsmall : n ≤ 2 ^ 30 := (Nat.min_le_right _ _).trans (by decide)
      have hpos : 0 < n := Nat.lt_min.mpr ⟨by omega, by decide⟩
      have hremain : n ≤ remain := Nat.min_le_left _ _
      have hlength : (slice log pos n).length = n := by
        rw [slice, List.length_take, List.length_drop]
        omega
      have hblock : (Bytes.ofList (slice log pos n) stack).take n = slice log pos n := by
        have h := Bytes.take_ofList_append hlength [] stack
        rwa [List.append_nil] at h
      have hread : (BlockFileReader.atPos log pos).read (.ofNat n) =
          some (slice log pos n, .atPos log (pos + n)) := by
        rw [BlockFileReader.read_at (by omega) hsmall (by omega) (by omega), if_pos (by omega)]
      obtain ⟨blocks, hblocks, hflatten⟩ :=
        ih (show pos + n + (remain - n) ≤ log.length by omega) (by omega)
      refine ⟨slice log pos n :: blocks, ?_, ?_⟩
      · simp only [hread, Option.bind_eq_bind, Option.bind_some, hblocks, hblock, Option.pure_def]
      · rw [List.flatten_cons, hflatten, slice, slice, slice, ← List.drop_drop,
          ← List.take_add, Nat.add_sub_cancel' hremain]

/-- The blocks have the length that was asked for, whatever the reader returns. -/
theorem length_readBlocks {remain : Nat} {file : BlockFileReader} {blocks : List (List UInt8)}
    (h : readBlocks stack fuel remain file = some blocks) :
    blocks.flatten.length = remain := by
  induction fuel generalizing remain file blocks with
  | zero => cases h
  | succ fuel ih =>
    rw [readBlocks] at h
    split at h
    · rename_i hzero
      rw [← Option.some.inj h, hzero]
      rfl
    · simp only [Option.bind_eq_bind, Option.bind_eq_some_iff, Option.pure_def, Option.some.injEq,
        Prod.exists] at h
      obtain ⟨-, file', -, rest, hrest, rfl⟩ := h
      rw [List.flatten_cons, List.length_append, Bytes.length_take, ih hrest]
      omega

/-- The server sends a log of at most ten megabytes as a whole. -/
theorem exists_getBroadcastMsg (stack : Bytes) {log : List UInt8}
    (hready : broadcastPath lpath blockTime ≤ lpath)
    (hlog : logs (broadcastPath lpath blockTime) = .atPos log 0) (hsize : log.length ≤ maxBlgSize) :
    ∃ blocks, getBroadcastMsg stack lpath blockTime logs =
      some ⟨eNone, ⟨broadcastPath lpath blockTime, lpath, .ofNat log.length⟩, blocks⟩ ∧
      blocks.flatten = log := by
  have hsmall : log.length < 2 ^ 31 := hsize.trans_lt (by decide)
  simp only [getBroadcastMsg]
  rw [if_neg (UInt32.not_lt.mpr hready), hlog]
  cases log with
  | nil => exact ⟨[], rfl, rfl⟩
  | cons x xs =>
    obtain ⟨blocks, hblocks, hflatten⟩ := exists_readBlocks stack hsmall
      (show 0 + (x :: xs).length ≤ (x :: xs).length by omega) (Nat.lt_succ_self _)
    have hopen : (BlockFileReader.atPos (x :: xs) 0).isOpen = true := rfl
    have hgetSize : (BlockFileReader.atPos (x :: xs) 0).getSize.toNat = (x :: xs).length :=
      UInt32.toNat_ofNat_of_lt' (hsmall.trans (by decide))
    refine ⟨blocks, ?_, ?_⟩
    · rw [hopen, if_neg (by decide), hgetSize, if_neg (by omega), hblocks]
      rfl
    · rw [hflatten, slice, List.drop_zero, List.take_length]

/-- A server that sends as many bytes as it announces has announced at most ten megabytes. -/
theorem fileSize_le_of_getBroadcastMsg {r : BroadcastReply}
    (h : getBroadcastMsg stack lpath blockTime logs = some r)
    (hlength : r.header.fileSize.toNat = r.fileBuffer.flatten.length) :
    r.header.fileSize.toNat ≤ maxBlgSize := by
  simp only [getBroadcastMsg] at h
  split at h
  · rw [← Option.some.inj h]
    exact Nat.zero_le _
  split at h
  · rw [← Option.some.inj h]
    exact Nat.zero_le _
  · obtain ⟨blocks, hblocks, rfl⟩ := Option.map_eq_some_iff.mp h
    rw [hlength, length_readBlocks hblocks]
    split <;> omega

/-- The broadcasts that a client receives have the announced size. -/
theorem length_of_receiveBroadcasts {stream : List UInt8} {header : BroadcastFileHeader}
    (h : receiveBroadcasts stream = some (eNone, header, bs)) :
    (broadcastFile bs).length = readLength header.fileSize := by
  simp only [receiveBroadcasts, Option.bind_eq_bind, Option.bind_eq_some_iff] at h
  obtain ⟨r, -, h⟩ := h
  split at h
  · rename_i herror
    exact absurd (Prod.mk.inj (Option.some.inj h)).1 herror
  · simp only [Option.bind_eq_some_iff, Option.pure_def, Option.some.injEq, Prod.exists,
      Prod.mk.injEq] at h
    obtain ⟨header', stream', -, buffer, rest, hbuffer, bs', hbs, -, rfl, rfl⟩ := h
    rw [broadcastFile_eq, length_of_readDataBuffer hbs, (length_of_readData hbuffer).1]

/-- The client of a response that carries a whole log receives its broadcasts. -/
theorem receiveBroadcasts_bytes {path : UInt32} {blocks : List (List UInt8)}
    (hblocks : blocks.flatten = broadcastFile bs) (hsize : (broadcastFile bs).length < 2 ^ 31) :
    receiveBroadcasts
        (BroadcastReply.bytes ⟨eNone, ⟨path, lpath, .ofNat (broadcastFile bs).length⟩, blocks⟩) =
      some (eNone, ⟨path, lpath, .ofNat (broadcastFile bs).length⟩, bs) := by
  have hlength : readLength (.ofNat (broadcastFile bs).length) = (broadcastFile bs).length := by
    rw [readLength, UInt32.toNat_ofNat_of_lt' (hsize.trans (by decide)), if_pos hsize]
  have hread : readData (broadcastFile bs).length (broadcastFile bs) =
      some (broadcastFile bs, []) := by
    have h := readData_append [] (rfl : (broadcastFile bs).length = _)
    rwa [List.append_nil] at h
  have hbuffer : readDataBuffer ((broadcastFile bs).length + 1) (broadcastFile bs) = some bs := by
    rw [broadcastFile_eq]
    exact readDataBuffer_flatMap (Nat.lt_succ_of_le (length_le_flatMap bs))
  rw [receiveBroadcasts, BroadcastReply.bytes, if_pos rfl, readResponseError_sendResponse]
  simp only [Option.bind_eq_bind, Option.bind_some, ne_eq, not_true_eq_false, if_false,
    List.flatten_cons, Codec.read_append, hblocks, hlength, hread, hbuffer, Option.pure_def]

/-- A log that reaches the client has at most ten megabytes. -/
theorem length_broadcastFile_le {r : BroadcastReply}
    (hr : getBroadcastMsg stack lpath blockTime logs = some r)
    (hsize : r.header.fileSize.toNat = r.fileBuffer.flatten.length)
    (hreceive : receiveBroadcasts r.bytes = some (eNone, r.header, bs)) :
    (broadcastFile bs).length ≤ maxBlgSize := by
  have hle := fileSize_le_of_getBroadcastMsg hr hsize
  rw [length_of_receiveBroadcasts hreceive, readLength, if_pos (hle.trans_lt (by decide))]
  exact hle

/-- The log of a block reaches the client exactly if it has at most ten megabytes: then the size
that the server announces is the number of bytes that it sends, and the client finds the logged
broadcasts in them. -/
theorem receiveBroadcasts_iff (stack : Bytes) (lpath blockTime : UInt32)
    (bs : List GetBroadcastResponse) (logs : UInt32 → BlockFileReader)
    (hready : broadcastPath lpath blockTime ≤ lpath)
    (hlog : logs (broadcastPath lpath blockTime) = .atPos (broadcastFile bs) 0) :
    (∃ r, getBroadcastMsg stack lpath blockTime logs = some r ∧
      r.header.fileSize.toNat = r.fileBuffer.flatten.length ∧
      receiveBroadcasts r.bytes = some (eNone, r.header, bs)) ↔
      (broadcastFile bs).length ≤ maxBlgSize := by
  constructor
  · rintro ⟨r, hr, hsize, hreceive⟩
    exact length_broadcastFile_le hr hsize hreceive
  · intro hle
    have hsmall : (broadcastFile bs).length < 2 ^ 31 := hle.trans_lt (by decide)
    obtain ⟨blocks, hr, hblocks⟩ := exists_getBroadcastMsg stack hready hlog hle
    refine ⟨_, hr, ?_, receiveBroadcasts_bytes hblocks hsmall⟩
    rw [hblocks]
    exact UInt32.toNat_ofNat_of_lt' (hsmall.trans (by decide))

namespace Sample

/-- A broadcast without a message. -/
def emptyBroadcast : GetBroadcastResponse := ⟨⟨3, 1, 0, 1, 0, 0⟩, ⟨0, 0, 0, 1, 1⟩, [], rfl⟩

def broadcastLogs (n : Nat) (_ : UInt32) : BlockFileReader :=
  .atPos (broadcastFile (List.replicate n emptyBroadcast)) 0

end Sample

/-- A log with sixty thousand broadcasts without a message reaches the client. -/
theorem receiveBroadcasts_full :
    ∃ r, getBroadcastMsg (fun _ => 0) 512 512 (Sample.broadcastLogs 60000) = some r ∧
      r.header.fileSize.toNat = r.fileBuffer.flatten.length ∧
      receiveBroadcasts r.bytes =
        some (eNone, r.header, List.replicate 60000 Sample.emptyBroadcast) :=
  (receiveBroadcasts_iff (fun _ => 0) 512 512 (List.replicate 60000 Sample.emptyBroadcast)
    (Sample.broadcastLogs 60000) (by decide) rfl).mpr (by
      rw [broadcastFile_eq, List.length_flatMap, List.map_replicate, List.sum_replicate,
        GetBroadcastResponse.length_bytes]
      decide)

/-- Seventy thousand broadcasts without a message take more than ten megabytes. -/
theorem receiveBroadcasts_many :
    ¬ ∃ r, getBroadcastMsg (fun _ => 0) 512 512 (Sample.broadcastLogs 70000) = some r ∧
      r.header.fileSize.toNat = r.fileBuffer.flatten.length ∧
      receiveBroadcasts r.bytes =
        some (eNone, r.header, List.replicate 70000 Sample.emptyBroadcast) := by
  rintro ⟨r, hr, hsize, hreceive⟩
  have hle := length_broadcastFile_le hr hsize hreceive
  rw [broadcastFile_eq, List.length_flatMap, List.map_replicate, List.sum_replicate,
    GetBroadcastResponse.length_bytes] at hle
  exact absurd hle (by decide)

end Esc
