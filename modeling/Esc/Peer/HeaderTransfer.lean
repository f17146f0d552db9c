import Esc.Message.Positions
import Esc.Peer.BankTransfer
import Esc.Peer.Headers

/-!
# Sending the headers between two blocks

A synchronising node asks a peer for the headers between its last block and the peer's head.
The peer computes their number from the two times, allocates room for that many links and
fills it in a loop over the block times. The receiver computes the same number again, reads
as many links and hashes them into headers.

Both sides divide the difference of the times and the sender subtracts one in unsigned
arithmetic, so number and loop agree when the difference is a positive multiple of the block
time.
-/

namespace Esc

open Lib

variable {c : Crypto} {now upto : UInt32} {headers : List Header}

/-- `headlink_t` in memory. -/
def headLinkCodec : Codec HeadLink :=
  (u32Codec.prod (u32Codec.prod (u32Codec.prod (hashCodec.prod
    (hashCodec.prod hashCodec))))).map
    (fun (msg, nod, div, msghash, nodhash, viphash) =>
      ⟨msg, nod, div, msghash, nodhash, viphash⟩)
    (fun l => (l.msg, l.nod, l.div, l.msghash, l.nodhash, l.viphash))
    (fun _ => rfl)

/-- What `write_headers` does with a request. -/
inductive HeaderReply where
  /-- The hash before the first header, and the links. -/
  | links (bytes : List UInt8)
  /-- The single header of a `NHD` message. -/
  | next (header : Header)
  /-- No message: the peer leaves, or a header is not there. -/
  | silent
  /-- The buffer is left, or the assertion on its end fails. -/
  | fault
deriving DecidableEq, Repr

/-- The loop of `write_headers` from the time `now` on, with room for a number of links. -/
def sendLinks (headerGet : UInt32 → Option Header) (upto : UInt32) :
    Nat → UInt32 → Except HeaderReply (List Header)
  | 0, now =>
    if now < upto then .error (if (headerGet now).isSome then .fault else .silent) else .ok []
  | room + 1, now =>
    if now < upto then
      match headerGet now with
      | none => .error .silent
      | some header =>
        (sendLinks headerGet upto room (now + blockSec)).map fun headers => header :: headers
    else .error .fault

/-- The number of links that `write_headers` allocates, an unsigned number. -/
def linkCount (start upto : UInt32) : UInt32 := (upto - start) / blockSec - 1

/-- `write_headers`, asked for the headers after `start`, with the own head at `upto`. -/
def writeHeaders (headerGet : UInt32 → Option Header) (start upto : UInt32) : HeaderReply :=
  if upto < start then
    match headerGet start with
    | none => .silent
    | some header => .next header
  else if linkCount start upto ≤ 0 then .silent
  else
    match sendLinks headerGet upto (linkCount start upto).toNat (start + blockSec) with
    | .error reply => reply
    | .ok headers =>
      .links (headers.head?.elim [] (fun header => hashBytes header.oldhash) ++
        headLinkCodec.encodeAll (headers.map (·.toHeadLink)))

/-- The bytes that reach the receiver when it waits for links. -/
def HeaderReply.bytes : HeaderReply → Option (List UInt8)
  | .links bytes => some bytes
  | .silent => some []
  | _ => none

/-- The bytes that `handle_read_headers` asks for and reads. -/
def expectedBytes (start upto : UInt32) : Nat :=
  let num := ((upto - start) / blockSec).toNat
  if start < upto ∧ 1 < num then 32 + 108 * (num - 1) else 0

/-- `handle_read_headers` on the bytes of the answer. -/
def readAnswer (c : Crypto) (syncLs : Header) (head : Head) (bytes : List UInt8) :
    Except HeaderFault (Option (List Header)) :=
  readHeaders c syncLs head (hashCodec.decode bytes)
    (headLinkCodec.decodeAll ((bytes.length - 32) / 108) (bytes.drop 32))

/-- The headers of consecutive blocks from the time `now` on, up to the hash of the last. -/
def LinkedFrom (c : Crypto) : UInt32 → Hash → List Header → Hash → Prop
  | _, oldhash, [], last => oldhash = last
  | now, oldhash, header :: headers, last =>
    header = Header.loadlink c header.toHeadLink now oldhash ∧
      LinkedFrom c (now + blockSec) header.nowhash headers last

/-- The headers are stored under consecutive times. -/
def StoredFrom (headerGet : UInt32 → Option Header) : UInt32 → List Header → Prop
  | _, [] => True
  | now, header :: headers =>
    headerGet now = some header ∧ StoredFrom headerGet (now + blockSec) headers

/-- The sender has the chain of headers between the receiver's last one and its own head. -/
structure HeaderChain (c : Crypto) (headerGet : UInt32 → Option Header) (syncLs : Header)
    (head : Head) (between : List Header) : Prop where
  complete : between.length = (head.now.toNat - syncLs.now.toNat - 1) / blockSec.toNat
  stored : StoredFrom headerGet (syncLs.now + blockSec) between
  linked : LinkedFrom c (syncLs.now + blockSec) syncLs.nowhash between head.oldhash

/-- A request for headers after the sender's head is answered by one header at most. For any
other range the number of links is that of the headers between, and the answer is as long as
the receiver expects and gives it these headers and the head. -/
def TransferAgrees (c : Crypto) (headerGet : UInt32 → Option Header) (syncLs : Header)
    (head : Head) (between : List Header) : Prop :=
  if head.now < syncLs.now then
    writeHeaders headerGet syncLs.now head.now = (headerGet syncLs.now).elim .silent .next
  else
    (linkCount syncLs.now head.now).toNat = between.length ∧
      ∃ bytes, (writeHeaders headerGet syncLs.now head.now).bytes = some bytes ∧
        bytes.length = expectedBytes syncLs.now head.now ∧
        (syncLs.now < head.now →
          readAnswer c syncLs head bytes = .ok (some (between ++ [.loadhead c head])))

/-! ## The two loops -/

theorem toNat_add_blockSec {n : Nat} (h : now.toNat + blockSec.toNat * (n + 1) = upto.toNat) :
    (now + blockSec).toNat + blockSec.toNat * n = upto.toNat ∧ now < upto := by
  have hsec : blockSec.toNat = 512 := rfl
  have hupto := upto.toNat_lt
  rw [hsec] at h ⊢
  rw [UInt32.lt_iff_toNat_lt, UInt32.toNat_add, hsec]
  omega

/-- With room for exactly the headers up to its head the sender sends all of them. -/
theorem sendLinks_stored {headerGet : UInt32 → Option Header}
    (hstored : StoredFrom headerGet now headers)
    (htime : now.toNat + blockSec.toNat * headers.length = upto.toNat) :
    sendLinks headerGet upto headers.length now = .ok headers := by
  induction headers generalizing now with
  | nil =>
    have heq : now = upto := UInt32.toNat_inj.mp (by simpa using htime)
    rw [List.length_nil, sendLinks, if_neg (heq ▸ UInt32.lt_irrefl now)]
  | cons header headers ih =>
    obtain ⟨hget, hrest⟩ := hstored
    obtain ⟨hnext, hlt⟩ := toNat_add_blockSec htime
    rw [List.length_cons, sendLinks, if_pos hlt, hget]
    simp only [ih hrest hnext]
    rfl

/-- The receiver rebuilds the headers of a chain from their links. -/
theorem linkHeaders_linkedFrom {oldhash last : Hash}
    (hlinked : LinkedFrom c now oldhash headers last)
    (htime : now.toNat + blockSec.toNat * headers.length = upto.toNat) :
    linkHeaders c upto (headers.map (·.toHeadLink)) now oldhash = .ok headers := by
  induction headers generalizing now oldhash with
  | nil =>
    have heq : now = upto := UInt32.toNat_inj.mp (by simpa using htime)
    rw [List.map_nil, linkHeaders, if_neg (heq ▸ UInt32.lt_irrefl now)]
  | cons header headers ih =>
    obtain ⟨hheader, hrest⟩ := hlinked
    obtain ⟨hnext, hlt⟩ := toNat_add_blockSec htime
    rw [List.map_cons, linkHeaders, if_pos hlt]
    simp only [← hheader, ih hrest hnext]
    rfl

/-- The chain ends with the hash of its last header. -/
theorem LinkedFrom.last {oldhash last : Hash} (h : LinkedFrom c now oldhash headers last) :
    headers.getLast?.any (·.nowhash ≠ last) = false := by
  induction headers generalizing now oldhash with
  | nil => rfl
  | cons header headers ih =>
    cases headers with
    | nil => simpa [LinkedFrom] using h.2
    | cons next headers =>
      rw [List.getLast?_cons_cons]
      exact ih h.2

/-- The first header of a chain has the hash that the chain starts from. -/
theorem LinkedFrom.oldhash {header : Header} {oldhash last : Hash}
    (h : LinkedFrom c now oldhash (header :: headers) last) :
    header.oldhash = oldhash := by
  rw [h.1]
  rfl

/-! ## A whole transfer -/

section Transfer

variable {headerGet : UInt32 → Option Header} {syncLs : Header} {head : Head}
  {between : List Header}

/-- The number of blocks on both sides. -/
theorem toNat_blocks {start : UInt32} (hle : start ≤ upto) :
    ((upto - start) / blockSec).toNat = (upto.toNat - start.toNat) / 512 := by
  rw [UInt32.toNat_div, UInt32.toNat_sub_of_le _ _ hle]
  rfl

/-- The number of links in unsigned arithmetic. -/
theorem toNat_linkCount {start : UInt32} (hle : start ≤ upto) :
    (linkCount start upto).toNat =
      if (upto.toNat - start.toNat) / 512 = 0 then 2 ^ 32 - 1
      else (upto.toNat - start.toNat) / 512 - 1 := by
  have hlt := ((upto - start) / blockSec).toNat_lt
  rw [linkCount, UInt32.toNat_sub, toNat_blocks hle, UInt32.toNat_one]
  rw [toNat_blocks hle] at hlt
  split <;> omega

/-- The bytes of a chain of links as the receiver reads them. -/
theorem readAnswer_links (hchain : HeaderChain c headerGet syncLs head between) {k : Nat}
    (hk : head.now.toNat = syncLs.now.toNat + 512 * (k + 2)) (hlength : between.length = k + 1) :
    readAnswer c syncLs head (hashBytes syncLs.nowhash ++
      headLinkCodec.encodeAll (between.map (·.toHeadLink))) =
        .ok (some (between ++ [.loadhead c head])) := by
  have hsec : blockSec.toNat = 512 := rfl
  have hwidth : headLinkCodec.width = 108 := rfl
  have hhash := length_hashBytes syncLs.nowhash
  have hlt : syncLs.now < head.now := UInt32.lt_iff_toNat_lt.mpr (by omega)
  have hnum : ((head.now - syncLs.now) / blockSec).toNat = k + 2 := by
    rw [toNat_blocks (UInt32.le_of_lt hlt), hk, Nat.add_sub_cancel_left]
    exact Nat.mul_div_cancel_left _ (by decide)
  have hcount : ((hashBytes syncLs.nowhash ++
      headLinkCodec.encodeAll (between.map (·.toHeadLink))).length - 32) / 108 =
        (between.map (·.toHeadLink)).length := by
    rw [List.length_append, hhash, Codec.length_encodeAll, hwidth]
    omega
  have hold : hashCodec.decode (hashBytes syncLs.nowhash ++
      headLinkCodec.encodeAll (between.map (·.toHeadLink))) = syncLs.nowhash :=
    hashCodec.decode_encode _ _
  have hlinks : headLinkCodec.decodeAll (between.map (·.toHeadLink)).length
      (headLinkCodec.encodeAll (between.map (·.toHeadLink))) = between.map (·.toHeadLink) := by
    have := headLinkCodec.decodeAll_encodeAll (between.map (·.toHeadLink)) []
    rwa [List.append_nil] at this
  have htime : (syncLs.now + blockSec).toNat + blockSec.toNat * between.length =
      head.now.toNat := (toNat_add_blockSec (n := between.length) (by rw [hsec, hlength, hk])).1
  rw [readAnswer, hold, hcount, List.drop_left' hhash, hlinks, readHeaders,
    if_neg (UInt32.not_le.mpr hlt)]
  simp only [hnum, linkHeaders_linkedFrom hchain.linked htime, List.length_map, hlength]
  rw [if_neg (by omega), if_pos (by omega), if_neg (by omega)]
  change (if between.getLast?.any (·.nowhash ≠ head.oldhash) then _ else _) = _
  rw [if_neg (by rw [hchain.linked.last]; simp), if_neg (by simp)]

/-- A range of whole blocks is transferred. -/
theorem transferAgrees_of_dvd (hchain : HeaderChain c headerGet syncLs head between)
    (hlt : syncLs.now < head.now) (hdvd : 512 ∣ head.now.toNat - syncLs.now.toNat) :
    TransferAgrees c headerGet syncLs head between := by
  have hsec : blockSec.toNat = 512 := rfl
  have hwidth : headLinkCodec.width = 108 := rfl
  have hlt' := UInt32.lt_iff_toNat_lt.mp hlt
  have hle := UInt32.le_of_lt hlt
  have hback := UInt32.not_lt.mpr hle
  obtain ⟨k, hk⟩ := hdvd
  have hnum := toNat_blocks hle
  have hann := toNat_linkCount hle
  have hlength := hchain.complete
  rw [hsec] at hlength
  rw [TransferAgrees, if_neg hback]
  obtain rfl | ⟨k, rfl⟩ : k = 1 ∨ ∃ j, k = j + 2 := by
    obtain _ | _ | j := k
    · omega
    · exact .inl rfl
    · exact .inr ⟨j, rfl⟩
  · -- There is no header between, so nothing is asked for.
    have hnil : between = [] := List.length_eq_zero_iff.mp (by omega)
    have hzero : (linkCount syncLs.now head.now).toNat = 0 := by
      rw [hann, if_neg (by omega)]
      omega
    subst hnil
    have hold : syncLs.nowhash = head.oldhash := hchain.linked
    refine ⟨hzero, [], ?_, ?_, fun _ => ?_⟩
    · rw [writeHeaders, if_neg hback, if_pos (UInt32.le_iff_toNat_le.mpr hzero.le)]
      rfl
    · rw [expectedBytes, if_neg (by omega)]
      rfl
    · rw [readAnswer, readHeaders, if_neg (UInt32.not_le.mpr hlt)]
      simp only [hnum]
      rw [if_neg (by omega), if_neg (by omega), if_neg (by simp [hold])]
      rfl
  · have hlength' : between.length = k + 1 := by omega
    have hnumber : (linkCount syncLs.now head.now).toNat = between.length := by
      rw [hann, if_neg (by omega), hlength']
      omega
    have htime : (syncLs.now + blockSec).toNat + blockSec.toNat * between.length =
        head.now.toNat := (toNat_add_blockSec (by rw [hsec, hlength']; omega)).1
    have hfirst : between.head?.elim [] (fun header => hashBytes header.oldhash) =
        hashBytes syncLs.nowhash := by
      cases hbetween : between with
      | nil =>
        rw [hbetween] at hlength'
        cases hlength'
      | cons header headers =>
        have hlinked := hchain.linked
        rw [hbetween] at hlinked
        rw [List.head?_cons, Option.elim_some, hlinked.oldhash]
    refine ⟨hnumber, hashBytes syncLs.nowhash ++
      headLinkCodec.encodeAll (between.map (·.toHeadLink)), ?_, ?_, fun _ => ?_⟩
    · rw [writeHeaders, if_neg hback, if_neg ?_, hnumber, sendLinks_stored hchain.stored htime,
        ← hfirst]
      · rfl
      · intro hzero
        have : (linkCount syncLs.now head.now).toNat ≤ 0 := UInt32.le_iff_toNat_le.mp hzero
        omega
    · rw [expectedBytes, List.length_append, length_hashBytes, Codec.length_encodeAll,
        List.length_map, hwidth, hlength', if_pos ⟨hlt, by omega⟩]
      omega
    · exact readAnswer_links hchain (by omega) hlength'

/-- Sender and receiver of the headers between two blocks agree exactly when the range is
reversed, and answered by a single header, or consists of one or more whole blocks. -/
theorem headerTransfer_iff (c : Crypto) (headerGet : UInt32 → Option Header) (syncLs : Header)
    (head : Head) (between : List Header)
    (hchain : HeaderChain c headerGet syncLs head between) :
    TransferAgrees c headerGet syncLs head between ↔
      head.now < syncLs.now ∨
        syncLs.now < head.now ∧ 512 ∣ head.now.toNat - syncLs.now.toNat := by
  by_cases hback : head.now < syncLs.now
  · refine iff_of_true ?_ (.inl hback)
    rw [TransferAgrees, if_pos hback, writeHeaders, if_pos hback]
    cases headerGet syncLs.now <;> rfl
  have hle : syncLs.now ≤ head.now := UInt32.not_lt.mp hback
  constructor
  · intro hagrees
    rw [TransferAgrees, if_neg hback] at hagrees
    -- The two sides count the same blocks only when the difference is a positive multiple.
    have hnumber := hagrees.1
    have hlength : between.length = (head.now.toNat - syncLs.now.toNat - 1) / 512 :=
      hchain.complete
    have hmax := head.now.toNat_lt
    rw [toNat_linkCount hle, hlength] at hnumber
    refine .inr ⟨UInt32.lt_iff_toNat_lt.mpr ?_, ?_⟩ <;> split at hnumber <;> omega
  · rintro (hlt | ⟨hlt, hdvd⟩)
    · exact absurd hlt hback
    · exact transferAgrees_of_dvd hchain hlt hdvd

end Transfer

namespace Sample

/-- The headers of the blocks at 512, 1024 and 1536. -/
def headerAt512 : Header := .loadhead plainCrypto { now := 512 }
def headerAt1024 : Header := .loadlink plainCrypto {} 1024 headerAt512.nowhash
def headerAt1536 : Header := .loadlink plainCrypto {} 1536 headerAt1024.nowhash

def headerFiles (now : UInt32) : Option Header :=
  if now = 1024 then some headerAt1024 else if now = 1536 then some headerAt1536 else none

end Sample

/-- The header between two blocks is transferred. -/
theorem headerTransfer_one :
    TransferAgrees Sample.plainCrypto Sample.headerFiles Sample.headerAt512
      Sample.headerAt1536.toHead [Sample.headerAt1024] :=
  (headerTransfer_iff Sample.plainCrypto Sample.headerFiles Sample.headerAt512
    Sample.headerAt1536.toHead [Sample.headerAt1024]
    ⟨by decide, ⟨by decide, trivial⟩, ⟨rfl, rfl⟩⟩).mpr (.inr ⟨by decide, by decide⟩)

/-- For an empty range the number of links is `2 ^ 32 - 1` and the assertion on the end of the
buffer fails; for a range of one second more than two blocks the buffer is too short. -/
theorem headerTransfer_fault :
    HeaderChain Sample.plainCrypto Sample.headerFiles Sample.headerAt512
        { now := 512, oldhash := Sample.headerAt512.nowhash } [] ∧
      (linkCount 512 512).toNat = 2 ^ 32 - 1 ∧
      writeHeaders Sample.headerFiles 512 512 = .fault ∧
      HeaderChain Sample.plainCrypto Sample.headerFiles Sample.headerAt512
        { now := 1537, oldhash := Sample.headerAt1536.nowhash }
        [Sample.headerAt1024, Sample.headerAt1536] ∧
      writeHeaders Sample.headerFiles 512 1537 = .fault := by
  refine ⟨⟨by decide, trivial, rfl⟩, by decide, ?_, ⟨by decide, ⟨by decide, by decide, trivial⟩,
    ⟨rfl, rfl, rfl⟩⟩, by decide +kernel⟩
  have hroom : (linkCount 512 512).toNat = 4294967294 + 1 := by decide
  rw [writeHeaders, if_neg (by decide), if_neg (by decide), hroom,
    show (512 + blockSec : UInt32) = 1024 from rfl, sendLinks, if_neg (by decide)]

end Esc
