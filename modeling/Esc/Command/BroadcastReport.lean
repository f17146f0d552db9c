import Esc.Command.Broadcasts
import Esc.Helper.Address

/-!
# The report on the broadcasts of a block

The client prints every broadcast it has received, and whether its signature has been verified.
The test it makes for that is the one of its own request: it opens the signature of the request,
under the key of the broadcast. The signature of the broadcast plays no part, so a broadcast passes
exactly when it carries the key of the reader.
-/

namespace Esc

open Lib

def txstypeBro : UInt8 := 3
def txstypeBlg : UInt8 := 18

/-- Hexadecimal text of bytes. -/
def key2text (bytes : List UInt8) : Text := bytes.flatMap fun b => hexText 2 b.toNat

/-- A number with at least `width` hexadecimal digits, as `%0X` prints it. -/
def printHex (width n : Nat) : Text := ((Nat.toDigits 16 n).map Char.toUpper).leftpad width '0'

/-! ## Signatures -/

/-- The data that a client signs to read the broadcasts of a block. -/
structure GetBroadcastInfo where
  ttype : UInt8 := txstypeBlg
  srcNode : UInt16
  srcUser : UInt32
  block : UInt32
  ttime : UInt32

def getBroadcastInfoCodec : Codec GetBroadcastInfo :=
  (u8Codec.prod (u16Codec.prod (u32Codec.prod (u32Codec.prod u32Codec)))).map
    (fun p => ⟨p.1, p.2.1, p.2.2.1, p.2.2.2.1, p.2.2.2.2⟩)
    (fun i => (i.ttype, i.srcNode, i.srcUser, i.block, i.ttime)) fun _ => rfl

/-- A request with its signature. -/
structure GetBroadcastData where
  info : GetBroadcastInfo
  sign : Signature

/-- `GetBroadcastMsg::checkSignature`: the first argument of the source is not used. -/
def GetBroadcastData.checkSignature (c : Crypto) (request : GetBroadcastData) (pk : Hash) : Bool :=
  c.signOpen pk (getBroadcastInfoCodec.encode request.info) request.sign

/-- `BroadcastMsg::checkSignature`: the hash of the account, the data and the message. -/
def GetBroadcastResponse.checkSignature (c : Crypto) (b : GetBroadcastResponse) (hash pk : Hash) :
    Bool :=
  c.signOpen pk (hashBytes hash ++ (sendBroadcastInfoCodec.encode b.info ++ b.message)) b.data.sign

/-! ## The report -/

/-- An entry of the report. -/
structure BlogEntry where
  blockTime : UInt32
  blockDate : Text
  node : UInt16
  account : UInt32
  address : Text
  accountMsid : UInt32
  time : UInt32
  date : Text
  data : Text
  message : Text
  signature : Text
  inputHash : Text
  publicKey : Text
  verify : Text
  nodeMsid : UInt32
  nodeMpos : UInt32
  id : Text
  fee : Text

/-- `GetBroadcastMsg::printBlg`. It prints no entry for another type of transaction. -/
def printBlg (c : Crypto) (mydate : UInt32 → Text) (request : GetBroadcastData) (path : UInt32)
    (b : GetBroadcastResponse) : Except Text BlogEntry :=
  if b.info.ttype ≠ txstypeBro then .error "Incorrect transaction type".toList
  else
    let result := request.checkSignature c b.data.pkey
    .ok {
      blockTime := path
      blockDate := mydate path
      node := b.info.srcNode
      account := b.info.srcUser
      address := printAddress b.info.srcNode b.info.srcUser
      accountMsid := b.info.msgId
      time := b.info.ttime
      date := mydate b.info.ttime
      data := key2text (sendBroadcastInfoCodec.encode b.info)
      message := key2text b.message
      signature := key2text (sigCodec.encode b.data.sign)
      inputHash := key2text (hashBytes b.data.hash)
      publicKey := key2text (hashBytes b.data.pkey)
      verify := (if result then "passed" else "failed").toList
      nodeMsid := b.data.msid
      nodeMpos := b.data.mpos
      id := hexText 4 b.info.srcNode.toNat ++ ':' :: (hexText 8 b.data.msid.toNat ++ ':' ::
        printHex 4 b.data.mpos.toNat)
      fee := printAmount (txsBroFee b.info.msgLength.toNat.toInt64) }

/-- What the client prints: an error, and the entries in the order of the log. -/
structure BroadcastReport where
  error : Option Text := none
  broadcast : List BlogEntry := []

def BroadcastReport.put (r : BroadcastReport) : Except Text BlogEntry → BroadcastReport
  | .error e => { r with error := some e }
  | .ok entry => { r with broadcast := r.broadcast ++ [entry] }

/-- The loop of `GetBroadcastMsg::toJson`. -/
def broadcastReport (c : Crypto) (mydate : UInt32 → Text) (request : GetBroadcastData)
    (path : UInt32) (bs : List GetBroadcastResponse) : BroadcastReport :=
  bs.foldl (fun r b => r.put (printBlg c mydate request path b)) {}

section Report

variable (c : Crypto) (mydate : UInt32 → Text) (request : GetBroadcastData) (path : UInt32)

/-- The report has an entry for every broadcast that is printed. -/
theorem broadcastReport_broadcast (bs : List GetBroadcastResponse) :
    (broadcastReport c mydate request path bs).broadcast =
      bs.filterMap fun b => (printBlg c mydate request path b).toOption := by
  have hfold (r : BroadcastReport) :
      (bs.foldl (fun r b => r.put (printBlg c mydate request path b)) r).broadcast =
        r.broadcast ++ bs.filterMap fun b => (printBlg c mydate request path b).toOption := by
    induction bs generalizing r with
    | nil => rw [List.foldl_nil, List.filterMap_nil, List.append_nil]
    | cons b bs ih =>
      rw [List.foldl_cons, ih, List.filterMap_cons]
      cases printBlg c mydate request path b with
      | error e => rfl
      | ok entry => simp [BroadcastReport.put, Except.toOption]
  exact hfold {}

/-- The client prints that the broadcast passed. -/
def Passes (b : GetBroadcastResponse) : Prop :=
  ∃ entry, printBlg c mydate request path b = .ok entry ∧ entry.verify = "passed".toList

/-- What passes is a broadcast under whose key the request opens. -/
theorem passes_iff (b : GetBroadcastResponse) :
    Passes c mydate request path b ↔
      b.info.ttype = txstypeBro ∧ request.checkSignature c b.data.pkey = true := by
  constructor
  · rintro ⟨entry, hprint, hverify⟩
    rw [printBlg] at hprint
    split at hprint
    · cases hprint
    · rename_i htype
      refine ⟨not_not.mp htype, ?_⟩
      by_contra hresult
      rw [← Except.ok.inj hprint] at hverify
      simp only [if_neg hresult] at hverify
      exact absurd hverify (by decide)
  · rintro ⟨htype, hresult⟩
    refine ⟨_, by rw [printBlg, if_neg (not_not.mpr htype)], ?_⟩
    simp only [if_pos hresult]

/-- The entries that the client marks as passed are those of the broadcasts with a valid signature
exactly if the broadcasts with a valid signature are those under whose key the request opens. -/
theorem passes_exact (bs : List GetBroadcastResponse) :
    (broadcastReport c mydate request path bs).broadcast =
        bs.filterMap (fun b => (printBlg c mydate request path b).toOption) ∧
      ((∀ b ∈ bs, Passes c mydate request path b ↔
          b.checkSignature c b.data.hash b.data.pkey = true) ↔
        ∀ b ∈ bs, b.checkSignature c b.data.hash b.data.pkey = true ↔
          b.info.ttype = txstypeBro ∧ request.checkSignature c b.data.pkey = true) := by
  refine ⟨broadcastReport_broadcast c mydate request path bs, ?_⟩
  refine forall₂_congr fun b _ => ?_
  rw [passes_iff]
  exact iff_comm

end Report

namespace Sample

/-- The keys 5 and 7, each with one signature. -/
def keyCrypto : Crypto where
  sha256 _ := 0
  signOpen pk _ sign := (pk = 5 ∧ sign = 5) ∨ (pk = 7 ∧ sign = 7)
  strayLength _ := none

/-- A request that is signed with the key 7. -/
def broadcastRequest : GetBroadcastData where
  info := { srcNode := 1, srcUser := 0, block := 0, ttime := 0 }
  sign := 7

/-- A broadcast under a key. -/
def broadcastUnder (pkey : Hash) (sign : Signature) : GetBroadcastResponse :=
  { emptyBroadcast with data := ⟨sign, 0, pkey, 1, 1⟩ }

end Sample

/-- The reader's own broadcast passes, and one under another key with a wrong signature fails. -/
theorem passes_own_key :
    ∀ b ∈ [Sample.broadcastUnder 7 7, Sample.broadcastUnder 5 7],
      Passes Sample.keyCrypto (fun _ => []) Sample.broadcastRequest 0 b ↔
        b.checkSignature Sample.keyCrypto b.data.hash b.data.pkey = true := by
  apply (passes_exact Sample.keyCrypto (fun _ => []) Sample.broadcastRequest 0 _).2.mpr
  decide +kernel

/-- A forged broadcast under the reader's key passes, and a signed one under another key fails. -/
theorem passes_forged :
    (Passes Sample.keyCrypto (fun _ => []) Sample.broadcastRequest 0 (Sample.broadcastUnder 7 5) ∧
        (Sample.broadcastUnder 7 5).checkSignature Sample.keyCrypto 0 7 = false) ∧
      ¬ Passes Sample.keyCrypto (fun _ => []) Sample.broadcastRequest 0
          (Sample.broadcastUnder 5 5) ∧
        (Sample.broadcastUnder 5 5).checkSignature Sample.keyCrypto 0 5 = true := by
  rw [passes_iff, passes_iff]
  decide +kernel

end Esc
