import Esc.Peer.BankTransfer

/-!
# Responses to clients

A client of protocol version 2 receives the length of a response in front of it. The response
starts with an error code. Every command reads the two with `readDataSize` and `readResponseError`
and then what is its own. A read takes a number of bytes from the stream and waits for more when
the stream is too short.
-/

namespace Esc

open Lib

/-! The error codes that the commands below use. -/

def eNone : UInt32 := 0
def eBroadcastNotReady : UInt32 := 22
def eIncorrectTransaction : UInt32 := 25
def eHashMismatch : UInt32 := 37
def eGotEmptyBlock : UInt32 := 38
def eFailedToLoadHash : UInt32 := 39
def eFailToProvideTxnInfo : UInt32 := 42
def eFailToReadTxnInfo : UInt32 := 43
def eFailToGetHashTree : UInt32 := 44

/-- `client::sendResponse`: the length and the buffers. -/
def sendResponse (data : List (List UInt8)) : List UInt8 :=
  u32Codec.encode (.ofNat data.flatten.length) ++ data.flatten

/-- What a client knows after the error code: the code, the text of an error, and the stream. -/
structure ResponseError where
  error : UInt32
  info : List UInt8
  stream : List UInt8

/-- `readDataSize` and `readResponseError`; `none` if they fail or wait. -/
def readResponseError (stream : List UInt8) : Option ResponseError := do
  let (responseSize, stream) ← u32Codec.read stream
  let (error, stream) ← u32Codec.read stream
  if error ≠ eNone ∧ 4 < responseSize then
    if 4097 ≤ (responseSize - 4).toNat then none
    else
      let (info, stream) ← readData (responseSize - 4).toNat stream
      return ⟨error, info, stream⟩
  else return ⟨error, [], stream⟩

/-- The client of a response without an error goes on with the buffers behind the code. -/
theorem readResponseError_sendResponse (data : List (List UInt8)) :
    readResponseError (sendResponse (u32Codec.encode eNone :: data)) =
      some ⟨eNone, [], data.flatten⟩ := by
  rw [readResponseError, sendResponse, List.flatten_cons]
  simp only [Codec.read_append, Option.bind_eq_bind, Option.bind_some, ne_eq, not_true_eq_false,
    false_and, if_false, Option.pure_def]

end Esc
