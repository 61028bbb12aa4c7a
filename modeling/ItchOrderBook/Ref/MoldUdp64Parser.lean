import ItchOrderBook.Ref.Bytes
import ItchOrderBook.Ref.Params

/-!
# The reference MoldUDP64 parser

`MoldUDP64Parser` of `moldudp64_parser.py`: a header of session id, sequence number and message
count, then the messages, each behind its two length bytes. The parser object keeps what each
statement before an early return has written to it.
-/

namespace ItchOrderBook.Ref

/-- The parser object. -/
structure MoldUDP64Parser where
  seqExpected : ℕ
  sessionId : Option (List Byte)
  firstPktReceived : Bool
  deriving DecidableEq, Repr

namespace MoldUDP64Parser

/-- `MoldUDP64Parser()`. -/
def new : MoldUDP64Parser := ⟨1, none, false⟩

/-- The loop over the payload from index `idx` on, and the index it ends at. -/
def parsePayload (pkt : List Byte) : ℕ → ℕ → Except String (List (List Byte) × ℕ)
  | 0, idx => .ok ([], idx)
  | msgCount + 1, idx =>
    if pkt.length < idx + 2 then .error "Packet terminated in middle of payload."
    else
      let msgByteLen := fromBytes (slice pkt idx (idx + 2))
      if pkt.length < idx + 2 + msgByteLen then .error "Packet terminated in middle of payload."
      else
        (parsePayload pkt msgCount (idx + 2 + msgByteLen)).map fun (itchMsgs, last) =>
          (slice pkt idx (idx + 2 + msgByteLen) :: itchMsgs, last)

/-- `MoldUDP64Parser.process_pkt`. -/
def processPkt (s : MoldUDP64Parser) (pkt : List Byte) :
    Outcome (List (List Byte)) × MoldUDP64Parser :=
  if pkt.length < 20 then (.err s!"Packet too short. Received {pkt.length} bytes.", s)
  else
    let sessionId := slice pkt 0 10
    let seqReceived := fromBytes (slice pkt 10 18)
    let msgCount := fromBytes (slice pkt 18 20)
    let s :=
      if !s.firstPktReceived then { s with sessionId := some sessionId, firstPktReceived := true }
      else s
    if some sessionId ≠ s.sessionId then (.err "Session ID mismatch.", s)
    else if seqReceived ≠ s.seqExpected then
      (.err s!"Seq number mismatch. Expected: {s.seqExpected}, received: {seqReceived}.", s)
    else
      let s := { s with seqExpected := s.seqExpected + msgCount }
      match parsePayload pkt msgCount 20 with
      | .error code => (.err code, s)
      | .ok (itchMsgs, idx) =>
        if pkt.length ≠ idx then (.err "Packet has remaining bytes.", s)
        else (.ret itchMsgs, s)

end MoldUDP64Parser

end ItchOrderBook.Ref
