import ItchOrderBook.Ref.Bytes

/-!
# The stream of packets from a file

`stream_raw_itch` and `generate_moldudp_packets` of `stream_pkt.py`: the length-prefixed messages of a
raw file are put into packets, in batches of random size; here the sizes that are drawn are given.
`filter_itch_file` keeps the messages of one stock, and those without a stock.
-/

namespace ItchOrderBook.Ref

/-- `stream_raw_itch`: the messages of a file up to the first incomplete one. -/
def streamRawItch (file : List Byte) : List (List Byte) :=
  let lenBytes := file.take 2
  if h : lenBytes.length < 2 then []
  else
    let msgLen := fromBytes lenBytes
    let msg := (file.drop 2).take msgLen
    if msg.length < msgLen then []
    else (lenBytes ++ msg) :: streamRawItch ((file.drop 2).drop msgLen)
termination_by file.length
decreasing_by
  simp only [lenBytes, List.length_take] at h
  simp only [List.length_drop]
  omega

/-- The loop over a batch: its messages and the rest of the stream, unless `StopIteration` is raised. -/
def takeBatch : ℕ → List (List Byte) → Option (List Byte × List (List Byte))
  | 0, itchStream => some ([], itchStream)
  | _ + 1, [] => none
  | n + 1, msg :: itchStream => (takeBatch n itchStream).map fun batch => (msg ++ batch.1, batch.2)

/-- `struct.pack(">10sQH", session_id, current_seq, msg_count)`, unless a number does not fit. -/
def packHeader (sessionId : List Byte) (currentSeq msgCount : ℕ) : Option (List Byte) :=
  if currentSeq < 2 ^ 64 ∧ msgCount < 2 ^ 16 then
    some ((sessionId ++ List.replicate 10 0).take 10 ++ toBytes 8 currentSeq ++ toBytes 2 msgCount)
  else none

/-- How the generator stops: the file has ended, a header has raised `struct.error`, or another size is to
be drawn. -/
inductive Ending
  | fileEnd
  | structError
  | drawing
  deriving DecidableEq, Repr

/-- The loop over the batches: the packets that are yielded, and how it stops. -/
def generateFrom (sessionId : List Byte) : ℕ → List (List Byte) → List ℕ → List (List Byte) × Ending
  | _, _, [] => ([], .drawing)
  | currentSeq, itchStream, batchSize :: batchSizes =>
    match takeBatch batchSize itchStream with
    | none => ([], .fileEnd)
    | some (batchMessages, itchStream) =>
      match packHeader sessionId currentSeq batchSize with
      | none => ([], .structError)
      | some header =>
        let rest := generateFrom sessionId (currentSeq + batchSize) itchStream batchSizes
        ((header ++ batchMessages) :: rest.1, rest.2)

/-- `generate_moldudp_packets`. -/
def generateMoldudpPackets (file sessionId : List Byte) (batchSizes : List ℕ) :
    List (List Byte) × Ending :=
  generateFrom sessionId 1 (streamRawItch file) batchSizes

/-! ### The filter -/

/-- The condition for a message to be written. -/
def isWritten (targetLocate : ℕ) (message : List Byte) : Bool :=
  let stockLocate := fromBytes (slice message 1 3)
  decide (message.length ≥ 3) && (decide (stockLocate = targetLocate) || decide (stockLocate = 0))

/-- `filter_itch_file`: the file that is written. -/
def filterItchFile (file : List Byte) (targetLocate : ℕ) : List Byte :=
  let lengthBytes := file.take 2
  if _h : lengthBytes.length < 2 then []
  else
    let msgLength := fromBytes lengthBytes
    let message := (file.drop 2).take msgLength
    if message.length < msgLength then []
    else
      let rest := filterItchFile ((file.drop 2).drop msgLength) targetLocate
      if isWritten targetLocate message then lengthBytes ++ message ++ rest else rest
termination_by file.length
decreasing_by
  simp only [lengthBytes, List.length_take] at _h
  simp only [List.length_drop]
  omega

end ItchOrderBook.Ref
