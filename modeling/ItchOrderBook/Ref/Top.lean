import ItchOrderBook.Ref.AxisInterpreter
import ItchOrderBook.Ref.Book
import ItchOrderBook.Ref.Control
import ItchOrderBook.Ref.MoldUdp64Parser
import ItchOrderBook.Lib.Clocked

/-!
# The reference pipeline

`Top` of `top.py`: the packets of the bus pass the MoldUDP64 parser, their messages the ITCH
parser, the control module and, if they name the stock, the book. The generators of the source are
lists of what they yield; an exception ends the list and is marked with the module it comes from.
`testParsePkt` is the pipeline up to the ITCH parser.
-/

namespace ItchOrderBook.Ref

/-- The module that an error result or an exception comes from. -/
inductive Origin
  | np
  | ip
  | ctrl
  | book
  | top
  deriving DecidableEq, Repr

/-- The prefix that `forward_error` puts in front of an error code. -/
def Origin.prefixText : Origin → String
  | .np => "(NP) "
  | .ip => "(IP) "
  | .ctrl => "(CTRL) "
  | .book => "(BOOK) "
  | .top => ""

/-- `TopResult` without its error fields. -/
structure TopResult where
  bidEntry : Option BBOEntry
  offEntry : Option BBOEntry
  spread : Option ℤ
  deriving DecidableEq, Repr

/-- What a generator of the pipeline yields, or the exception that ends it. -/
inductive TopOut
  | result (r : TopResult)
  | error (origin : Origin) (code : String)
  | raised (origin : Origin) (e : Exn)
  deriving DecidableEq, Repr

/-- `TopResult.forward_error`. -/
def TopOut.forward (origin : Origin) (code : String) : TopOut :=
  .error origin (origin.prefixText ++ code)

/-- The pipeline. -/
structure Top (cfg : Params) where
  axis : List Byte
  np : MoldUDP64Parser
  ctrl : Control
  book : Book cfg
  initialized : Bool
  stockActive : Bool
  stockLocate : Option ℕ

namespace Top

variable {cfg : Params}

/-- `Top(ideal)`. -/
def new (cfg : Params) (ideal : Bool) : Top cfg where
  axis := []
  np := .new
  ctrl := .new
  book := .new cfg ideal
  initialized := false
  stockActive := false
  stockLocate := none

/-- `Top.init_params`: `init_error`, and the pipeline. -/
def initParams (s : Top cfg) (marketCode : Char) (stockSymbol : String) (priceBase : ℤ) :
    Except Exn (Bool × Top cfg) :=
  match s.ctrl.initParams marketCode stockSymbol with
  | .error e => .error e
  | .ok ctrl =>
    match s.book.initParams priceBase with
    | .error e => .error e
    | .ok book => .ok (s.initialized, { s with ctrl, book, initialized := true })

/-- The book stage of the loop over the parsed messages. -/
def toBook (s : Top cfg) (msg : ITCHMsg) : Except TopOut (Option BookResult) × Top cfg :=
  match msg with
  | .book m =>
    match s.stockLocate with
    | none => (.error (.error .top "Top-level stock_locate not initialized before book msg."), s)
    | some l =>
      if m.stockLocate = l then
        match s.book.processMsg m with
        | (.raise e, book) => (.error (.raised .book e), { s with book })
        | (.err code, book) => (.error (.forward .book code), { s with book })
        | (.ret res, book) => (.ok (some res), { s with book })
      else (.ok none, s)
  | _ => (.ok none, s)

/-- What the loop does with the stock locate of the control result. -/
def takeLocate (s : Top cfg) (stockLocate : Option ℕ) (msg : ITCHMsg) :
    Except TopOut (Option BookResult) × Top cfg :=
  match stockLocate with
  | none => s.toBook msg
  | some l =>
    if s.stockLocate ≠ none then
      (.error (.raised .top (.assertion "Top-level stock_locate already initialized.")), s)
    else { s with stockLocate := some l }.toBook msg

/-- One turn of the loop over the parsed messages: the answer of the book, if it was asked. -/
def processMsg (s : Top cfg) (msg : ITCHMsg) : Except TopOut (Option BookResult) × Top cfg :=
  match s.ctrl.processMsg msg with
  | (.raise e, ctrl) => (.error (.raised .ctrl e), { s with ctrl })
  | (.err code, ctrl) => (.error (.forward .ctrl code), { s with ctrl })
  | (.ret res, ctrl) =>
    { s with ctrl, stockActive := res.stockActive }.takeLocate res.stockLocate msg

/-- The loop over the parsed messages; `last` is the answer that a later one overwrites. -/
def processResults (s : Top cfg) : List ITCHMsg → Option BookResult →
    Except TopOut (Option BookResult) × Top cfg
  | [], last => (.ok last, s)
  | msg :: msgs, last =>
    match s.processMsg msg with
    | (.error out, s) => (.error out, s)
    | (.ok res, s) => s.processResults msgs (res <|> last)

/-- The result with the entries that an inactive stock does not show left out. -/
def mask (s : Top cfg) (res : BookResult) : TopResult :=
  if s.stockActive then ⟨res.bidEntry, res.offEntry, res.spread⟩ else ⟨none, none, none⟩

/-- One turn of the loop over the messages of a packet. -/
def processUnparsed (s : Top cfg) (unparsedMsg : List Byte) :
    Except TopOut (Option TopResult) × Top cfg :=
  match ITCHParser.parseMsg unparsedMsg with
  | .raise e => (.error (.raised .ip e), s)
  | .err code => (.error (.forward .ip code), s)
  | .ret msgs =>
    match s.processResults msgs none with
    | (.error out, s) => (.error out, s)
    | (.ok res, s) => (.ok (res.map s.mask), s)

/-- The loop over the messages of a packet. -/
def processPayload (s : Top cfg) : List (List Byte) → List TopOut × Top cfg
  | [] => ([], s)
  | unparsedMsg :: payload =>
    match s.processUnparsed unparsedMsg with
    | (.error out, s) => ([out], s)
    | (.ok res, s) =>
      let rest := s.processPayload payload
      (res.toList.map .result ++ rest.1, rest.2)

/-- `Top.process_pkt`. -/
def processPkt (s : Top cfg) (pkt : List Byte) : List TopOut × Top cfg :=
  match s.np.processPkt pkt with
  | (.raise e, np) => ([.raised .np e], { s with np })
  | (.err code, np) => ([.forward .np code], { s with np })
  | (.ret payload, np) => { s with np }.processPayload payload

/-- `Top.process_bus_cycle`. -/
def processBusCycle (s : Top cfg) (c : BusCycle) : List TopOut × Top cfg :=
  match AxisInterpreter.processBusCycle s.axis c true with
  | (none, axis) => ([], { s with axis })
  | (some pkt, axis) => { s with axis }.processPkt pkt

/-- The pipeline, one bus cycle at a time. -/
def onBus (cfg : Params) : Circuit (Top cfg) BusCycle (List TopOut) where
  next s c := (s.processBusCycle c).2
  out s c := (s.processBusCycle c).1

/-- The pipeline, one packet at a time. -/
def onPkts (cfg : Params) : Circuit (Top cfg) (List Byte) (List TopOut) where
  next s pkt := (s.processPkt pkt).2
  out s pkt := (s.processPkt pkt).1

/-! ### Up to the ITCH parser -/

/-- The loop over the messages. -/
def parseMsgs : List (List Byte) → List (Outcome (List ITCHMsg))
  | [] => []
  | unparsedMsg :: payload =>
    match ITCHParser.parseMsg unparsedMsg with
    | .raise e => [.raise e]
    | ipResults => ipResults :: parseMsgs payload

/-- `Top.test_parse_pkt`. -/
def testParsePkt (np : MoldUDP64Parser) (pkt : List Byte) :
    List (Outcome (List ITCHMsg)) × MoldUDP64Parser :=
  match np.processPkt pkt with
  | (.ret payload, np) => (parseMsgs payload, np)
  | (.err code, np) => ([.err (Origin.np.prefixText ++ code)], np)
  | (.raise e, np) => ([.raise e], np)

/-- The pipeline rejects the packet: there is an error result or an exception. -/
def Rejects (np : MoldUDP64Parser) (pkt : List Byte) : Prop :=
  ∃ o ∈ (testParsePkt np pkt).1, ¬ o.IsRet

/-- The loop ends without an error or an exception if every message is accepted. -/
theorem parseMsgs_isRet {payload : List (List Byte)} :
    (∀ o ∈ parseMsgs payload, o.IsRet) ↔ ∀ m ∈ payload, (ITCHParser.parseMsg m).IsRet := by
  induction payload with
  | nil => simp [parseMsgs]
  | cons m payload ih =>
    rw [List.forall_mem_cons, parseMsgs]
    cases h : ITCHParser.parseMsg m with
    | ret msgs => simp [ih]
    | err code => simp
    | raise e => simp

end Top

end ItchOrderBook.Ref
