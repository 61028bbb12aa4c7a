import ItchOrderBook.Ref.Bytes
import ItchOrderBook.Ref.Structs

/-!
# The reference ITCH parser

`ITCHParser.parse_msg` of `itch_parser.py` on one length-prefixed message, with the control messages
and enumerations of `structs.py`. The results of the generator are the list of a returned value:
every error is reported before the first of them. Indexing past the end raises `IndexError`, and a
stock symbol that is not UTF-8 is only missed where it is used.
-/

namespace ItchOrderBook.Ref

/-- `SystemEventCode`. -/
inductive SystemEventCode
  | msgBegin
  | sysBegin
  | mktBegin
  | mktEnd
  | sysEnd
  | msgEnd
  deriving DecidableEq, Repr

/-- `SystemEventCode(b)`. -/
def SystemEventCode.ofByte (b : Byte) : Option SystemEventCode :=
  match chr b with
  | 'O' => some .msgBegin
  | 'S' => some .sysBegin
  | 'Q' => some .mktBegin
  | 'M' => some .mktEnd
  | 'E' => some .sysEnd
  | 'C' => some .msgEnd
  | _ => none

/-- `TradeActionCode`. -/
inductive TradeActionCode
  | halt
  | pause
  | quote
  | trade
  deriving DecidableEq, Repr

/-- `TradeActionCode(b)`. -/
def TradeActionCode.ofByte (b : Byte) : Option TradeActionCode :=
  match chr b with
  | 'H' => some .halt
  | 'P' => some .pause
  | 'Q' => some .quote
  | 'T' => some .trade
  | _ => none

/-- `ITCHMsg` and its subclasses; `other` is a plain `ITCHMsg` with `ITCHMsgType.IGNORE`. -/
inductive ITCHMsg
  | systemEvent (stockLocate : ℕ) (eventCode : SystemEventCode)
  | directory (stockLocate : ℕ) (stockSymbol : String)
  | tradeAction (stockLocate : ℕ) (stockSymbol : String) (tradeAction : TradeActionCode)
  | opHalt (stockLocate : ℕ) (stockSymbol : String) (marketCode : Char) (isHalt : Bool)
  | book (msg : BookMsg)
  | other (stockLocate : ℕ)
  deriving DecidableEq

/-- `data.decode()`. -/
def decode (data : List Byte) : Option String :=
  String.fromUTF8? ⟨(data.map UInt8.ofBitVec).toArray⟩

namespace ITCHParser

/-- `msg[i]`, and what is done with it. -/
def getItem {α : Type} (msg : List Byte) (i : ℕ) (k : Byte → Outcome α) : Outcome α :=
  match msg[i]? with
  | none => .raise .indexError
  | some b => k b

/-- The check of the message length that every case begins with. -/
def expectLen {α : Type} (msgByteLen len : ℕ) (k : Outcome α) : Outcome α :=
  if msgByteLen ≠ len then .err "Unexpected msg byte length." else k

/-- A use of `stock_symbol`. -/
def withSymbol {α : Type} (stockSymbol : Option String) (k : String → Outcome α) : Outcome α :=
  match stockSymbol with
  | none => .raise (.unboundLocal "stock_symbol")
  | some s => k s

/-- The cases `'A'` and `'F'` behind their length check. -/
def parseAdd (msg : List Byte) (stockLocate orderId : ℕ) : Outcome (List ITCHMsg) :=
  let add (isBuy : Bool) : Outcome (List ITCHMsg) := .ret [.book (.add stockLocate orderId isBuy
    (fromBytes (slice msg 22 26)) (fromBytes (slice msg 34 38)))]
  getItem msg 21 fun b =>
    match chr b with
    | 'B' => add true
    | 'S' => add false
    | _ => .err "Invalid buy/sell indicator."

/-- The cases `'E'`, `'C'` and `'X'` behind their length check. -/
def parseReduce (msg : List Byte) (stockLocate orderId : ℕ) : Outcome (List ITCHMsg) :=
  .ret [.book (.reduce stockLocate orderId (fromBytes (slice msg 21 25)))]

/-- `ITCHParser.parse_msg`. -/
def parseMsg (msg : List Byte) : Outcome (List ITCHMsg) :=
  let msgByteLen := fromBytes (slice msg 0 2)
  if msg.length ≠ msgByteLen + 2 then
    .raise (.assertion "Msg length did not match length field.")
  else
    getItem msg 2 fun t =>
      let stockLocate := fromBytes (slice msg 3 5)
      let stockSymbol := decode (slice msg 13 21)
      let orderId := fromBytes (slice msg 13 21)
      let ignore : Outcome (List ITCHMsg) := .ret [.other stockLocate]
      match chr t with
      | 'S' => expectLen msgByteLen 12 <| getItem msg 13 fun b =>
        match SystemEventCode.ofByte b with
        | none => .err "Invalid event code."
        | some eventCode => .ret [.systemEvent stockLocate eventCode]
      | 'R' => expectLen msgByteLen 39 <| withSymbol stockSymbol fun symbol =>
        .ret [.directory stockLocate symbol]
      | 'H' => expectLen msgByteLen 25 <| getItem msg 21 fun b =>
        match TradeActionCode.ofByte b with
        | none => .err "Invalid trading action."
        | some tradeAction => withSymbol stockSymbol fun symbol =>
          .ret [.tradeAction stockLocate symbol tradeAction]
      | 'Y' => expectLen msgByteLen 20 ignore
      | 'L' => expectLen msgByteLen 26 ignore
      | 'V' => expectLen msgByteLen 35 ignore
      | 'W' => expectLen msgByteLen 12 ignore
      | 'K' => expectLen msgByteLen 28 ignore
      | 'J' => expectLen msgByteLen 35 ignore
      | 'h' => expectLen msgByteLen 21 <| getItem msg 21 fun b =>
        let marketCode := chr b
        if marketCode ∉ ['Q', 'B', 'X'] then .err "Invalid market code."
        else getItem msg 22 fun b =>
          let opHalt (isHalt : Bool) : Outcome (List ITCHMsg) := withSymbol stockSymbol fun symbol =>
            .ret [.opHalt stockLocate symbol marketCode isHalt]
          match chr b with
          | 'H' => opHalt true
          | 'T' => opHalt false
          | _ => .err "Invalid op halt code."
      | 'A' => expectLen msgByteLen 36 (parseAdd msg stockLocate orderId)
      | 'F' => expectLen msgByteLen 40 (parseAdd msg stockLocate orderId)
      | 'E' => expectLen msgByteLen 31 (parseReduce msg stockLocate orderId)
      | 'C' => expectLen msgByteLen 36 (parseReduce msg stockLocate orderId)
      | 'X' => expectLen msgByteLen 23 (parseReduce msg stockLocate orderId)
      | 'D' => expectLen msgByteLen 19 (.ret [.book (.delete stockLocate orderId)])
      | 'U' => expectLen msgByteLen 35 (.ret [.book (.delete stockLocate orderId),
          .book (.replace stockLocate (fromBytes (slice msg 21 29)) (fromBytes (slice msg 29 33))
            (fromBytes (slice msg 33 37)))])
      | 'P' => expectLen msgByteLen 44 ignore
      | 'Q' => expectLen msgByteLen 40 ignore
      | 'B' => expectLen msgByteLen 17 ignore
      | 'I' => expectLen msgByteLen 50 ignore
      | 'N' => expectLen msgByteLen 20 ignore
      | 'O' => expectLen msgByteLen 48 ignore
      | _ => .err "Unexpected msg_type field."

end ITCHParser

end ItchOrderBook.Ref
