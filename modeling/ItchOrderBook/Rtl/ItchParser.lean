import ItchOrderBook.Lib.Clocked
import ItchOrderBook.Ref.Bytes
import ItchOrderBook.Rtl.Definitions
import ItchOrderBook.Rtl.MoldUdp64Parser

/-!
# The RTL ITCH parser

`itch_parser` of `itch_parser.sv`, and `itch_parser_interface`, which puts it behind the
MoldUDP64 parser. `Comb` is the valuation of the combinational block: the next registers and the
error flags. The state register only ever holds one of its named values, so `error_state` stays low.
Where a case distinction has a default branch that only raises an error, the signal keeps its value.
-/

namespace ItchOrderBook.Rtl

open Ref (chr)

/-- The inputs of `itch_parser` in one cycle. -/
structure ItchIn where
  ipDataV : Bool
  ipData : BitVec 32
  ipDataTlast : Bool
  stockLocateV : Bool
  stockLocate : BitVec 16
  deriving DecidableEq, Repr

/-- `ip_state_e`. -/
inductive IpState
  | idle
  | sysEvent
  | directory
  | tradingAction
  | opHalt
  | add
  | execute
  | executeP
  | delete
  | replace
  | ignore
  deriving DecidableEq, Repr

/-- The registers of `itch_parser`. -/
structure ItchRegs where
  ipLine : BitVec 352
  bytesLeft : BitVec 8
  msgAlt : Bool
  decCtrl : DecCtrl
  matchLocate : Bool
  decBookDel : DecBook
  decBook : DecBook
  state : IpState
  deriving DecidableEq, Repr

namespace ItchRegs

/-- The values of the combinational block. -/
structure Comb where
  ipLine : BitVec 352
  bytesLeft : BitVec 8
  msgAlt : Bool
  decCtrl : DecCtrl
  matchLocate : Bool
  decBookDel : DecBook
  decBook : DecBook
  state : IpState
  errorMsgLen : Bool := false
  errorMsgType : Bool := false
  errorStockLocate : Bool := false
  errorEventCode : Bool := false
  errorTradeAction : Bool := false
  errorMarketCode : Bool := false
  errorHaltCode : Bool := false
  errorBuySell : Bool := false

/-- `ip_line_d`. -/
def ipLineD (q : ItchRegs) (i : ItchIn) : BitVec 352 :=
  if i.ipDataV then q.ipLine.extractLsb' 0 320 ++ i.ipData else q.ipLine

/-- `line_shifted`. -/
def lineShifted (q : ItchRegs) (i : ItchIn) : BitVec 352 :=
  match (q.bytesLeft.extractLsb' 0 2).toNat with
  | 0 => q.ipLineD i <<< 32
  | 1 => q.ipLineD i <<< 8
  | 2 => q.ipLineD i <<< 16
  | _ => q.ipLineD i <<< 24

/-- The default values of the `_d` signals. -/
def hold (q : ItchRegs) (i : ItchIn) : Comb where
  ipLine := q.ipLineD i
  bytesLeft := q.bytesLeft
  msgAlt := q.msgAlt
  decCtrl := { q.decCtrl with valid := false }
  matchLocate := q.matchLocate
  decBookDel := DecBook.zero
  decBook := { q.decBook with valid := false }
  state := q.state

/-- A valid word outside `IDLE`, before the case distinction. -/
def count (q : ItchRegs) (i : ItchIn) : Comb :=
  { q.hold i with
    bytesLeft := if i.ipDataTlast then 0 else q.bytesLeft - 4
    state := if q.bytesLeft < 5 then .idle else q.state }

/-- The message lengths, alternative forms and next states of case `IDLE`. -/
def idleTable (msgType : BitVec 8) : Option (BitVec 16 × Bool × IpState) :=
  match chr msgType with
  | 'S' => some (0xC, false, .sysEvent)
  | 'R' => some (0x27, false, .directory)
  | 'H' => some (0x19, false, .tradingAction)
  | 'Y' => some (0x14, false, .ignore)
  | 'L' => some (0x1A, false, .ignore)
  | 'V' => some (0x23, false, .ignore)
  | 'W' => some (0xC, false, .ignore)
  | 'K' => some (0x1C, false, .ignore)
  | 'J' => some (0x23, false, .ignore)
  | 'h' => some (0x15, false, .opHalt)
  | 'A' => some (0x24, false, .add)
  | 'F' => some (0x28, true, .add)
  | 'E' => some (0x1F, false, .execute)
  | 'C' => some (0x24, false, .executeP)
  | 'X' => some (0x17, true, .execute)
  | 'D' => some (0x13, false, .delete)
  | 'U' => some (0x23, false, .replace)
  | 'P' => some (0x2C, false, .ignore)
  | 'Q' => some (0x28, false, .ignore)
  | 'B' => some (0x13, false, .ignore)
  | 'I' => some (0x32, false, .ignore)
  | 'N' => some (0x14, false, .ignore)
  | 'O' => some (0x30, false, .ignore)
  | _ => none

/-- Case `IDLE`. -/
def onIdle (q : ItchRegs) (i : ItchIn) : Comb :=
  let line := q.lineShifted i
  let msgLen := line.extractLsb' 48 16
  let low := msgLen.extractLsb' 0 8
  let d := { q.hold i with
    bytesLeft :=
      match (q.bytesLeft.extractLsb' 0 2).toNat with
      | 0 => low - 2
      | 1 => low - 5
      | 2 => low - 4
      | _ => low - 3
    msgAlt := false }
  match idleTable (line.extractLsb' 40 8) with
  | some (len, alt, state) => { d with errorMsgLen := msgLen ≠ len, msgAlt := alt, state }
  | none => { d with errorMsgType := true }

/-- The event codes of case `SYS_EVENT`. -/
def eventCodeOf (b : BitVec 8) : Option EventCode :=
  match chr b with
  | 'O' => some .o
  | 'S' => some .s
  | 'Q' => some .q
  | 'M' => some .m
  | 'E' => some .e
  | 'C' => some .c
  | _ => none

/-- The trading actions of case `TRADING_ACTION`. -/
def tradeActionOf (b : BitVec 8) : Option TradeAction :=
  match chr b with
  | 'H' => some .h
  | 'P' => some .p
  | 'Q' => some .q
  | 'T' => some .t
  | _ => none

/-- The market codes of case `OP_HALT`. -/
def marketOf (b : BitVec 8) : Option Market :=
  match chr b with
  | 'Q' => some .q
  | 'B' => some .b
  | 'X' => some .x
  | _ => none

/-- The halt codes of case `OP_HALT`. -/
def haltOf (b : BitVec 8) : Option Bool :=
  match chr b with
  | 'H' => some true
  | 'T' => some false
  | _ => none

/-- The buy/sell indicators of case `ADD`. -/
def sideOf (b : BitVec 8) : Option Bool :=
  match chr b with
  | 'B' => some true
  | 'S' => some false
  | _ => none

/-- Case `SYS_EVENT`, after the assignments `d`. -/
def onSysEvent (q : ItchRegs) (i : ItchIn) (d : Comb) : Comb :=
  let line := q.lineShifted i
  if q.bytesLeft < 0x5 ∧ q.bytesLeft > 0x0 then
    let ctrl := { d.decCtrl with valid := true, msgType := .event }
    let code := eventCodeOf (line.extractLsb' 32 8)
    { d with
      decCtrl := { ctrl with eventCode := code.getD ctrl.eventCode }
      errorEventCode := code.isNone }
  else d

/-- Case `DIRECTORY`, after the assignments `d`. -/
def onDirectory (q : ItchRegs) (i : ItchIn) (d : Comb) : Comb :=
  let line := q.lineShifted i
  if q.bytesLeft < 0x19 ∧ q.bytesLeft > 0x14 then
    { d with decCtrl := { d.decCtrl with
      valid := true
      msgType := .directory
      stockLocate := line.extractLsb' 160 16
      stockSymbol := line.extractLsb' 32 64 } }
  else d

/-- Case `TRADING_ACTION`, after the assignments `d`. -/
def onTradingAction (q : ItchRegs) (i : ItchIn) (d : Comb) : Comb :=
  let line := q.lineShifted i
  if q.bytesLeft < 0x9 ∧ q.bytesLeft > 0x4 then
    let ctrl := { d.decCtrl with
      valid := true
      msgType := .action
      stockLocate := line.extractLsb' 176 16
      stockSymbol := line.extractLsb' 48 64 }
    let code := tradeActionOf (line.extractLsb' 40 8)
    { d with
      decCtrl := { ctrl with tradeAction := code.getD ctrl.tradeAction }
      errorTradeAction := code.isNone }
  else d

/-- Case `OP_HALT`, after the assignments `d`. -/
def onOpHalt (q : ItchRegs) (i : ItchIn) (d : Comb) : Comb :=
  let line := q.lineShifted i
  if q.bytesLeft < 0x5 ∧ q.bytesLeft > 0x0 then
    let ctrl := { d.decCtrl with
      valid := true
      msgType := .halt
      stockLocate := line.extractLsb' 176 16
      stockSymbol := line.extractLsb' 48 64 }
    let code := marketOf (line.extractLsb' 40 8)
    let halt := haltOf (line.extractLsb' 32 8)
    { d with
      decCtrl := { ctrl with market := code.getD ctrl.market, isHalt := halt.getD ctrl.isHalt }
      errorMarketCode := code.isNone
      errorHaltCode := halt.isNone }
  else d

/-- The comparison with the stock locate, one word before it is needed. -/
def matchStock (d : Comb) (i : ItchIn) (stockLocate : BitVec 16) : Comb :=
  { d with errorStockLocate := !i.stockLocateV, matchLocate := stockLocate = i.stockLocate }

/-- Case `ADD`, after the assignments `d`. -/
def onAdd (q : ItchRegs) (i : ItchIn) (d : Comb) : Comb :=
  let line := q.lineShifted i
  if (q.bytesLeft < 0xD ∧ q.bytesLeft > 0x8 ∧ q.msgAlt) ∨
      (q.bytesLeft < 0x9 ∧ q.bytesLeft > 0x4 ∧ !q.msgAlt) then
    matchStock { d with decBook := { d.decBook with orderId := line.extractLsb' 136 64 } } i
      (line.extractLsb' 264 16)
  else if (q.bytesLeft < 0x9 ∧ q.bytesLeft > 0x4 ∧ q.msgAlt) ∨
      (q.bytesLeft < 0x5 ∧ q.bytesLeft > 0x0 ∧ !q.msgAlt) then
    let book := { d.decBook with
      valid := q.matchLocate
      msgType := .add
      hasRep := false
      shares := line.extractLsb' 128 32
      price := line.extractLsb' 32 32 }
    let side := sideOf (line.extractLsb' 160 8)
    { d with
      decBook := { book with isBuy := side.getD book.isBuy }
      errorBuySell := side.isNone }
  else d

/-- Case `EXECUTE`, after the assignments `d`. -/
def onExecute (q : ItchRegs) (i : ItchIn) (d : Comb) : Comb :=
  let line := q.lineShifted i
  if (q.bytesLeft < 0x9 ∧ q.bytesLeft > 0x4 ∧ q.msgAlt) ∨
      (q.bytesLeft < 0x11 ∧ q.bytesLeft > 0xC ∧ !q.msgAlt) then
    matchStock { d with decBook := { d.decBook with orderId := line.extractLsb' 32 64 } } i
      (line.extractLsb' 160 16)
  else if (q.bytesLeft < 0x5 ∧ q.bytesLeft > 0x0 ∧ q.msgAlt) ∨
      (q.bytesLeft < 0xD ∧ q.bytesLeft > 0x8 ∧ !q.msgAlt) then
    { d with decBook := { d.decBook with
      valid := q.matchLocate
      msgType := .reduce
      hasRep := false
      shares := line.extractLsb' 32 32 } }
  else d

/-- Case `EXECUTE_P`, after the assignments `d`. -/
def onExecuteP (q : ItchRegs) (i : ItchIn) (d : Comb) : Comb :=
  let line := q.lineShifted i
  if q.bytesLeft < 0x15 ∧ q.bytesLeft > 0x10 then
    matchStock { d with decBook := { d.decBook with orderId := line.extractLsb' 40 64 } } i
      (line.extractLsb' 168 16)
  else if q.bytesLeft < 0x11 ∧ q.bytesLeft > 0xC then
    { d with decBook := { d.decBook with
      valid := q.matchLocate
      msgType := .reduce
      hasRep := false
      shares := line.extractLsb' 40 32 } }
  else d

/-- Case `DELETE`, after the assignments `d`. -/
def onDelete (q : ItchRegs) (i : ItchIn) (d : Comb) : Comb :=
  let line := q.lineShifted i
  if q.bytesLeft < 0x9 ∧ q.bytesLeft > 0x4 then
    matchStock d i (line.extractLsb' 128 16)
  else if q.bytesLeft < 0x5 ∧ q.bytesLeft > 0x0 then
    let book := { d.decBook with orderId := line.extractLsb' 32 64, hasRep := false }
    { d with
      decBook := book
      decBookDel := { d.decBookDel with
        valid := q.matchLocate
        msgType := .delete
        orderId := book.orderId } }
  else d

/-- Case `REPLACE`, after the assignments `d`. -/
def onReplace (q : ItchRegs) (i : ItchIn) (d : Comb) : Comb :=
  let line := q.lineShifted i
  if q.bytesLeft < 0x19 ∧ q.bytesLeft > 0x14 then
    matchStock d i (line.extractLsb' 128 16)
  else if q.bytesLeft < 0x15 ∧ q.bytesLeft > 0x10 then
    let book := { d.decBook with orderId := line.extractLsb' 32 64 }
    { d with
      decBook := book
      decBookDel := { d.decBookDel with
        valid := q.matchLocate
        msgType := .delete
        hasRep := true
        orderId := book.orderId } }
  else if q.bytesLeft < 0x9 ∧ q.bytesLeft > 0x4 then
    { d with decBook := { d.decBook with orderId := line.extractLsb' 64 64 } }
  else if q.bytesLeft < 0x5 ∧ q.bytesLeft > 0x0 then
    { d with decBook := { d.decBook with
      valid := q.matchLocate
      msgType := .replace
      hasRep := false
      shares := line.extractLsb' 64 32
      price := line.extractLsb' 32 32 } }
  else d

/-- The combinational block. -/
def comb (q : ItchRegs) (i : ItchIn) : Comb :=
  if i.ipDataV then
    match q.state with
    | .idle => q.onIdle i
    | .sysEvent => q.onSysEvent i (q.count i)
    | .directory => q.onDirectory i (q.count i)
    | .tradingAction => q.onTradingAction i (q.count i)
    | .opHalt => q.onOpHalt i (q.count i)
    | .add => q.onAdd i (q.count i)
    | .execute => q.onExecute i (q.count i)
    | .executeP => q.onExecuteP i (q.count i)
    | .delete => q.onDelete i (q.count i)
    | .replace => q.onReplace i (q.count i)
    | .ignore => q.count i
  else q.hold i

/-- `ip_error_o`. -/
def Comb.ipError (d : Comb) : Bool :=
  d.errorMsgLen || d.errorMsgType || d.errorStockLocate || d.errorEventCode || d.errorTradeAction ||
    d.errorMarketCode || d.errorHaltCode || d.errorBuySell

/-- The registers after the clock edge. -/
def next (q : ItchRegs) (i : ItchIn) : ItchRegs :=
  let d := q.comb i
  { ipLine := d.ipLine
    bytesLeft := d.bytesLeft
    msgAlt := d.msgAlt
    decCtrl := d.decCtrl
    matchLocate := d.matchLocate
    decBookDel := d.decBookDel
    decBook := if q.decBookDel.valid then q.decBookDel else d.decBook
    state := d.state }

/-- The registers after reset; those without a reset keep what they had. -/
def reset (q : ItchRegs) : ItchRegs :=
  { q with
    bytesLeft := 0
    msgAlt := false
    decCtrl := { q.decCtrl with valid := false }
    decBookDel := { q.decBookDel with valid := false }
    decBook := { q.decBook with valid := false }
    state := .idle }

end ItchRegs

/-- The outputs of `itch_parser` in one cycle. -/
structure ItchOut where
  decCtrl : DecCtrl
  oidHash : BitVec 11
  decBook : DecBook
  ipError : Bool
  deriving DecidableEq, Repr

/-- `itch_parser`. -/
def itchParser : Circuit ItchRegs ItchIn ItchOut where
  next := ItchRegs.next
  out q i :=
    { decCtrl := q.decCtrl
      oidHash := (q.comb i).decBook.orderId.extractLsb' 0 11
      decBook := q.decBook
      ipError := (q.comb i).ipError }

/-- The inputs of `itch_parser_interface` in one cycle. -/
structure InterfaceIn where
  axis : Axis
  stockLocateV : Bool
  stockLocate : BitVec 16
  deriving DecidableEq, Repr

/-- What the MoldUDP64 parser hands to the ITCH parser. -/
def MoldRegs.itchIn (q : MoldRegs) (i : InterfaceIn) : ItchIn :=
  ⟨q.ipDataV, q.ipData, q.ipDataTlast, i.stockLocateV, i.stockLocate⟩

/-- `itch_parser_interface`: the decoded signals and `error_o`. -/
def itchParserInterface : Circuit (MoldRegs × ItchRegs) InterfaceIn (ItchOut × Bool) where
  next q i := (q.1.next i.axis, q.2.next (q.1.itchIn i))
  out q i :=
    let out := itchParser.out q.2 (q.1.itchIn i)
    (out, q.1.npError i.axis || out.ipError)

end ItchOrderBook.Rtl
