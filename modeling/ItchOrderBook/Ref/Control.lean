import ItchOrderBook.Ref.ItchParser

/-!
# The reference control module

`Control` of `control.py`: the hours and halt flags of the stock, and the stock locate that its
directory message assigns. What a message has changed before an error is returned stays changed.
-/

namespace ItchOrderBook.Ref

/-- `ControlResult` without its error fields. -/
structure ControlResult where
  stockActive : Bool
  stockLocate : Option ℕ
  deriving DecidableEq, Repr

/-- The control module. -/
structure Control where
  initialized : Bool
  marketCode : Option Char
  stockSymbol : Option String
  msgHours : Bool
  sysHours : Bool
  mktHours : Bool
  stockHalt : Bool
  marketHalt : Bool
  stockLocate : Option ℕ
  deriving DecidableEq, Repr

namespace Control

/-- `Control()`. -/
def new : Control := ⟨false, none, none, false, false, false, true, false, none⟩

/-- `Control.init_params`. -/
def initParams (s : Control) (marketCode : Char) (stockSymbol : String) : Except Exn Control :=
  if s.initialized then .error (.assertion "Control module already initialized.")
  else .ok { s with initialized := true, marketCode, stockSymbol }

/-- `stock_active`. -/
def stockActive (s : Control) : Bool :=
  s.msgHours && s.sysHours && !s.stockHalt && !s.marketHalt

/-- The end of `Control.process_msg`: the check of the message hours, and the result. -/
def finish (s : Control) (msgExpected : Bool) (stockLocate : Option ℕ) :
    Outcome ControlResult × Control :=
  if !msgExpected then (.err "Received msg while not msg_hours.", s)
  else (.ret ⟨s.stockActive, stockLocate⟩, s)

/-- The case of a system event. -/
def onEvent (s : Control) (eventCode : SystemEventCode) : Outcome ControlResult × Control :=
  match eventCode with
  | .msgBegin =>
    if s.msgHours then (.raise (.assertion "Incorrect msg_hours."), s)
    else { s with msgHours := true }.finish true none
  | .sysBegin =>
    if s.sysHours then (.raise (.assertion "Incorrect sys_hours."), s)
    else { s with sysHours := true }.finish s.msgHours none
  | .mktBegin =>
    if s.mktHours then (.raise (.assertion "Incorrect mkt_hours."), s)
    else { s with mktHours := true }.finish s.msgHours none
  | .mktEnd =>
    if !s.mktHours then (.raise (.assertion "Incorrect mkt_hours."), s)
    else { s with mktHours := false }.finish s.msgHours none
  | .sysEnd =>
    if !s.sysHours then (.raise (.assertion "Incorrect sys_hours."), s)
    else { s with sysHours := false }.finish s.msgHours none
  | .msgEnd =>
    if !s.msgHours then (.raise (.assertion "Incorrect msg_hours."), s)
    else { s with msgHours := false }.finish s.msgHours none

/-- The case of a directory message. -/
def onDirectory (s : Control) (stockLocate : ℕ) (stockSymbol : String) :
    Outcome ControlResult × Control :=
  if some stockSymbol = s.stockSymbol then
    if s.stockLocate ≠ none ∧ some stockLocate ≠ s.stockLocate then
      (.err s!"Received mismatch stock locate {stockLocate} in secondary directory message.", s)
    else { s with stockLocate := some stockLocate }.finish s.msgHours (some stockLocate)
  else s.finish s.msgHours none

/-- The case of a trading action. -/
def onAction (s : Control) (stockSymbol : String) (tradeAction : TradeActionCode) :
    Outcome ControlResult × Control :=
  if some stockSymbol = s.stockSymbol then
    match tradeAction with
    | .halt | .pause => { s with stockHalt := true }.finish s.msgHours none
    | .quote | .trade => { s with stockHalt := false }.finish s.msgHours none
  else s.finish s.msgHours none

/-- The case of an operational halt. -/
def onHalt (s : Control) (stockSymbol : String) (marketCode : Char) (isHalt : Bool) :
    Outcome ControlResult × Control :=
  if some stockSymbol = s.stockSymbol ∧ some marketCode = s.marketCode then
    if s.marketHalt = isHalt then (.raise (.assertion "Incorrect is_halt."), s)
    else { s with marketHalt := isHalt }.finish s.msgHours none
  else s.finish s.msgHours none

/-- `Control.process_msg`. -/
def processMsg (s : Control) (msg : ITCHMsg) : Outcome ControlResult × Control :=
  if !s.initialized then (.err "Control module received msg while not initialized.", s)
  else
    match msg with
    | .systemEvent _ eventCode => s.onEvent eventCode
    | .directory stockLocate stockSymbol => s.onDirectory stockLocate stockSymbol
    | .tradeAction _ stockSymbol tradeAction => s.onAction stockSymbol tradeAction
    | .opHalt _ stockSymbol marketCode isHalt => s.onHalt stockSymbol marketCode isHalt
    | .book _ | .other _ => s.finish s.msgHours none

end Control

end ItchOrderBook.Ref
