import ItchOrderBook.Lib.Clocked
import ItchOrderBook.Rtl.Definitions

/-!
# The RTL control module

`control` of `control.sv`. The enumerations only hold their named values, so `error_enum`, which
does not enter `ctrl_error_o`, stays low.
-/

namespace ItchOrderBook.Rtl

/-- The inputs of `control` in one cycle. -/
structure ControlIn where
  decCtrl : DecCtrl
  decBookV : Bool
  initV : Bool
  initMarket : Market
  initStockSymbol : BitVec 64
  deriving DecidableEq, Repr

/-- The registers of `control`. -/
structure ControlRegs where
  initialized : Bool
  initMarket : Market
  initStockSymbol : BitVec 64
  msgHours : Bool
  systemHours : Bool
  marketHours : Bool
  stockLocate : BitVec 16
  stockLocateV : Bool
  stockHalt : Bool
  marketHalt : Bool
  deriving DecidableEq, Repr

/-- The outputs of `control` in one cycle. -/
structure ControlOut where
  stockActive : Bool
  stockLocateV : Bool
  stockLocate : BitVec 16
  ctrlError : Bool
  deriving DecidableEq, Repr

namespace ControlRegs

/-- The registers after reset; those without a reset keep what they had. -/
def reset (q : ControlRegs) : ControlRegs :=
  { q with
    initialized := false
    msgHours := false
    systemHours := false
    marketHours := false
    stockLocateV := false
    stockHalt := true
    marketHalt := false }

/-- `msg_hours_d`, `system_hours_d` and `market_hours_d`. -/
def onEvent (q : ControlRegs) : EventCode → ControlRegs
  | .o => { q with msgHours := true }
  | .s => { q with systemHours := true }
  | .q => { q with marketHours := true }
  | .m => { q with marketHours := false }
  | .e => { q with systemHours := false }
  | .c => { q with msgHours := false }

/-- `stock_locate_v_d` and `stock_locate_d`. -/
def onDirectory (q : ControlRegs) (d : DecCtrl) : ControlRegs :=
  if d.stockSymbol = q.initStockSymbol then
    { q with stockLocateV := true, stockLocate := d.stockLocate }
  else q

/-- `stock_halt_d`. -/
def onAction (q : ControlRegs) (d : DecCtrl) : ControlRegs :=
  if d.stockSymbol = q.initStockSymbol then
    match d.tradeAction with
    | .h | .p => { q with stockHalt := true }
    | .q | .t => { q with stockHalt := false }
  else q

/-- `market_halt_d`. -/
def onHalt (q : ControlRegs) (d : DecCtrl) : ControlRegs :=
  if d.stockSymbol = q.initStockSymbol then
    if d.market = q.initMarket then { q with marketHalt := d.isHalt } else q
  else q

/-- The `_d` signals. -/
def comb (q : ControlRegs) (i : ControlIn) : ControlRegs :=
  if i.decCtrl.valid then
    match i.decCtrl.msgType with
    | .event => q.onEvent i.decCtrl.eventCode
    | .directory => q.onDirectory i.decCtrl
    | .action => q.onAction i.decCtrl
    | .halt => q.onHalt i.decCtrl
  else q

/-- `msg_expected`. -/
def msgExpected (q : ControlRegs) (i : ControlIn) : Bool :=
  if i.decCtrl.valid ∧ i.decCtrl.msgType = .event ∧ i.decCtrl.eventCode = .o then true
  else q.msgHours

/-- `error_stock_locate`. -/
def errorStockLocate (q : ControlRegs) (i : ControlIn) : Bool :=
  i.decCtrl.valid && i.decCtrl.msgType = .directory &&
    i.decCtrl.stockSymbol = q.initStockSymbol && q.stockLocateV &&
      q.stockLocate ≠ i.decCtrl.stockLocate

/-- `ctrl_error_o`. -/
def ctrlError (q : ControlRegs) (i : ControlIn) : Bool :=
  (i.decCtrl.valid || i.decBookV) && (!q.initialized || !q.msgExpected i) || q.errorStockLocate i

/-- `stock_active_o`. -/
def stockActive (q : ControlRegs) : Bool :=
  q.initialized && q.msgHours && q.systemHours && !q.stockHalt && !q.marketHalt

/-- The registers after the clock edge. -/
def next (q : ControlRegs) (i : ControlIn) : ControlRegs :=
  { q.comb i with
    initialized := if i.initV then true else q.initialized
    initMarket := if i.initV then i.initMarket else q.initMarket
    initStockSymbol := if i.initV then i.initStockSymbol else q.initStockSymbol }

/-- Without an initialisation the configuration is kept. -/
theorem next_eq_comb (q : ControlRegs) {i : ControlIn} (hi : i.initV = false) :
    q.next i = q.comb i := by
  rw [next, hi]
  simp only [Bool.false_eq_true, if_false]
  unfold comb
  split_ifs
  · split
    · cases i.decCtrl.eventCode <;> rfl
    · unfold onDirectory
      split_ifs <;> rfl
    · unfold onAction
      split_ifs
      · cases i.decCtrl.tradeAction <;> rfl
      · rfl
    · unfold onHalt
      split_ifs <;> rfl
  · rfl

end ControlRegs

/-- `control`. -/
def control : Circuit ControlRegs ControlIn ControlOut where
  next := ControlRegs.next
  out q i := ⟨q.stockActive, q.stockLocateV, q.stockLocate, q.ctrlError i⟩

end ItchOrderBook.Rtl
