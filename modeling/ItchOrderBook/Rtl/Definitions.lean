import Mathlib.Data.Nat.Notation
import Mathlib.Algebra.Order.Ring.Int

/-!
# RTL definitions

The enumerations and packed structures of `definitions.sv` that pass between the modules.
-/

namespace ItchOrderBook.Rtl

/-- `ctrl_msg_type_e`. -/
inductive CtrlMsgType
  | event
  | directory
  | action
  | halt
  deriving DecidableEq, Repr

/-- `event_code_e`. -/
inductive EventCode
  | o
  | s
  | q
  | m
  | e
  | c
  deriving DecidableEq, Repr

/-- `trade_action_e`. -/
inductive TradeAction
  | h
  | p
  | q
  | t
  deriving DecidableEq, Repr

/-- `market_e`. -/
inductive Market
  | q
  | b
  | x
  deriving DecidableEq, Repr

/-- `dec_ctrl_s`. -/
structure DecCtrl where
  valid : Bool
  msgType : CtrlMsgType
  stockLocate : BitVec 16
  eventCode : EventCode
  stockSymbol : BitVec 64
  tradeAction : TradeAction
  market : Market
  isHalt : Bool
  deriving DecidableEq, Repr

/-- `book_msg_type_e`. -/
inductive BookMsgType
  | add
  | replace
  | reduce
  | delete
  deriving DecidableEq, Repr

/-- `dec_book_s`. -/
structure DecBook where
  valid : Bool
  msgType : BookMsgType
  hasRep : Bool
  orderId : BitVec 64
  isBuy : Bool
  shares : BitVec 32
  price : BitVec 32
  deriving DecidableEq, Repr

/-- `'0`. -/
def DecCtrl.zero : DecCtrl := ⟨false, .event, 0, .o, 0, .h, .q, false⟩

/-- `'0`. -/
def DecBook.zero : DecBook := ⟨false, .add, false, 0, false, 0, 0⟩

end ItchOrderBook.Rtl
