import ItchOrderBook.Ref.Params

/-!
# Messages and result records of the reference model

The record types of `structs.py` that the parsers and the order book read and return. Order ids
and locates come out of `int.from_bytes` and are natural numbers; prices and share counts are
Python integers, because the book subtracts them.
-/

namespace ItchOrderBook.Ref

/-- The four members of `ITCHMsgType` that reach the order book. -/
inductive BookMsgType
  | add
  | replace
  | reduce
  | delete
  deriving DecidableEq, Repr

/-- `AddOrderMsg`, `ReduceOrderMsg`, `DeleteOrderMsg` and `ReplaceOrderMsg`. -/
inductive BookMsg
  | add (stockLocate orderId : ℕ) (isBuy : Bool) (shares price : ℤ)
  | reduce (stockLocate orderId : ℕ) (shares : ℤ)
  | delete (stockLocate orderId : ℕ)
  | replace (stockLocate orderId : ℕ) (shares price : ℤ)
  deriving DecidableEq, Repr

namespace BookMsg

/-- `msg.stock_locate`. -/
def stockLocate : BookMsg → ℕ
  | .add l .. | .reduce l .. | .delete l .. | .replace l .. => l

/-- `msg.msg_type`. -/
def msgType : BookMsg → BookMsgType
  | .add .. => .add
  | .reduce .. => .reduce
  | .delete .. => .delete
  | .replace .. => .replace

/-- `msg.order_id`. -/
def orderId : BookMsg → ℕ
  | .add _ i .. | .reduce _ i .. | .delete _ i .. | .replace _ i .. => i

/-- Every share count the message carries is at least one; a delete carries none. -/
def SharesPos : BookMsg → Prop
  | .add _ _ _ s _ | .reduce _ _ s | .replace _ _ s _ => 1 ≤ s
  | .delete .. => True

instance : DecidablePred SharesPos := fun m => by
  cases m <;> simp only [SharesPos] <;> infer_instance

end BookMsg

/-- `L3Entry`. -/
structure L3Entry where
  isBuy : Bool
  shares : ℤ
  price : ℤ
  deriving DecidableEq, Repr

/-- `DownstreamOrderMsg`: an order message with the fields looked up in L3. -/
structure DownstreamOrderMsg where
  msgType : BookMsgType
  isBuy : Bool
  shares : ℤ
  price : ℤ
  deriving DecidableEq, Repr

/-- The message adds shares to its level (`ADD | REPLACE`). -/
def BookMsgType.isAdd : BookMsgType → Bool
  | .add | .replace => true
  | .reduce | .delete => false

/-- `BBOEntry`. -/
structure BBOEntry where
  shares : ℤ
  price : ℤ
  deriving DecidableEq, Repr

/-- `BookResult` without its error fields. -/
structure BookResult where
  bidEntry : Option BBOEntry
  offEntry : Option BBOEntry
  spread : Option ℤ
  deriving DecidableEq, Repr

/-- `BBOHalfResult` without its error fields. -/
structure BBOHalfResult where
  entry : Option BBOEntry
  updtReq : Bool
  updtReqMaskEnc : ℤ
  deriving DecidableEq, Repr

/-- `BBOResult` without its error fields. -/
structure BBOResult where
  bidEntry : Option BBOEntry
  offEntry : Option BBOEntry
  spread : Option ℤ
  updtReq : Bool
  updtReqIsBuy : Bool
  updtReqMaskEnc : ℤ
  deriving DecidableEq, Repr

end ItchOrderBook.Ref
