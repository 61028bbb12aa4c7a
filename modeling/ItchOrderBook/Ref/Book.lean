import ItchOrderBook.Ref.L3OrderTable
import ItchOrderBook.Ref.L2PriceTable
import ItchOrderBook.Ref.Bbo

/-!
# The reference order book

`Book` of `book.py`: a message passes L3, then L2, then the BBO, and a refill request goes back
to L2. Each stage commits its own state before the next one runs.
-/

namespace ItchOrderBook.Ref

/-- The order book. -/
structure Book (cfg : Params) where
  l3 : L3 cfg
  l2 : L2 cfg
  bbo : BBO

namespace Book

variable {cfg : Params}

/-- `Book(ideal)`. -/
def new (cfg : Params) (ideal : Bool) : Book cfg := ⟨.new cfg ideal, .new cfg ideal, .new ideal⟩

/-- `Book.init_params`. -/
def initParams (b : Book cfg) (priceBase : ℤ) : Except Exn (Book cfg) :=
  match b.l2.initParams priceBase with
  | .error e => .error e
  | .ok l2 => .ok { b with l2, bbo := b.bbo.initParams cfg priceBase }

/-- The refill at the end of `Book.process_msg`, then its result. -/
def refill (b : Book cfg) (res : BBOResult) : Outcome BookResult × Book cfg :=
  let out : BookResult := ⟨res.bidEntry, res.offEntry, res.spread⟩
  if res.updtReq then
    match b.l2.getUpdt res.updtReqIsBuy with
    | .error e => (.raise e, b)
    | .ok entry =>
      match b.bbo.processUpdt cfg res.updtReqIsBuy entry with
      | .error e => (.raise e, b)
      | .ok bbo => (.ret out, { b with bbo })
  else (.ret out, b)

/-- The L2 and BBO stages of `Book.process_msg`. -/
def downstream (b : Book cfg) (lookupMsg : DownstreamOrderMsg) : Outcome BookResult × Book cfg :=
  match b.l2.processMsg lookupMsg with
  | (.raise e, l2) => (.raise e, { b with l2 })
  | (.err code, l2) => (.err ("(L2 MSG) " ++ code), { b with l2 })
  | (.ret (), l2) =>
    match b.bbo.processMsg cfg lookupMsg with
    | (.raise e, bbo) => (.raise e, { b with l2, bbo })
    | (.err code, bbo) => (.err ("(BBO) " ++ code), { b with l2, bbo })
    | (.ret res, bbo) => { b with l2, bbo }.refill res

/-- `Book.process_msg`. -/
def processMsg (b : Book cfg) (msg : BookMsg) : Outcome BookResult × Book cfg :=
  match b.l3.processMsg msg with
  | (.raise e, l3) => (.raise e, { b with l3 })
  | (.err code, l3) => (.err ("(L3) " ++ code), { b with l3 })
  | (.ret lookupMsg, l3) => { b with l3 }.downstream lookupMsg

end Book

end ItchOrderBook.Ref
