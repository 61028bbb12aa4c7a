import ItchOrderBook.Rtl.Book
import ItchOrderBook.Rtl.Control
import ItchOrderBook.Rtl.ItchParser

/-!
# The RTL top level

`top` of `top.sv`: the two parsers, `control` and `book`, and the output stage, which masks the sides
of a result by `stock_active_o`.
-/

namespace ItchOrderBook.Rtl

/-- The inputs of `top` in one cycle. -/
structure TopIn where
  initV : Bool
  initMarket : Market
  initStockSymbol : BitVec 64
  initPriceBase : BitVec 32
  axis : Axis
  deriving DecidableEq, Repr

/-- The registers of `top`. `bboResV` and `bboRes` are output registers. -/
structure TopRegs where
  mold : MoldRegs
  itch : ItchRegs
  control : ControlRegs
  book : BookRegs
  bboResV : Bool
  bboRes : Bbo
  error : Bool

/-- The outputs of `top` in one cycle; `axis_tready_o` is held high. -/
structure TopOut where
  bookReady : Bool
  bboResV : Bool
  bboRes : Bbo
  error : Bool
  deriving DecidableEq, Repr

/-- `bbo_res_d`: the sides are valid only if the stock is active. -/
def Bbo.mask (stockActive : Bool) (b : Bbo) : Bbo :=
  if stockActive then b else { b with bidValid := false, offValid := false }

namespace TopRegs

/-- The registers after reset; those without a reset keep what they had. -/
def reset (q : TopRegs) : TopRegs :=
  ⟨q.mold.reset, q.itch.reset, q.control.reset, q.book.reset, false, q.bboRes, false⟩

/-- The inputs of `itch_parser`. -/
def itchIn (q : TopRegs) : ItchIn :=
  ⟨q.mold.ipDataV, q.mold.ipData, q.mold.ipDataTlast, q.control.stockLocateV,
    q.control.stockLocate⟩

/-- The outputs of `itch_parser`. -/
def itchOut (q : TopRegs) : ItchOut := itchParser.out q.itch q.itchIn

/-- The inputs of `control`. -/
def controlIn (q : TopRegs) (i : TopIn) : ControlIn :=
  ⟨q.itchOut.decCtrl, q.itchOut.decBook.valid, i.initV, i.initMarket, i.initStockSymbol⟩

/-- The inputs of `book`. -/
def bookIn (q : TopRegs) (i : TopIn) : BookIn :=
  ⟨i.initV, i.initPriceBase, q.itchOut.oidHash, q.itchOut.decBook⟩

/-- `error_o`. -/
def errorOut (q : TopRegs) (i : TopIn) : Bool :=
  q.mold.npError i.axis || q.itchOut.ipError || q.control.ctrlError (q.controlIn i) ||
    q.book.error (q.bookIn i)

/-- The registers after the clock edge. -/
def next (q : TopRegs) (i : TopIn) : TopRegs where
  mold := q.mold.next i.axis
  itch := q.itch.next q.itchIn
  control := q.control.next (q.controlIn i)
  book := q.book.next (q.bookIn i)
  bboResV := q.book.bboResVLast
  bboRes := q.book.bbo.res.mask q.control.stockActive
  error := q.error || q.errorOut i

/-- The outputs in a cycle. -/
def out (q : TopRegs) (i : TopIn) : TopOut := ⟨q.book.ready, q.bboResV, q.bboRes, q.errorOut i⟩

end TopRegs

/-- `top`. -/
def top : Circuit TopRegs TopIn TopOut where
  next := TopRegs.next
  out := TopRegs.out

end ItchOrderBook.Rtl
