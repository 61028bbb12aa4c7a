import ItchOrderBook.Rtl.L2PriceTable
import ItchOrderBook.Rtl.L3OrderTable

/-!
# The RTL book

`book.sv`: the order table in front of the price table and the best bid and offer, and the register
that holds the order behind a delete while the best bid or offer is refilled.
-/

namespace ItchOrderBook.Rtl

/-- The inputs of `book` in one cycle. -/
structure BookIn where
  initV : Bool
  initPriceBase : BitVec 32
  oidHash : BitVec 11
  decBook : DecBook

/-- The registers of `book`. `decBookUpdt` is `dec_book_updt_q`. -/
structure BookRegs where
  decBookUpdt : DecBook
  updtIng : Bool
  bboResVLast : Bool
  l3 : L3Regs
  l2 : L2Regs
  bbo : BboRegs

/-- The outputs of `book` in one cycle. -/
structure BookOut where
  bboResV : Bool
  bboRes : Bbo
  ready : Bool
  error : Bool
  deriving DecidableEq, Repr

/-- The words of the refill are registered outputs of `l2_price_table`. -/
def L2Regs.bidUpdt (q : L2Regs) : BboWord :=
  ⟨q.bid.updtReq2, q.lut.orderingToPrice.doutb, q.odRam.ram.doutb⟩

/-- The words of the refill are registered outputs of `l2_price_table`. -/
def L2Regs.offUpdt (q : L2Regs) : BboWord :=
  ⟨q.off.updtReq2, q.lut.orderingToPrice.doutb, q.odRam.ram.doutb⟩

@[simp] theorem l2PriceTable_out_bidUpdt (q : L2Regs) (i : L2In) :
    (l2PriceTable.out q i).bidUpdt = q.bidUpdt := rfl

@[simp] theorem l2PriceTable_out_offUpdt (q : L2Regs) (i : L2In) :
    (l2PriceTable.out q i).offUpdt = q.offUpdt := rfl

namespace BookRegs

/-- The registers after reset; `bbo_res_v_last_q` is not among those that have one. -/
def reset (q : BookRegs) : BookRegs where
  decBookUpdt := { q.decBookUpdt with valid := false }
  updtIng := false
  bboResVLast := q.bboResVLast
  l3 := q.l3.reset
  l2 := q.l2.reset
  bbo := q.bbo.reset

/-- `lookup_dec_book`. -/
def lookup (q : BookRegs) : DecBook := q.l3.lookup

/-- The held order is handed on. -/
def release (q : BookRegs) : Bool := q.decBookUpdt.valid && !q.updtIng

/-- `bbo_dec_book`. -/
def bboDecBook (q : BookRegs) : DecBook :=
  if q.release then q.decBookUpdt
  else if q.updtIng then { q.lookup with valid := false }
  else q.lookup

/-- `dec_book_updt_d`. -/
def decBookUpdtNext (q : BookRegs) : DecBook :=
  if q.release then { q.lookup with valid := false }
  else if q.updtIng then q.lookup
  else { q.lookup with valid := false }

/-- `error_dec_updt`. -/
def errorDecUpdt (q : BookRegs) : Bool :=
  q.release && (q.lookup.valid || decide (q.decBookUpdt.msgType ≠ .replace))

/-- The inputs of `bbo`. -/
def bboIn (q : BookRegs) (i : BookIn) : BboIn :=
  ⟨i.initV, i.initPriceBase, q.bboDecBook, q.l2.bidUpdt, q.l2.offUpdt⟩

/-- The inputs of `l2_price_table`. -/
def l2In (q : BookRegs) (i : BookIn) : L2In where
  initV := i.initV
  initPriceBase := i.initPriceBase
  decBook := q.lookup
  bidUpdtReq := (q.bbo.out (q.bboIn i)).bidUpdtReq
  bidUpdtPriceAddr := (q.bbo.out (q.bboIn i)).bidUpdtPriceAddr
  offUpdtReq := (q.bbo.out (q.bboIn i)).offUpdtReq
  offUpdtPriceAddr := (q.bbo.out (q.bboIn i)).offUpdtPriceAddr

/-- `updt_ing_d`. -/
def updtIngNext (q : BookRegs) (i : BookIn) : Bool :=
  if q.l2.bidUpdt.valid || q.l2.offUpdt.valid then false
  else if (q.bbo.out (q.bboIn i)).bidUpdtReq || (q.bbo.out (q.bboIn i)).offUpdtReq then true
  else q.updtIng

/-- The registers after the clock edge. -/
def next (q : BookRegs) (i : BookIn) : BookRegs where
  decBookUpdt := q.decBookUpdtNext
  updtIng := q.updtIngNext i
  bboResVLast := q.bboDecBook.valid && !q.bboDecBook.hasRep
  l3 := q.l3.next ⟨i.oidHash, i.decBook⟩
  l2 := q.l2.next (q.l2In i)
  bbo := q.bbo.next (q.bboIn i)

/-- `book_ready_o`. -/
def ready (q : BookRegs) : Bool := q.l2.ready && q.l3.ram.rstDone

/-- `error_ready`. -/
def errorReady (q : BookRegs) (i : BookIn) : Bool := i.decBook.valid && !q.ready

/-- `book_error_o`. -/
def error (q : BookRegs) (i : BookIn) : Bool :=
  q.l3.error i.decBook || q.l2.error (q.l2In i) || (q.bbo.out (q.bboIn i)).error ||
    q.errorReady i || q.errorDecUpdt

/-- The outputs in a cycle. -/
def out (q : BookRegs) (i : BookIn) : BookOut := ⟨q.bboResVLast, q.bbo.res, q.ready, q.error i⟩

end BookRegs

/-- `book`. -/
def book : Circuit BookRegs BookIn BookOut where
  next := BookRegs.next
  out := BookRegs.out

end ItchOrderBook.Rtl
