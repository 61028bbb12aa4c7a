import ItchOrderBook.Lib.Clocked
import ItchOrderBook.Rtl.Definitions

/-!
# The RTL best bid and offer

`bbo_half` of `bbo.sv`, the hand-flattened version for two entries, and `bbo`, which has one half
for each side. The combinational block of the half is split at its two `if`s: `onUpdt` is the state
of the `_d` signals after the refill word, `onMsg` that after the message.
-/

namespace ItchOrderBook.Rtl

/-- `bbo_word_s`. -/
structure BboWord where
  valid : Bool
  price : BitVec 32
  shares : BitVec 64
  deriving DecidableEq, Repr

/-- `'0`. -/
def BboWord.zero : BboWord := ⟨false, 0, 0⟩

/-- `bbo_arr_chng_e`. -/
inductive BboArrChng
  | hold
  | modify
  | top
  | bottom
  | insert
  deriving DecidableEq, Repr

/-- The message adds shares (`is_add`). -/
def DecBook.isAdd (d : DecBook) : Bool := d.msgType = .add || d.msgType = .replace

/-- The inputs of `bbo_half` in one cycle. -/
structure HalfIn where
  initV : Bool
  initPriceBound : BitVec 32
  decBook : DecBook
  updt : BboWord
  deriving DecidableEq, Repr

/-- The registers of `bbo_half`. `updtReq` is the output register `updt_req_o`. -/
structure HalfRegs where
  initialized : Bool
  priceBound : BitVec 32
  arr0 : BboWord
  arr1 : BboWord
  outSizeAll : BitVec 64
  outSizeInRange : BitVec 64
  updtAbleAll : Bool
  updtAbleInRange : Bool
  updting : Bool
  updtReq : Bool
  deriving DecidableEq, Repr

/-- The outputs of `bbo_half` in one cycle. -/
structure HalfOut where
  res : BboWord
  updtReq : Bool
  updtPriceAddr : BitVec 11
  error : Bool
  deriving DecidableEq, Repr

/-- `ins_flag`, `del_flag`, `mod_flag` and `out_flag`. -/
structure HalfFlags where
  ins : Bool
  del : Bool
  mod : Bool
  out : Bool
  deriving DecidableEq, Repr

namespace HalfRegs

/-- The registers after reset; `price_bound_q` has none. -/
def reset (q : HalfRegs) : HalfRegs :=
  ⟨false, q.priceBound, .zero, .zero, 0, 0, false, false, false, false⟩

/-- `arr_mod` of a slot, for a valid message. -/
def arrMod (d : DecBook) (w : BboWord) : BitVec 64 :=
  if d.isAdd then w.shares + d.shares.setWidth 64 else w.shares - d.shares.setWidth 64

/-- The slot is free or holds a price further from the top of the book. -/
def below (isBuy : Bool) (d : DecBook) (w : BboWord) : Bool :=
  !w.valid || (isBuy && decide (w.price < d.price)) || (!isBuy && decide (w.price > d.price))

/-- The shift code of a slot, and the flags as it leaves them. -/
def arrChng (isBuy : Bool) (d : DecBook) (w : BboWord) (f : HalfFlags) : BboArrChng × HalfFlags :=
  if below isBuy d w then (.insert, { f with ins := true, out := false })
  else if w.price = d.price then
    if arrMod d w = 0 then (.bottom, { f with del := true, out := false })
    else (.modify, { f with mod := true, out := false })
  else (.hold, f)

/-- `arr_chng[0]`, and the flags after slot 0. -/
def arrChng0 (isBuy : Bool) (q : HalfRegs) (d : DecBook) : BboArrChng × HalfFlags :=
  arrChng isBuy d q.arr0 ⟨false, false, false, true⟩

/-- `arr_chng[1]`, and the flags after slot 1. -/
def arrChng1 (isBuy : Bool) (q : HalfRegs) (d : DecBook) : BboArrChng × HalfFlags :=
  let f := (q.arrChng0 isBuy d).2
  if f.ins then (.top, f)
  else if f.del then (.bottom, f)
  else if f.mod then (.hold, f)
  else arrChng isBuy d q.arr1 f

/-- The price is in the range that the L2 table covers. -/
def inRange (isBuy : Bool) (q : HalfRegs) (price : BitVec 32) : Bool :=
  (isBuy && decide (price ≥ q.priceBound)) || (!isBuy && decide (price ≤ q.priceBound))

/-- The `_d` signals after the refill word. -/
def onUpdt (q : HalfRegs) (w : BboWord) : HalfRegs :=
  if w.valid then
    { q with
      arr1 := w
      outSizeAll := q.outSizeAll - w.shares
      outSizeInRange := q.outSizeInRange - w.shares
      updting := false
      updtReq := false }
  else { q with updtReq := false }

/-- `arr_d[0]`; slot 0 is never shifted onto from above. -/
def arrNext0 (q q' : HalfRegs) (d : DecBook) : BboArrChng → BboWord
  | .hold => q.arr0
  | .modify => { q'.arr0 with shares := arrMod d q.arr0 }
  | .bottom => q.arr1
  | .insert => ⟨d.valid, d.price, d.shares.setWidth 64⟩
  | .top => q'.arr0

/-- `arr_d[1]`. -/
def arrNext1 (q q' : HalfRegs) (d : DecBook) : BboArrChng → BboWord
  | .hold => q.arr1
  | .modify => { q'.arr1 with shares := arrMod d q.arr1 }
  | .top => q.arr0
  | .bottom => { q'.arr1 with valid := false, shares := 0 }
  | .insert => ⟨d.valid, d.price, d.shares.setWidth 64⟩

/-- The counters and the refill state after a message, from the flags. -/
def counters (isBuy : Bool) (q q' : HalfRegs) (d : DecBook) (f : HalfFlags) : HalfRegs :=
  if f.ins then
    { q' with
      outSizeAll := q.outSizeAll + q.arr1.shares
      outSizeInRange :=
        if q.inRange isBuy q.arr1.price then q.outSizeInRange + q.arr1.shares
        else q.outSizeInRange }
  else if f.del then
    { q' with
      updtReq := q.updtAbleAll && q.updtAbleInRange
      updting := q.updtAbleAll && q.updtAbleInRange }
  else if f.out then
    { q' with
      outSizeAll :=
        if d.isAdd then q.outSizeAll + d.shares.setWidth 64
        else q.outSizeAll - d.shares.setWidth 64
      outSizeInRange :=
        if q.inRange isBuy d.price then
          if d.isAdd then q.outSizeInRange + d.shares.setWidth 64
          else q.outSizeInRange - d.shares.setWidth 64
        else q.outSizeInRange }
  else q'

/-- The `_d` signals after the message; `q'` are those after the refill word. -/
def onMsg (isBuy : Bool) (q q' : HalfRegs) (d : DecBook) : HalfRegs :=
  if d.valid then
    { q.counters isBuy q' d (q.arrChng1 isBuy d).2 with
      arr0 := q.arrNext0 q' d (q.arrChng0 isBuy d).1
      arr1 := q.arrNext1 q' d (q.arrChng1 isBuy d).1 }
  else q'

/-- The registers after the clock edge. -/
def next (isBuy : Bool) (q : HalfRegs) (i : HalfIn) : HalfRegs :=
  { q.onMsg isBuy (q.onUpdt i.updt) i.decBook with
    initialized := i.initV || q.initialized
    priceBound := if i.initV then i.initPriceBound else q.priceBound
    updtAbleAll := decide (q.outSizeAll > 0)
    updtAbleInRange := decide (q.outSizeInRange > 0) }

/-- `error_state`. -/
def errorState (q : HalfRegs) (i : HalfIn) : Bool :=
  if i.decBook.valid then q.updting
  else if i.updt.valid then !q.updting || i.decBook.valid
  else false

/-- `error_init`. -/
def errorInit (q : HalfRegs) (i : HalfIn) : Bool :=
  (i.updt.valid || i.decBook.valid) && !q.initialized

/-- `error_updt`. -/
def errorUpdt (isBuy : Bool) (q : HalfRegs) (i : HalfIn) : Bool :=
  let f := (q.arrChng1 isBuy i.decBook).2
  i.decBook.valid && !f.ins && f.del && q.updtAbleAll && !q.updtAbleInRange

/-- The outputs in a cycle; `error_enum` stays low. -/
def out (isBuy : Bool) (q : HalfRegs) (i : HalfIn) : HalfOut where
  res := q.arr0
  updtReq := q.updtReq
  updtPriceAddr := (if i.updt.valid then i.updt.price else q.arr1.price).extractLsb' 1 11
  error := q.errorState i || q.errorInit i || q.errorUpdt isBuy i

end HalfRegs

/-- `bbo_half #(.IS_BUY(isBuy))`. -/
def bboHalf (isBuy : Bool) : Circuit HalfRegs HalfIn HalfOut where
  next := HalfRegs.next isBuy
  out := HalfRegs.out isBuy

/-! ### Both halves -/

/-- `bbo_s`. -/
structure Bbo where
  bidValid : Bool
  bidPrice : BitVec 32
  bidShares : BitVec 64
  offValid : Bool
  offPrice : BitVec 32
  offShares : BitVec 64
  spread : BitVec 32
  deriving DecidableEq, Repr

/-- The inputs of `bbo` in one cycle. -/
structure BboIn where
  initV : Bool
  initPriceBase : BitVec 32
  decBook : DecBook
  bidUpdt : BboWord
  offUpdt : BboWord

/-- The registers of `bbo`: those of its halves. -/
structure BboRegs where
  bid : HalfRegs
  off : HalfRegs
  deriving DecidableEq, Repr

/-- The outputs of `bbo` in one cycle. -/
structure BboOut where
  res : Bbo
  bidUpdtReq : Bool
  bidUpdtPriceAddr : BitVec 11
  offUpdtReq : Bool
  offUpdtPriceAddr : BitVec 11
  error : Bool
  deriving DecidableEq, Repr

/-- The inputs of `bid_half`. -/
def BboIn.bid (i : BboIn) : HalfIn :=
  ⟨i.initV, i.initPriceBase, { i.decBook with valid := i.decBook.valid && i.decBook.isBuy },
    i.bidUpdt⟩

/-- The inputs of `off_half`. -/
def BboIn.off (i : BboIn) : HalfIn :=
  ⟨i.initV, i.initPriceBase + 50 * (2048 - 1),
    { i.decBook with valid := i.decBook.valid && !i.decBook.isBuy }, i.offUpdt⟩

namespace BboRegs

/-- The registers after reset. -/
def reset (q : BboRegs) : BboRegs := ⟨q.bid.reset, q.off.reset⟩

/-- `bbo_res_o`. -/
def res (q : BboRegs) : Bbo where
  bidValid := q.bid.arr0.valid
  bidPrice := q.bid.arr0.price
  bidShares := q.bid.arr0.shares
  offValid := q.off.arr0.valid
  offPrice := q.off.arr0.price
  offShares := q.off.arr0.shares
  spread := q.off.arr0.price - q.bid.arr0.price

/-- The outputs in a cycle. -/
def out (q : BboRegs) (i : BboIn) : BboOut where
  res := q.res
  bidUpdtReq := (q.bid.out true i.bid).updtReq
  bidUpdtPriceAddr := (q.bid.out true i.bid).updtPriceAddr
  offUpdtReq := (q.off.out false i.off).updtReq
  offUpdtPriceAddr := (q.off.out false i.off).updtPriceAddr
  error := (q.bid.out true i.bid).error || (q.off.out false i.off).error

/-- The registers after the clock edge. -/
def next (q : BboRegs) (i : BboIn) : BboRegs := ⟨q.bid.next true i.bid, q.off.next false i.off⟩

end BboRegs

/-- `bbo`. -/
def bbo : Circuit BboRegs BboIn BboOut where
  next := BboRegs.next
  out := BboRegs.out

end ItchOrderBook.Rtl
