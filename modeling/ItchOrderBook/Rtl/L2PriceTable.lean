import ItchOrderBook.Rtl.Bbo
import ItchOrderBook.Rtl.L2Search
import ItchOrderBook.Rtl.XpmMemory

/-!
# The RTL price table

`l2_price_table.sv`: the share memories with their reset sweep (`l2_sdpram_wrapper`), the tables
between price addresses, orderings and prices (`l2_ordering_lut`), and `l2_price_table`, whose search
for the next price level has 64 blocks of 32 orderings.

The combinational blocks of `l2_price_table` each have a definition; `error_state` and `error_enum`
stay low and are left out.
-/

namespace ItchOrderBook.Rtl

/-! ### The share memories -/

/-- The inputs of `l2_sdpram_wrapper` in one cycle. -/
structure L2RamIn where
  wea : Bool
  addra : BitVec 11
  dina : BitVec 64
  addrb : BitVec 11

/-- The registers of `l2_sdpram_wrapper`. -/
structure L2RamRegs where
  ram : Sdpram 11 64
  rstInProgress : Bool
  count : BitVec 11

namespace L2RamRegs

/-- The registers after reset; the memory has none. -/
def reset (q : L2RamRegs) : L2RamRegs := { q with rstInProgress := true, count := BitVec.allOnes 11 }

/-- The registers after the clock edge. -/
def next (q : L2RamRegs) (i : L2RamIn) : L2RamRegs where
  ram :=
    q.ram.next (if q.rstInProgress then true else i.wea)
      (if q.rstInProgress then q.count else i.addra)
      (if q.rstInProgress then 0 else i.dina) i.addrb
  rstInProgress := decide (q.count ≠ 0)
  count := if q.rstInProgress ∧ q.count ≠ 0 then q.count - 1 else 0

/-- `l2_ram_rst_done_o`. -/
def rstDone (q : L2RamRegs) : Bool := !q.rstInProgress

end L2RamRegs

/-! ### The lookup tables -/

/-- The inputs of `l2_ordering_lut` in one cycle. -/
structure LutIn where
  initV : Bool
  initPriceBase : BitVec 32
  priceAddr1 : BitVec 11
  priceAddr2 : BitVec 11
  ordering : BitVec 11

/-- The registers of `l2_ordering_lut`. -/
structure LutRegs where
  initialized : Bool
  initDone : Bool
  count : BitVec 11
  price : BitVec 32
  priceAddrToOrdering : Tdpram 11 11
  orderingToPrice : Sdpram 11 32

namespace LutRegs

/-- The registers after reset; the counter, the price and the memories have none. -/
def reset (q : LutRegs) : LutRegs := { q with initialized := false, initDone := false }

/-- `wea`. -/
def wea (q : LutRegs) : Bool := q.initialized && !q.initDone

/-- The registers after the clock edge. -/
def next (q : LutRegs) (i : LutIn) : LutRegs where
  initialized := q.initialized || i.initV
  initDone := q.initDone || decide (q.count = BitVec.allOnes 11)
  count := if i.initV then 0 else q.count + 1
  price := if i.initV then i.initPriceBase else q.price + 50
  priceAddrToOrdering :=
    q.priceAddrToOrdering.next q.wea
      (if q.wea then q.price.extractLsb' 1 11 else i.priceAddr1) q.count false i.priceAddr2 0
  orderingToPrice := q.orderingToPrice.next q.wea q.count q.price i.ordering

end LutRegs

/-! ### The price table -/

/-- The inputs of `l2_price_table` in one cycle. -/
structure L2In where
  initV : Bool
  initPriceBase : BitVec 32
  decBook : DecBook
  bidUpdtReq : Bool
  bidUpdtPriceAddr : BitVec 11
  offUpdtReq : Bool
  offUpdtPriceAddr : BitVec 11

/-- An entry of `local_enc_arr_v` and of `local_enc_arr`. -/
abbrev LocalEnc := Search.LocalEnc 5

/-- The registers of the search on one side. -/
structure SearchRegs where
  updtReq : Bool
  updtReq2 : Bool
  updtOrdering : BitVec 11
  localEncArr : Fin 64 → LocalEnc
  enc : BitVec 11

/-- The registers of `l2_price_table`. `existArr` is the packed array of existence bits. -/
structure L2Regs where
  initialized : Bool
  priceBase : BitVec 32
  priceMax : BitVec 32
  decBook : DecBook
  existWen : Bool
  existWaddr : BitVec 11
  existDin : Bool
  existArr : BitVec 11 → Bool
  bid : SearchRegs
  off : SearchRegs
  paRam : L2RamRegs
  odRam : L2RamRegs
  lut : LutRegs

/-- The outputs of `l2_price_table` in one cycle. -/
structure L2Out where
  bidUpdt : BboWord
  offUpdt : BboWord
  ready : Bool
  error : Bool
  deriving DecidableEq, Repr

/-- The address bits of a price. -/
def priceAddr (p : BitVec 32) : BitVec 11 := p.extractLsb' 1 11

/-- `bid_local_enc_arr_d` and `bid_local_enc_arr_v_d`. -/
def bidLocalEnc (exist : BitVec 11 → Bool) (ordering : BitVec 11) : Fin 64 → LocalEnc :=
  Search.bidLocalEnc 6 5 exist ordering

/-- `off_local_enc_arr_d` and `off_local_enc_arr_v_d`. -/
def offLocalEnc (exist : BitVec 11 → Bool) (ordering : BitVec 11) : Fin 64 → LocalEnc :=
  Search.offLocalEnc 6 5 exist ordering

/-- `bid_enc_d`. -/
def bidEnc (arr : Fin 64 → LocalEnc) : BitVec 11 := Search.bidEnc 6 5 arr

/-- `off_enc_d`. -/
def offEnc (arr : Fin 64 → LocalEnc) : BitVec 11 := Search.offEnc 6 5 arr

namespace L2Regs

/-- The registers after reset; most of the data path has none. -/
def reset (q : L2Regs) : L2Regs :=
  { q with
    initialized := false
    decBook := { q.decBook with valid := false }
    existWen := false
    existArr := fun _ => false
    bid := { q.bid with updtReq := false, updtReq2 := false }
    off := { q.off with updtReq := false, updtReq2 := false }
    paRam := q.paRam.reset
    odRam := q.odRam.reset
    lut := q.lut.reset }

/-- `dec_book_d`: a message is taken into the table if its price is in range. -/
def decBookNext (q : L2Regs) (d : DecBook) : DecBook :=
  if d.valid then
    { d with valid := decide (d.price ≥ q.priceBase) && decide (d.price ≤ q.priceMax) }
  else d

/-- `order_new_shares`. -/
def orderNewShares (q : L2Regs) : BitVec 64 :=
  if q.decBook.valid ∧ q.decBook.isAdd then
    q.paRam.ram.doutb + q.decBook.shares.setWidth 64
  else q.paRam.ram.doutb - q.decBook.shares.setWidth 64

/-- `exist_din_d`. -/
def existDinNext (q : L2Regs) : Bool :=
  q.decBook.valid && (q.decBook.isAdd || decide (q.orderNewShares > 0))

/-- `exist_arr_d`. -/
def existArrNext (q : L2Regs) : BitVec 11 → Bool :=
  if q.existWen then Function.update q.existArr q.existWaddr q.existDin else q.existArr

/-- `od_ram_addrb` and `l2_lut_ordering_in`. -/
def lookupOrdering (q : L2Regs) : BitVec 11 :=
  if q.bid.updtReq then q.bid.enc else if q.off.updtReq then q.off.enc else q.bid.enc

/-- `ram_wea`, the write and the read address, and `ram_dina` of one of the two memories. -/
def ramIn (q : L2Regs) (addra addrb : BitVec 11) : L2RamIn :=
  ⟨q.decBook.valid, addra, q.orderNewShares, addrb⟩

/-- The inputs of the lookup tables; port 1 serves the messages before the bid search. -/
def lutIn (q : L2Regs) (i : L2In) : LutIn where
  initV := i.initV
  initPriceBase := i.initPriceBase
  priceAddr1 := if i.decBook.valid then priceAddr i.decBook.price else i.bidUpdtPriceAddr
  priceAddr2 := i.offUpdtPriceAddr
  ordering := q.lookupOrdering

/-- The registers after the clock edge. -/
def next (q : L2Regs) (i : L2In) : L2Regs where
  initialized := i.initV || q.initialized
  priceBase := if i.initV then i.initPriceBase else q.priceBase
  priceMax := if i.initV then i.initPriceBase + (50 <<< 11) - 50 else q.priceMax
  decBook := q.decBookNext i.decBook
  existWen := q.decBook.valid
  existWaddr := q.lut.priceAddrToOrdering.douta
  existDin := q.existDinNext
  existArr := q.existArrNext
  bid :=
    ⟨i.bidUpdtReq, q.bid.updtReq, q.lut.priceAddrToOrdering.douta,
      bidLocalEnc q.existArr q.bid.updtOrdering, bidEnc q.bid.localEncArr⟩
  off :=
    ⟨i.offUpdtReq, q.off.updtReq, q.lut.priceAddrToOrdering.doutb,
      offLocalEnc q.existArr q.off.updtOrdering, offEnc q.off.localEncArr⟩
  paRam := q.paRam.next (q.ramIn (priceAddr q.decBook.price) (priceAddr i.decBook.price))
  odRam := q.odRam.next (q.ramIn q.lut.priceAddrToOrdering.douta q.lookupOrdering)
  lut := q.lut.next (q.lutIn i)

/-- `l2_ready_o`. -/
def ready (q : L2Regs) : Bool := q.paRam.rstDone && q.odRam.rstDone && q.lut.initDone

/-- `l2_error_o`. -/
def error (q : L2Regs) (i : L2In) : Bool :=
  i.decBook.valid && (!q.initialized || decide (i.decBook.price % 50 ≠ 0))

/-- The outputs in a cycle. -/
def out (q : L2Regs) (i : L2In) : L2Out where
  bidUpdt := ⟨q.bid.updtReq2, q.lut.orderingToPrice.doutb, q.odRam.ram.doutb⟩
  offUpdt := ⟨q.off.updtReq2, q.lut.orderingToPrice.doutb, q.odRam.ram.doutb⟩
  ready := q.ready
  error := q.error i

end L2Regs

/-- `l2_price_table`. -/
def l2PriceTable : Circuit L2Regs L2In L2Out where
  next := L2Regs.next
  out := L2Regs.out

end ItchOrderBook.Rtl
