import ItchOrderBook.Lib.Clocked
import ItchOrderBook.Rtl.Definitions
import Mathlib.Data.List.FinRange
import Mathlib.Logic.Function.Basic

/-!
# The RTL order table

`l3_order_table.sv`: the memory of lines of eight ways with its reset sweep and its bypass
(`l3_sdpram_wrapper`), the content-addressable memory of eight slots for the orders that find no way
(`l3_cam_wrapper`), and `l3_order_table`, whose combinational block has a definition for each case.

The loops over ways and slots keep the last hit; `error_enum` stays low and is left out.
-/

namespace ItchOrderBook.Rtl

/-- `l3_word_s`. -/
structure L3Word where
  valid : Bool
  orderId : BitVec 64
  isBuy : Bool
  shares : BitVec 32
  price : BitVec 32
  deriving DecidableEq, Repr

/-- `'0`. -/
def L3Word.zero : L3Word := ⟨false, 0, false, 0, 0⟩

/-- `l3_line_t`. -/
abbrev L3Line := Fin 8 → L3Word

/-- A way by its index. -/
def wayAt (n : ℕ) : Fin 8 := Fin.ofNat 8 n

/-- The last way or slot with a property. -/
def lastWay (p : Fin 8 → Bool) : Option (Fin 8) := (List.finRange 8).reverse.find? p

/-! ### The memory of lines -/

/-- `xpm_memory_sdpram`, with a line as its word. -/
structure LineRam where
  mem : BitVec 11 → L3Line
  doutb : L3Line

/-- The registers of the memory after the clock edge. -/
def LineRam.next (s : LineRam) (wea : Bool) (addra : BitVec 11) (dina : L3Line) (addrb : BitVec 11) :
    LineRam :=
  ⟨if wea then Function.update s.mem addra dina else s.mem, s.mem addrb⟩

/-- The inputs of `l3_sdpram_wrapper` in one cycle. -/
structure L3RamIn where
  wea : Bool
  addra : BitVec 11
  line : L3Line
  wordIdx : Fin 8
  writeWord : L3Word
  addrb : BitVec 11

/-- The registers of `l3_sdpram_wrapper`. `doutb` is the output register `l3_ram_doutb_o`. -/
structure L3RamRegs where
  ram : LineRam
  wea : Bool
  addra : BitVec 11
  line : L3Line
  wordIdx : Fin 8
  word : L3Word
  addrb : BitVec 11
  wea2 : Bool
  addra2 : BitVec 11
  dina : L3Line
  doutb : L3Line
  rstInProgress : Bool
  count : BitVec 11

namespace L3RamRegs

/-- The registers after reset; the memory and the data path have none. -/
def reset (q : L3RamRegs) : L3RamRegs :=
  { q with wea := false, rstInProgress := true, count := BitVec.allOnes 11 }

/-- `dina_mod`: the word is put into the line. -/
def dinaMod (q : L3RamRegs) : L3Line := Function.update q.line q.wordIdx q.word

/-- `dina`. -/
def dinaNext (q : L3RamRegs) : L3Line :=
  if q.rstInProgress then fun _ => .zero else q.dinaMod

/-- The registers after the clock edge. -/
def next (q : L3RamRegs) (i : L3RamIn) : L3RamRegs where
  ram :=
    q.ram.next (if q.rstInProgress then true else q.wea)
      (if q.rstInProgress then q.count else q.addra) q.dinaNext i.addrb
  wea := i.wea
  addra := i.addra
  line := i.line
  wordIdx := i.wordIdx
  word := i.writeWord
  addrb := i.addrb
  wea2 := q.wea
  addra2 := q.addra
  dina := q.dinaNext
  doutb := if q.addrb = q.addra2 ∧ q.wea2 then q.dina else q.ram.doutb
  rstInProgress := decide (q.count ≠ 0)
  count := if q.rstInProgress ∧ q.count ≠ 0 then q.count - 1 else 0

/-- `l3_ram_rst_done_o`. -/
def rstDone (q : L3RamRegs) : Bool := !q.rstInProgress

end L3RamRegs

/-- The outputs of `l3_sdpram_wrapper` in one cycle. -/
structure L3RamOut where
  doutb : L3Line
  rstDone : Bool

/-- `l3_sdpram_wrapper`. -/
def l3SdpramWrapper : Circuit L3RamRegs L3RamIn L3RamOut where
  next := L3RamRegs.next
  out q _ := ⟨q.doutb, q.rstDone⟩

/-! ### The content-addressable memory -/

/-- The registers of `l3_cam_wrapper`. -/
structure CamRegs where
  wEn : Bool
  dIn : L3Word
  memArr : Fin 8 → L3Word

namespace CamRegs

/-- The registers after reset: of the slots only `valid` has one. -/
def reset (q : CamRegs) : CamRegs :=
  { q with wEn := false, memArr := fun i => { q.memArr i with valid := false } }

/-- A slot has the id of the word to be written: one that is not valid, too. -/
def writeHit (q : CamRegs) : Bool := decide (∃ i, (q.memArr i).orderId = q.dIn.orderId)

/-- `empty_slot`, if `empty_hit`. -/
def emptySlot (q : CamRegs) : Option (Fin 8) := lastWay fun i => !(q.memArr i).valid

/-- `mem_arr_d`. -/
def memArrNext (q : CamRegs) : Fin 8 → L3Word :=
  if q.wEn then
    if q.writeHit then
      fun i => if (q.memArr i).orderId = q.dIn.orderId then q.dIn else q.memArr i
    else
      match q.emptySlot with
      | some i => Function.update q.memArr i q.dIn
      | none => q.memArr
  else q.memArr

/-- The registers after the clock edge. -/
def next (q : CamRegs) (wEn : Bool) (dIn : L3Word) : CamRegs := ⟨wEn, dIn, q.memArrNext⟩

/-- `l3_cam_error_o`. -/
def error (q : CamRegs) : Bool := q.wEn && !q.writeHit && q.emptySlot.isNone

/-- The slot that is found by the order id. -/
def find (q : CamRegs) (id : BitVec 64) : Option L3Word :=
  (lastWay fun i => decide ((q.memArr i).orderId = id) && (q.memArr i).valid).map q.memArr

/-- `l3_cam_d_out_o`. -/
def dOut (q : CamRegs) (id : BitVec 64) : L3Word := (q.find id).getD .zero

/-- `l3_cam_sub_shares_o`. -/
def subShares (q : CamRegs) (id : BitVec 64) (shares : BitVec 32) : BitVec 32 :=
  match q.find id with
  | some w => w.shares - shares
  | none => 0

end CamRegs

/-! ### The order table -/

/-- The inputs of `l3_order_table` in one cycle. -/
structure L3In where
  oidHash : BitVec 11
  decBook : DecBook

/-- The registers of `l3_order_table`. `lookup` is the output register `lookup_dec_book_o`. -/
structure L3Regs where
  oidHash : BitVec 11
  prevIsBuy : Bool
  lookup : DecBook
  ram : L3RamRegs
  cam : CamRegs

/-- The values of the combinational block. -/
structure L3Comb where
  ramWea : Bool
  wordIdx : Fin 8
  writeWord : L3Word
  camWEn : Bool
  prevIsBuy : Bool
  lookup : DecBook
  errorAddId : Bool
  errorReduceId : Bool
  errorNegShares : Bool

/-- The outputs of `l3_order_table` in one cycle. -/
structure L3Out where
  lookup : DecBook
  ready : Bool
  error : Bool
  deriving DecidableEq, Repr

namespace L3Regs

/-- The registers after reset; those of `l3_order_table` itself have none. -/
def reset (q : L3Regs) : L3Regs := { q with ram := q.ram.reset, cam := q.cam.reset }

/-- `match_way`, if `match_hit`. -/
def matchWay (q : L3Regs) (id : BitVec 64) : Option (Fin 8) :=
  lastWay fun i => (q.ram.doutb i).valid && decide ((q.ram.doutb i).orderId = id)

/-- `empty_way`, if `empty_hit`. -/
def emptyWay (q : L3Regs) : Option (Fin 8) := lastWay fun i => !(q.ram.doutb i).valid

/-- The id is in the memory or in the CAM. -/
def hit (q : L3Regs) (id : BitVec 64) : Bool := (q.matchWay id).isSome || (q.cam.dOut id).valid

/-- The default values. -/
def idle (q : L3Regs) (d : DecBook) : L3Comb :=
  ⟨false, 0, .zero, false, q.prevIsBuy, d, false, false, false⟩

/-- The word goes to a way, or else to the CAM. -/
def write (c : L3Comb) (w : L3Word) : Option (Fin 8) → L3Comb
  | some i => { c with writeWord := w, ramWea := true, wordIdx := i }
  | none => { c with writeWord := w, camWEn := true }

/-- `MSG_ADD` and `MSG_REPLACE`, with the side of the order. -/
def onInsert (q : L3Regs) (d : DecBook) (isBuy : Bool) : L3Comb :=
  write { q.idle { d with isBuy } with errorAddId := q.hit d.orderId }
    ⟨true, d.orderId, isBuy, d.shares, d.price⟩ q.emptyWay

/-- `MSG_REDUCE`. -/
def onReduce (q : L3Regs) (d : DecBook) : L3Comb :=
  let stored :=
    match q.matchWay d.orderId with
    | some i => { q.ram.doutb i with shares := (q.ram.doutb i).shares - d.shares }
    | none => { q.cam.dOut d.orderId with shares := q.cam.subShares d.orderId d.shares }
  write
    { q.idle { d with isBuy := stored.isBuy, price := stored.price } with
      errorReduceId := !q.hit d.orderId
      errorNegShares := stored.shares.msb }
    ⟨decide (stored.shares ≠ 0), d.orderId, stored.isBuy, stored.shares, stored.price⟩
    (q.matchWay d.orderId)

/-- `MSG_DELETE`; the word that is written is `'0`. -/
def onDelete (q : L3Regs) (d : DecBook) : L3Comb :=
  let stored :=
    match q.matchWay d.orderId with
    | some i => q.ram.doutb i
    | none => { q.cam.dOut d.orderId with shares := q.cam.subShares d.orderId d.shares }
  write
    { q.idle { d with isBuy := stored.isBuy, shares := stored.shares, price := stored.price } with
      prevIsBuy := stored.isBuy
      errorReduceId := !q.hit d.orderId }
    .zero (q.matchWay d.orderId)

/-- The combinational block. -/
def comb (q : L3Regs) (d : DecBook) : L3Comb :=
  if d.valid then
    match d.msgType with
    | .add => q.onInsert d d.isBuy
    | .replace => q.onInsert d q.prevIsBuy
    | .reduce => q.onReduce d
    | .delete => q.onDelete d
  else q.idle d

/-- The registers after the clock edge. -/
def next (q : L3Regs) (i : L3In) : L3Regs where
  oidHash := i.oidHash
  prevIsBuy := (q.comb i.decBook).prevIsBuy
  lookup := (q.comb i.decBook).lookup
  ram :=
    q.ram.next ⟨(q.comb i.decBook).ramWea, q.oidHash, q.ram.doutb, (q.comb i.decBook).wordIdx,
      (q.comb i.decBook).writeWord, i.oidHash⟩
  cam := q.cam.next (q.comb i.decBook).camWEn (q.comb i.decBook).writeWord

/-- `l3_error_o`. -/
def error (q : L3Regs) (d : DecBook) : Bool :=
  (q.comb d).errorAddId || (q.comb d).errorReduceId || (q.comb d).errorNegShares || q.cam.error

/-- The outputs in a cycle. -/
def out (q : L3Regs) (i : L3In) : L3Out := ⟨q.lookup, q.ram.rstDone, q.error i.decBook⟩

end L3Regs

/-- `l3_order_table`. -/
def l3OrderTable : Circuit L3Regs L3In L3Out where
  next := L3Regs.next
  out := L3Regs.out

end ItchOrderBook.Rtl
