import ItchOrderBook.Lib.Scoreboard
import ItchOrderBook.Sim.AxisDriver
import ItchOrderBook.System.FullPipeline
import ItchOrderBook.System.Refinement

/-!
# The testbench of the device

The test `test_full_pipeline` of `sim_top.py`: the device is reset and initialised (`rst_init.py`), and
every packet is sent on the bus (`dut_send_pkt` of `axis_driver.py`) while the monitors of `monitors.py`
hold the outputs against the results of the reference. The coroutines of the test advance from clock edge
to clock edge; the monitors have their turn at the end of each cycle. `fail_event` ends the test.
-/

namespace ItchOrderBook.Sim

open Decode (market symbolBits)
open Ref (Byte Exn Top)
open Rtl (Axis Market TopIn TopRegs top)
open ItchOrderBook.System (assertNoError awaitReady bookReadyAt listOf maxResetCycles processCycle
  released sendPacket)

/-- The simulation of `top`, with the queue `expected_outputs`. -/
abbrev Dut := Bench TopRegs TopIn Ref.TopOut

/-- The inputs of the device once it is initialised. -/
def driven (axis : Axis) : TopIn := ⟨false, .q, symbolBits "DEADBEEF", 0xBEEF, axis⟩

/-! ### The monitors -/

/-- What the test fails with when `fail_event` is set. -/
def failEvent : Exn := .assertion "Test failed due to background monitor flag."

/-- `ErrorMonitor._loop`, with no error expected, and `TopMonitor._process_cycle` in one cycle. -/
def monitorCycle (o : Rtl.TopOut) (expectedOutputs : List Ref.TopOut) : Except Exn (List Ref.TopOut) :=
  if o.error then .error failEvent
  else
    match processCycle o, expectedOutputs with
    | none, _ => .ok expectedOutputs
    | some _, [] => .error failEvent
    | some result, expect :: rest => if .result result = expect then .ok rest else .error failEvent

/-- `dut_send_pkt`; the device is always ready for a word. -/
def dutSendPkt (byteData : List Byte) (drops : ℕ → ℕ) (dut : Dut) : Except Exn Dut := do
  let dut ← dut.risingEdge top monitorCycle
  let dut ← dut.drive top monitorCycle ((words byteData drops).map driven)
  return { dut with inputs := driven noWord }

/-- `OutputMonitor.wait_for_expected_outputs`. -/
def waitForExpectedOutputs (outputs : List Ref.TopOut) (sendPkt : Dut → Except Exn Dut) (dut : Dut) :
    Except Exn Dut := do
  if !dut.expected.isEmpty then throw failEvent
  let dut ← sendPkt { dut with expected := outputs }
  dut.await top monitorCycle failEvent 10

/-! ### The test -/

/-- The inputs in `dut_rst_init`, from the release of reset on. The bus is idle. -/
def initInputs (mkt : Market) (stockSymbol : String) (priceBase t : ℕ) : TopIn :=
  if t = 2 then ⟨true, mkt, symbolBits stockSymbol, BitVec.ofNat 32 priceBase, noWord⟩ else driven noWord

/-- The simulation when `dut_rst_init` returns in cycle `t`. The monitors start in the next cycle. -/
def started (q : TopRegs) (i : TopIn) (mkt : Market) (stockSymbol : String) (priceBase t : ℕ) : Dut where
  regs := top.state (released q i) (initInputs mkt stockSymbol priceBase) t
  inputs := initInputs mkt stockSymbol priceBase t
  expected := []
  sampled := true

/-- One turn of the loop over the packets. -/
def testPacket (refNotI : Top {}) (dut : Dut) (pkt : List Byte) (drops : ℕ → ℕ) :
    Except Exn (Top {} × Dut) := do
  let resNotI ← listOf (sendPacket refNotI pkt).1
  assertNoError resNotI
  let dut ← waitForExpectedOutputs resNotI (dutSendPkt pkt drops) dut
  return ((sendPacket refNotI pkt).2, dut)

/-- The loop over the packets, each with the random drops of `tvalid`. -/
def testPackets (refNotI : Top {}) (dut : Dut) : List (List Byte × (ℕ → ℕ)) → Except Exn Unit
  | [] => .ok ()
  | (pkt, drops) :: pkts =>
    match testPacket refNotI dut pkt drops with
    | .error e => .error e
    | .ok (refNotI, dut) => testPackets refNotI dut pkts

/-- `test_full_pipeline`, for any registers before reset, market, stock, price base and packets. -/
def testFullPipeline (q : TopRegs) (i : TopIn) (mkt : Market) (stockSymbol : String) (priceBase : ℕ)
    (pkts : List (List Byte × (ℕ → ℕ))) : Except Exn Unit :=
  match (Top.new {} false).initParams (market mkt) stockSymbol priceBase with
  | .error e => .error e
  | .ok (_, refNotI) =>
    match awaitReady (bookReadyAt q i (initInputs mkt stockSymbol priceBase)) maxResetCycles 3 with
    | .error e => .error e
    | .ok t => testPackets refNotI (started q i mkt stockSymbol priceBase t) pkts

end ItchOrderBook.Sim
