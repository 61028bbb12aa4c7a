import ItchOrderBook.System.Lockstep

/-!
# The test of the whole pipeline

`test_full_pipeline.py` sends the packets of a trading day to the ideal and to the size-limited reference
model. For each packet there must be no error, the results of both must be equal, and both books consistent.
Whatever the packets are, only an error of the size-limited model makes this test fail
(`fullPipeline_passes_iff`).
-/

namespace ItchOrderBook.System

open Ref (Byte Exn Params Top TopOut)
open Session (Clean)

variable {cfg : Params}

/-- The exception that ends a generator. -/
def raisedBy : TopOut → Option Exn
  | .raised _ e => some e
  | _ => none

/-- `list(results)`. -/
def listOf (outs : List TopOut) : Except Exn (List TopOut) :=
  match outs.findSome? raisedBy with
  | some e => .error e
  | none => .ok outs

/-- `assert_no_error`, for a list of results. -/
def assertNoError (res : List TopOut) : Except Exn Unit :=
  if res.all isResult then .ok () else .error (.assertion "")

/-- The assertion that the results are equal. -/
def assertEqual (resIdeal resNotI : List TopOut) : Except Exn Unit :=
  if resIdeal = resNotI then .ok () else .error (.assertion "")

/-- `ref_axis_send_packet(ref, pkt)`: the outputs, and the pipeline. -/
def sendPacket (ref : Top cfg) (pkt : List Byte) : List TopOut × Top cfg :=
  (Session.outputs ref (Ref.refAxisSendPacket pkt fun _ => 0),
    (Top.onBus cfg).run ref (Ref.refAxisSendPacket pkt fun _ => 0))

/-- One turn of the loop over the packets. -/
def testPacket (refIdeal refNotI : Top cfg) (pkt : List Byte) : Except Exn (Top cfg × Top cfg) := do
  let resIdeal ← listOf (sendPacket refIdeal pkt).1
  let resNotI ← listOf (sendPacket refNotI pkt).1
  assertNoError resIdeal
  assertNoError resNotI
  assertEqual resIdeal resNotI
  (sendPacket refIdeal pkt).2.book.assertConsistentState
  (sendPacket refNotI pkt).2.book.assertConsistentState
  return ((sendPacket refIdeal pkt).2, (sendPacket refNotI pkt).2)

/-- The loop over the packets. -/
def testPackets (refIdeal refNotI : Top cfg) : List (List Byte) → Except Exn Unit
  | [] => .ok ()
  | pkt :: pkts =>
    match testPacket refIdeal refNotI pkt with
    | .error e => .error e
    | .ok (refIdeal, refNotI) => testPackets refIdeal refNotI pkts

/-- `test_20191230_BX_AMD`, for any packets, market, stock and price base. -/
def testFullPipeline (cfg : Params) (marketCode : Char) (stockSymbol : String) (priceBase : ℤ)
    (pkts : List (List Byte)) : Except Exn Unit :=
  match (Top.new cfg true).initParams marketCode stockSymbol priceBase with
  | .error e => .error e
  | .ok (_, refIdeal) =>
    match (Top.new cfg false).initParams marketCode stockSymbol priceBase with
    | .error e => .error e
    | .ok (_, refNotI) => testPackets refIdeal refNotI pkts

/-! ### One packet -/

theorem assertNoError_iff {outs : List TopOut} : assertNoError outs = .ok () ↔ Clean outs := by
  rw [← all_isResult_iff, assertNoError]
  cases outs.all isResult <;> simp

theorem listOf_clean {outs : List TopOut} (h : Clean outs) : listOf outs = .ok outs := by
  have hnone : outs.findSome? raisedBy = none := by
    rw [List.findSome?_eq_none_iff]
    intro out hout
    obtain ⟨r, rfl⟩ := h out hout
    rfl
  rw [listOf, hnone]

theorem listOf_ok {outs res : List TopOut} (h : listOf outs = .ok res) : res = outs := by
  unfold listOf at h
  split at h
  · cases h
  · exact (Except.ok.inj h).symm

theorem bind_eq_ok {α β : Type} {x : Except Exn α} {f : α → Except Exn β} {r : β}
    (h : (x >>= f) = .ok r) : ∃ a, x = .ok a ∧ f a = .ok r := by
  cases x with
  | error e => cases h
  | ok a => exact ⟨a, rfl, h⟩

/-- A turn that passes has seen no error of the size-limited model. -/
theorem testPacket_ok {refIdeal refNotI : Top cfg} {pkt : List Byte} {refs : Top cfg × Top cfg}
    (h : testPacket refIdeal refNotI pkt = .ok refs) : Clean (sendPacket refNotI pkt).1 ∧
      refs = ((sendPacket refIdeal pkt).2, (sendPacket refNotI pkt).2) := by
  unfold testPacket at h
  obtain ⟨resIdeal, -, h⟩ := bind_eq_ok h
  obtain ⟨resNotI, hlist, h⟩ := bind_eq_ok h
  obtain ⟨_, -, h⟩ := bind_eq_ok h
  obtain ⟨_, hno, h⟩ := bind_eq_ok h
  obtain ⟨_, -, h⟩ := bind_eq_ok h
  obtain ⟨_, -, h⟩ := bind_eq_ok h
  obtain ⟨_, -, h⟩ := bind_eq_ok h
  rw [← listOf_ok hlist]
  exact ⟨assertNoError_iff.1 hno, (Except.ok.inj h).symm⟩

/-- The buffer of the interpreter is not touched by a packet. -/
theorem axis_processPkt (s : Top cfg) (pkt : List Byte) : (s.processPkt pkt).2.axis = s.axis := by
  unfold Top.processPkt
  rcases s.np.processPkt pkt with ⟨ms | code | e, np⟩
  · have h := Session.processPayload_onLine s s.axis np ms
    change ((Session.onLine s s.axis np).processPayload ms).2.axis = s.axis
    rw [h]
    rfl
  · rfl
  · rfl

/-- What the driver does with a packet. -/
theorem sendPacket_eq {s : Top cfg} (haxis : s.axis = []) (pkt : List Byte) :
    sendPacket s pkt = if pkt = [] then ([], s) else s.processPkt pkt := by
  split_ifs with hpkt
  · rw [hpkt]
    rfl
  · obtain ⟨hout, hrun⟩ := sendPacket_run haxis hpkt fun _ => 0
    exact Prod.ext hout hrun

/-- **One turn of the test passes** if the size-limited model has no error. -/
theorem testPacket_paired {base : ℤ} (hbase : base % 50 = 0) (hn : 2 ≤ cfg.bboDepth) {s : Top cfg}
    {bi : Ref.Book cfg} (haxis : s.axis = []) (h : Paired base s.book bi) {pkt : List Byte}
    (hpos : ∀ m, HasChunk pkt m → PositiveOrders m) (hclean : Clean (sendPacket s pkt).1) :
    ∃ bi', testPacket (withBook s bi) s pkt =
        .ok (withBook (sendPacket s pkt).2 bi', (sendPacket s pkt).2) ∧
      (sendPacket s pkt).2.axis = [] ∧ Paired base (sendPacket s pkt).2.book bi' := by
  obtain ⟨bi', hideal, haxis', hpaired⟩ : ∃ bi',
      sendPacket (withBook s bi) pkt = ((sendPacket s pkt).1, withBook (sendPacket s pkt).2 bi') ∧
      (sendPacket s pkt).2.axis = [] ∧ Paired base (sendPacket s pkt).2.book bi' := by
    have haxisI : (withBook s bi).axis = [] := haxis
    rw [sendPacket_eq haxisI]
    rw [sendPacket_eq haxis] at hclean ⊢
    split_ifs at hclean ⊢
    · exact ⟨bi, rfl, haxis, h⟩
    · obtain ⟨bi', hrun, hR⟩ := (simulates_paired hbase hn).processPkt h hpos hclean
      exact ⟨bi', hrun, (axis_processPkt s pkt).trans haxis, hR⟩
  obtain ⟨hcheck, hcheckI⟩ := hpaired.consistent hbase
  have hcheckI' : (withBook (sendPacket s pkt).2 bi').book.assertConsistentState = .ok () := hcheckI
  refine ⟨bi', ?_, haxis', hpaired⟩
  rw [testPacket, hideal]
  dsimp only
  rw [listOf_clean hclean, hcheckI', hcheck]
  simp [bind, Except.bind, assertNoError_iff.2 hclean, assertEqual, pure, Except.pure]

/-! ### All packets -/

/-- The bus cycles of the packets. -/
def cyclesOf (pkts : List (List Byte)) : List Ref.BusCycle :=
  pkts.flatMap fun pkt => Ref.refAxisSendPacket pkt fun _ => 0

theorem outputs_cyclesOf_cons (s : Top cfg) (pkt : List Byte) (pkts : List (List Byte)) :
    Session.outputs s (cyclesOf (pkt :: pkts)) =
      (sendPacket s pkt).1 ++ Session.outputs (sendPacket s pkt).2 (cyclesOf pkts) := by
  rw [cyclesOf, List.flatMap_cons, Session.outputs_append]
  rfl

/-- A test that passes has seen no error of the size-limited model. -/
theorem testPackets_ok {refIdeal refNotI : Top cfg} {pkts : List (List Byte)}
    (h : testPackets refIdeal refNotI pkts = .ok ()) : Clean (Session.outputs refNotI (cyclesOf pkts)) := by
  induction pkts generalizing refIdeal refNotI with
  | nil =>
    intro out hout
    cases hout
  | cons pkt pkts ih =>
    rw [testPackets] at h
    cases hp : testPacket refIdeal refNotI pkt with
    | error e =>
      rw [hp] at h
      cases h
    | ok refs =>
      obtain ⟨hclean, rfl⟩ := testPacket_ok hp
      rw [hp] at h
      rw [outputs_cyclesOf_cons, Session.clean_append]
      exact ⟨hclean, ih h⟩

theorem testPackets_paired {base : ℤ} (hbase : base % 50 = 0) (hn : 2 ≤ cfg.bboDepth) {s : Top cfg}
    {bi : Ref.Book cfg} (haxis : s.axis = []) (h : Paired base s.book bi) {pkts : List (List Byte)}
    (hpos : PacketsPositive pkts) (hclean : Clean (Session.outputs s (cyclesOf pkts))) :
    testPackets (withBook s bi) s pkts = .ok () := by
  induction pkts generalizing s bi with
  | nil => rfl
  | cons pkt pkts ih =>
    rw [outputs_cyclesOf_cons, Session.clean_append] at hclean
    obtain ⟨hpkt, hpkts⟩ := List.forall_mem_cons.1 hpos
    obtain ⟨bi', hstep, haxis', hpaired⟩ := testPacket_paired hbase hn haxis h hpkt hclean.1
    rw [testPackets, hstep]
    exact ih haxis' hpaired hpkts hclean.2

/-- Two pipelines with the same parameters differ in their books, which are paired. -/
theorem paired_initParams {marketCode : Char} {stockSymbol : String} {base : ℤ} {b : Bool} {s : Top cfg}
    (hinit : (Top.new cfg false).initParams marketCode stockSymbol base = .ok (b, s)) :
    base % 50 = 0 ∧ s.axis = [] ∧ s.book = Book.initialised cfg false base ∧
      (Top.new cfg true).initParams marketCode stockSymbol base =
        .ok (b, withBook s (Book.initialised cfg true base)) := by
  obtain ⟨book, hbook, rfl, rfl⟩ := initParams_new hinit
  have hbase := Book.tick_of_initParams hbook
  refine ⟨hbase, rfl, Book.initParams_eq hbook, ?_⟩
  unfold Top.initParams
  have hctrl : (Top.new cfg true).ctrl.initParams marketCode stockSymbol =
      .ok { Ref.Control.new with initialized := true, marketCode, stockSymbol } := rfl
  have hideal : (Top.new cfg true).book.initParams base = .ok (Book.initialised cfg true base) :=
    Book.initParams_new cfg true hbase
  rw [hctrl, hideal]
  rfl

/-- **The test of the whole pipeline passes** exactly if the size-limited model can be initialised and has
no error on the packets. -/
theorem fullPipeline_passes_iff (hn : 2 ≤ cfg.bboDepth) (marketCode : Char) (stockSymbol : String)
    (priceBase : ℤ) {pkts : List (List Byte)} (hpos : PacketsPositive pkts) :
    testFullPipeline cfg marketCode stockSymbol priceBase pkts = .ok () ↔
      ∃ b refNotI, (Top.new cfg false).initParams marketCode stockSymbol priceBase = .ok (b, refNotI) ∧
        Clean (Session.outputs refNotI (cyclesOf pkts)) := by
  unfold testFullPipeline
  constructor
  · intro h
    split at h
    · cases h
    · split at h
      · cases h
      · rename_i b refNotI hinit
        exact ⟨b, refNotI, hinit, testPackets_ok h⟩
  · rintro ⟨b, refNotI, hinit, hclean⟩
    obtain ⟨hbase, haxis, hbook, hideal⟩ := paired_initParams hinit
    rw [hideal, hinit]
    dsimp only
    refine testPackets_paired hbase hn haxis ?_ hpos hclean
    rw [hbook]
    exact paired_initialised cfg priceBase

/-- It passes on four packets. -/
theorem fullPipeline_passes_example : testFullPipeline {} 'B' "EXAMPLE1" 10000 examplePkts = .ok () := by
  have hpos : PacketsPositive examplePkts := by
    intro pkt hpkt m hm msgs hmsgs o ho
    have hall : ∀ o ∈ exampleOrders, o.SharesPos := by decide
    exact hall o (orders_example hpkt hm hmsgs ho)
  refine (fullPipeline_passes_iff (by decide) 'B' "EXAMPLE1" 10000 hpos).2
    ⟨false, Session.exampleTop, Session.exampleTop_init, ?_⟩
  have houts : Session.outputs Session.exampleTop (cyclesOf examplePkts) = exampleResults := by
    decide +kernel
  rw [houts]
  exact clean_exampleResults

end ItchOrderBook.System
