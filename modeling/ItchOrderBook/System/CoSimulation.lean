import ItchOrderBook.Sim.TestBench

/-!
# The test of the device

`test_full_pipeline` of `sim_top.py` sends a packet only when all results of the one before have come, so
what is on the bus depends on what the device does. Up to any clock edge the device has run on inputs that
are known by then (`busInputs`), and on these it does what the reference does on the packets sent
(`Initialised.agrees`). So no monitor complains, and a wait of ten turns is long enough
(`Initialised.turn`): only an error of the reference makes the test fail (`coSimulation_passes_iff`).
-/

namespace ItchOrderBook.System

open Decode (market)
open Framing (Carries)
open Ref (Byte Exn Top TopResult)
open Rtl (Axis Market TopIn TopRegs top)
open Session (Clean)
open Sim (Dut driven failEvent initInputs monitorCycle noWord started)

/-! ### What the bus carries -/

/-- Idle cycles behind the packets. -/
theorem Sent.idle_after {pkts : List (List Byte)} {cycles idle : List Axis} (h : Sent pkts cycles)
    (hidle : ∀ axis ∈ idle, axis.tvalid = false) : Sent pkts (cycles ++ idle) := by
  induction h with
  | idle hcycles => exact .idle fun axis ha => (List.mem_append.1 ha).elim (hcycles axis) (hidle axis)
  | packet hc h ih =>
    rw [List.append_assoc]
    exact .packet hc ih

/-- One packet more. -/
theorem Sent.snoc {pkts : List (List Byte)} {cycles cycles' : List Axis} {pkt : List Byte}
    (h : Sent pkts cycles) (hc : Carries pkt (cycles'.filter fun axis => axis.tvalid)) :
    Sent (pkts ++ [pkt]) (cycles ++ cycles') := by
  induction h with
  | @idle cycles hcycles =>
    have hnone : cycles.filter (fun axis => axis.tvalid) = [] :=
      List.filter_eq_nil_iff.2 fun axis ha => by
        rw [hcycles axis ha]
        exact Bool.false_ne_true
    rw [List.nil_append, ← List.append_nil (cycles ++ cycles')]
    refine .packet ?_ (.idle fun axis ha => absurd ha List.not_mem_nil)
    rw [List.filter_append, hnone]
    exact hc
  | packet hc' h ih =>
    rw [List.append_assoc]
    exact .packet hc' ih

/-- The outputs for one packet more. -/
theorem outputs_snoc (s : Top {}) (pkts : List (List Byte)) (pkt : List Byte) :
    outputs s (pkts ++ [pkt]) = outputs s pkts ++ (((Top.onPkts {}).run s pkts).processPkt pkt).1 := by
  rw [outputs, Circuit.trace_append, List.flatten_append, ← outputs]
  congr 1
  exact List.append_nil _

/-- The orders that fit among all packets fit among the first ones. -/
theorem OrdersFit.left {s : Top {}} {pkts pkts' : List (List Byte)} (h : OrdersFit s (pkts ++ pkts')) :
    OrdersFit s pkts := by
  intro pkt hpkt m hm msgs hmsgs o ho hlocate
  refine h pkt (List.mem_append_left _ hpkt) m hm msgs hmsgs o ho ?_
  rw [Circuit.run_append]
  exact (kept_locate o.stockLocate).packets hlocate pkts'

/-! ### The inputs up to a clock edge -/

/-- The inputs of the initialisation up to cycle `t₀`, then those of `past`, and no words behind them. -/
def busInputs (mkt : Market) (sym : String) (base t₀ : ℕ) (past : List Axis) (t : ℕ) : TopIn :=
  if t < t₀ then initInputs mkt sym base t else driven (past.getD (t - t₀) noWord)

section Inputs

variable {mkt : Market} {sym : String} {base t₀ : ℕ} {past : List Axis}

theorem busInputs_before {t : ℕ} (ht : t < t₀) :
    busInputs mkt sym base t₀ past t = initInputs mkt sym base t := if_pos ht

/-- The registers at the end of the initialisation. -/
theorem state_busInputs (q : TopRegs) {t : ℕ} (ht : t ≤ t₀) :
    top.state q (busInputs mkt sym base t₀ past) t = top.state q (initInputs mkt sym base) t := by
  induction t with
  | zero => rfl
  | succ t ih => rw [Circuit.state, Circuit.state, ih (by omega), busInputs_before ht]

/-- The inputs from then on. -/
theorem cyclesFrom_busInputs (mkt : Market) (sym : String) (base t₀ : ℕ) (past : List Axis) (k : ℕ) :
    cyclesFrom (busInputs mkt sym base t₀ past) t₀ (past.length + k) =
      (past ++ List.replicate k noWord).map driven := by
  refine List.ext_getElem ?_ fun j hj hj' => ?_
  · rw [cyclesFrom, List.length_map, List.length_range, List.length_map, List.length_append,
      List.length_replicate]
  · have hlt : ¬ t₀ + j < t₀ := by omega
    have hsub : t₀ + j - t₀ = j := by omega
    simp only [cyclesFrom, List.getElem_map, List.getElem_range, busInputs, if_neg hlt, hsub]
    congr 1
    rw [List.getElem_append]
    split_ifs with hpast
    · rw [List.getD_eq_getElem?_getD, List.getElem?_eq_getElem hpast, Option.getD_some]
    · rw [List.getD_eq_getElem?_getD, List.getElem?_eq_none (not_lt.1 hpast), Option.getD_none,
        List.getElem_replicate]

end Inputs

/-! ### The device and the monitors -/

/-- The result that the monitor compares in a cycle. -/
def compared (o : Rtl.TopOut) : Option Ref.TopOut := (processCycle o).map .result

/-- **The monitors take what is expected.** -/
theorem monitorCycle_expected (o : Rtl.TopOut) (rest : List Ref.TopOut) (h : o.error = false) :
    monitorCycle o ((compared o).toList ++ rest) = .ok rest := by
  have hne : ¬ o.error = true := by
    rw [h]
    exact Bool.false_ne_true
  unfold monitorCycle
  rw [if_neg hne, compared]
  cases processCycle o with
  | none => rfl
  | some r => exact if_pos rfl

/-- The monitor from cycle `t₀` on. -/
theorem trace_compared (q : TopRegs) (u : ℕ → TopIn) (t₀ m : ℕ) :
    (top.trace (top.state q u t₀) (cyclesFrom u t₀ m)).filterMap compared =
      (monitoredFrom q u t₀ m).map .result := by
  rw [cyclesFrom, Circuit.trace_range, List.filterMap_map, monitoredFrom, List.map_filterMap]
  refine List.filterMap_congr fun j _ => ?_
  rw [Function.comp_apply, ← Circuit.state_add]
  rfl

/-- The device and the reference have the same parameters, and `dut_rst_init` has returned in cycle
`t₀`. -/
structure Initialised (q : TopRegs) (i : TopIn) (mkt : Market) (sym : String) (base t₀ : ℕ) (s : Top {}) :
    Prop where
  booted : Booted q i (initInputs mkt sym base) 2 t₀ sym base
  symbol : sym.toByteArray.size = 8
  fits : base + 50 * 2047 < 2 ^ 32
  init : ∃ b, (Top.new {} false).initParams (market mkt) sym base = .ok (b, s)

/-- Packets that the reference takes, in the terms of `device_refines`. -/
structure Taken (s : Top {}) (pkts : List (List Byte)) : Prop where
  clean : Clean (outputs s pkts)
  noTypeB : NoTypeB pkts
  fit : OrdersFit s pkts

theorem Taken.left {s : Top {}} {pkts pkts' : List (List Byte)} (h : Taken s (pkts ++ pkts')) :
    Taken s pkts := by
  refine ⟨?_, fun pkt hpkt => h.noTypeB pkt (List.mem_append_left _ hpkt), h.fit.left⟩
  have hclean := h.clean
  rw [outputs, Circuit.trace_append, List.flatten_append, Session.clean_append] at hclean
  exact hclean.1

section Initialised

variable {q : TopRegs} {i : TopIn} {mkt : Market} {sym : String} {base t₀ : ℕ} {s : Top {}}
  {past : List Axis} {pkts : List (List Byte)}

/-- The initialisation, with words behind it. -/
theorem Initialised.boot (h : Initialised q i mkt sym base t₀ s) (past : List Axis) :
    Booted q i (busInputs mkt sym base t₀ past) 2 t₀ sym base := by
  have hafter := h.booted.after
  have htwo : busInputs mkt sym base t₀ past 2 = initInputs mkt sym base 2 := busInputs_before hafter
  refine ⟨fun t => ?_, ?_, ?_, fun t ht => ?_, hafter, ?_, h.booted.fresh⟩
  · rcases lt_or_ge t t₀ with hlt | hge
    · rw [busInputs_before hlt]
      exact h.booted.pulse t
    · rw [busInputs, if_neg (not_lt.2 hge)]
      exact (decide_eq_false (by omega)).symm
  · rw [htwo]
    exact h.booted.symbol
  · rw [htwo]
    exact h.booted.priceBase
  · rw [busInputs_before ht]
    exact h.booted.idle t ht
  · have hready := h.booted.ready
    change (top.state _ _ t₀).book.ready = true at hready
    change (top.state _ _ t₀).book.ready = true
    rw [state_busInputs _ le_rfl]
    exact hready

/-- The packets on the bus. -/
theorem fed_busInputs (hsent : Sent pkts past) (htaken : Taken s pkts) :
    Fed (busInputs mkt sym base t₀ past) t₀ past.length s pkts := by
  have hcycles : cyclesFrom (busInputs mkt sym base t₀ past) t₀ past.length = past.map driven := by
    have hk := cyclesFrom_busInputs mkt sym base t₀ past 0
    rw [Nat.add_zero, List.replicate_zero, List.append_nil] at hk
    exact hk
  refine ⟨?_, fun t ht => ?_, htaken.clean, htaken.noTypeB, htaken.fit⟩
  · have haxis : (past.map driven).map TopIn.axis = past := by
      rw [List.map_map]
      exact List.map_id past
    rw [hcycles, haxis]
    exact hsent
  · have hlt : ¬ t < t₀ := by omega
    rw [busInputs, if_neg hlt, List.getD_eq_getElem?_getD, List.getElem?_eq_none (by omega)]
    rfl

/-- **The device agrees with the reference**, whatever words it has got, and gives all results within
seven cycles. -/
theorem Initialised.agrees (h : Initialised q i mkt sym base t₀ s) (hsent : Sent pkts past)
    (htaken : Taken s pkts) (k : ℕ) :
    Bench.Agrees top Rtl.TopOut.error compared (top.state (released q i) (initInputs mkt sym base) t₀)
        ((past ++ List.replicate k noWord).map driven) (outputs s pkts) ∧
      (7 ≤ k → (top.trace (top.state (released q i) (initInputs mkt sym base) t₀)
        ((past ++ List.replicate k noWord).map driven)).filterMap compared = outputs s pkts) := by
  have hmarket : (busInputs mkt sym base t₀ past 2).initMarket = mkt := by
    rw [busInputs_before h.booted.after]
    rfl
  obtain ⟨b, hinit⟩ := h.init
  obtain ⟨-, hbook, -, hlocate⟩ := initParams_ok hinit
  rw [← hmarket] at hinit
  obtain ⟨loc, hloc⟩ := exists_locate hlocate pkts
  obtain ⟨packets, results, hout, hfeed⟩ :=
    (h.boot past).feed h.symbol hinit (fed_busInputs hsent htaken) hloc
  have hstate := @state_busInputs mkt sym base t₀ past (released q i) t₀ le_rfl
  have hcycles := cyclesFrom_busInputs mkt sym base t₀ past
  have hresults : ∀ k, 7 ≤ k → (top.trace (top.state (released q i) (initInputs mkt sym base) t₀)
      ((past ++ List.replicate k noWord).map driven)).filterMap compared = outputs s pkts := by
    intro k hk
    rw [← hstate, ← hcycles, trace_compared, (h.boot past).monitored h.fits hbook hfeed (by omega),
      hout]
  refine ⟨⟨fun o ho => ?_, ?_⟩, hresults k⟩
  · rw [← hstate, ← hcycles, cyclesFrom, Circuit.trace_range] at ho
    obtain ⟨j, -, rfl⟩ := List.mem_map.1 ho
    rw [← Circuit.state_add]
    exact (h.boot past).quiet h.fits hbook hfeed _
  · have hlong := hresults (k + 7) (by omega)
    rw [← List.replicate_append_replicate, ← List.append_assoc, List.map_append, Circuit.trace_append,
      List.filterMap_append] at hlong
    exact ⟨_, hlong⟩

/-! ### One turn of the loop -/

/-- At the head of the loop the packets `done` have been sent, in the cycles `past`, and all their results
have come. -/
structure AtHead (q : TopRegs) (i : TopIn) (mkt : Market) (sym : String) (base t₀ : ℕ) (s : Top {})
    (done : List (List Byte)) (past : List Axis) (dut : Dut) : Prop where
  tracks : Bench.Tracks top compared (top.state (released q i) (initInputs mkt sym base) t₀)
    (past.map driven) dut (outputs s done)
  expected : dut.expected = []
  inputs : dut.inputs = driven noWord
  sent : Sent done past

variable {done : List (List Byte)} {dut : Dut} {pkt : List Byte}

/-- **One packet is sent**, and all its results come in time. -/
theorem Initialised.turn (h : Initialised q i mkt sym base t₀ s)
    (hhead : AtHead q i mkt sym base t₀ s done past dut) (hpkt : pkt ≠ []) (drops : ℕ → ℕ)
    (htaken : Taken s (done ++ [pkt])) :
    ∃ past' dut', Sim.waitForExpectedOutputs (((Top.onPkts {}).run s done).processPkt pkt).1
        (Sim.dutSendPkt pkt drops) dut = .ok dut' ∧
      AtHead q i mkt sym base t₀ s (done ++ [pkt]) past' dut' := by
  have hsent : Sent (done ++ [pkt]) (past ++ noWord :: Sim.words pkt drops) :=
    hhead.sent.snoc (Sim.carries_drops hpkt drops)
  have hag := h.agrees hsent htaken
  have hcycles : ∀ k, (past ++ noWord :: Sim.words pkt drops ++ List.replicate k noWord).map driven =
      past.map driven ++ [driven noWord] ++ (Sim.words pkt drops).map driven ++
        List.replicate k (driven noWord) := by
    intro k
    rw [List.map_append, List.map_append, List.map_cons, List.map_replicate, List.append_cons]
  simp only [hcycles] at hag
  -- the expectations
  have htracks := hhead.tracks.expect hhead.expected (((Top.onPkts {}).run s done).processPkt pkt).1
  rw [← outputs_snoc] at htracks
  -- the edge before the first word
  obtain ⟨dut₁, hedge, htracks₁, hsampled₁, -⟩ := htracks.risingEdge monitorCycle_expected
    (by rw [hhead.inputs]; exact (hag 0).1.left.left)
  -- the words
  rw [hhead.inputs] at htracks₁
  obtain ⟨dut₂, hdrive, htracks₂, hsampled₂⟩ := htracks₁.drive monitorCycle_expected hsampled₁ (hag 0).1.left
  -- the wait
  obtain ⟨k, dut₃, hawait, htracks₃, hexpected, hinputs⟩ :=
    (htracks₂.inputs hsampled₂ (driven noWord)).await monitorCycle_expected failEvent
      (fun k => (hag k).1) ((hag 7).2 le_rfl) (by decide : 7 < 10)
  refine ⟨past ++ noWord :: Sim.words pkt drops ++ List.replicate k noWord, dut₃, ?_, ?_, hexpected, hinputs,
    hsent.idle_after fun axis ha => ?_⟩
  · have hsend : Sim.dutSendPkt pkt drops
        { dut with expected := (((Top.onPkts {}).run s done).processPkt pkt).1 } =
          .ok { dut₂ with inputs := driven noWord } := by
      rw [Sim.dutSendPkt, hedge]
      change (Bench.drive top monitorCycle _ dut₁ >>= _) = _
      rw [hdrive]
      rfl
    rw [Sim.waitForExpectedOutputs, hhead.expected]
    change (Sim.dutSendPkt pkt drops _ >>= _) = _
    rw [hsend]
    exact hawait
  · rw [hcycles]
    exact htracks₃
  · rw [List.eq_of_mem_replicate ha]
    rfl

/-- Before the first packet. -/
theorem Initialised.head (h : Initialised q i mkt sym base t₀ s) :
    AtHead q i mkt sym base t₀ s [] [] (started q i mkt sym base t₀) := by
  have hsent : Sent [] [] := .idle fun axis ha => absurd ha List.not_mem_nil
  have hinputs : initInputs mkt sym base t₀ = driven noWord := if_neg h.booted.after.ne'
  have htaken : Taken s [] := ⟨fun out hout => absurd hout List.not_mem_nil,
    fun pkt hpkt => absurd hpkt List.not_mem_nil, fun pkt hpkt => absurd hpkt List.not_mem_nil⟩
  have hnone := List.prefix_nil.1 (h.agrees hsent htaken 1).1.results
  refine ⟨⟨rfl, ?_⟩, rfl, hinputs, hsent⟩
  rw [Bench.seen, started, if_pos rfl, hinputs, List.append_nil]
  exact hnone

/-! ### The loop -/

/-- The loop over packets that the reference takes. -/
theorem Initialised.loop (h : Initialised q i mkt sym base t₀ s)
    (hhead : AtHead q i mkt sym base t₀ s done past dut) {drawn : List (List Byte × (ℕ → ℕ))}
    (hne : ∀ p ∈ drawn, p.1 ≠ []) (htaken : Taken s (done ++ drawn.map Prod.fst))
    (haxis : ((Top.onPkts {}).run s done).axis = []) :
    Sim.testPackets ((Top.onPkts {}).run s done) dut drawn = .ok () := by
  induction drawn generalizing done past dut with
  | nil => rfl
  | cons p drawn ih =>
    obtain ⟨pkt, drops⟩ := p
    obtain ⟨hpkt, hne⟩ := List.forall_mem_cons.1 hne
    rw [List.map_cons, List.append_cons] at htaken
    obtain ⟨past', dut', hwait, hhead'⟩ := h.turn hhead hpkt drops htaken.left
    have hclean : Clean (((Top.onPkts {}).run s done).processPkt pkt).1 := by
      have hall := htaken.left.clean
      rw [outputs_snoc, Session.clean_append] at hall
      exact hall.2
    have hstep : Sim.testPacket ((Top.onPkts {}).run s done) dut pkt drops =
        .ok ((Top.onPkts {}).run s (done ++ [pkt]), dut') := by
      rw [Sim.testPacket, sendPacket_eq haxis, if_neg hpkt, listOf_clean hclean]
      change (assertNoError _ >>= _) = _
      rw [assertNoError_iff.2 hclean]
      change (Sim.waitForExpectedOutputs _ _ _ >>= _) = _
      rw [hwait, Circuit.run_append]
      rfl
    rw [Sim.testPackets, hstep]
    refine ih hhead' hne htaken ?_
    rw [Circuit.run_append]
    exact (axis_processPkt _ pkt).trans haxis

end Initialised

/-- A test that passes has seen no error of the reference. -/
theorem clean_of_testPackets {refNotI : Top {}} {dut : Dut} {drawn : List (List Byte × (ℕ → ℕ))}
    (hne : ∀ p ∈ drawn, p.1 ≠ []) (haxis : refNotI.axis = [])
    (h : Sim.testPackets refNotI dut drawn = .ok ()) : Clean (outputs refNotI (drawn.map Prod.fst)) := by
  induction drawn generalizing refNotI dut with
  | nil => exact fun out hout => absurd hout List.not_mem_nil
  | cons p drawn ih =>
    obtain ⟨pkt, drops⟩ := p
    obtain ⟨hpkt, hne⟩ := List.forall_mem_cons.1 hne
    rw [Sim.testPackets] at h
    cases hp : Sim.testPacket refNotI dut pkt drops with
    | error e =>
      rw [hp] at h
      cases h
    | ok refs =>
      rw [hp] at h
      rw [Sim.testPacket, sendPacket_eq haxis, if_neg hpkt] at hp
      obtain ⟨resNotI, hlist, hp⟩ := bind_eq_ok hp
      obtain ⟨_, hno, hp⟩ := bind_eq_ok hp
      obtain ⟨dut', -, hp⟩ := bind_eq_ok hp
      obtain rfl := Except.ok.inj hp
      rw [listOf_ok hlist] at hno
      rw [List.map_cons, outputs_cons, Session.clean_append]
      exact ⟨assertNoError_iff.1 hno, ih hne ((axis_processPkt _ pkt).trans haxis) h⟩

/-! ### The test -/

/-- **The test of the device passes** exactly if the reference can be initialised and takes all packets.
The packets are not empty, no message has the type `'B'`, and the orders of the stock are for `1` to
`2 ^ 31 - 1` shares; the price window is below `2 ^ 32`. What the registers hold before reset, but for
the fill counter of the price table, and when `tvalid` is dropped, does not matter. -/
theorem coSimulation_passes_iff {q : TopRegs} {i : TopIn} {mkt : Market} {sym : String} {base : ℕ}
    (hfresh : Tables.Fresh (q.reset.next i).book.l2.lut 2) (hsym : sym.toByteArray.size = 8)
    (hfits : base + 50 * 2047 < 2 ^ 32) {drawn : List (List Byte × (ℕ → ℕ))}
    (hne : ∀ p ∈ drawn, p.1 ≠ []) (hB : NoTypeB (drawn.map Prod.fst))
    (hfit : ∀ b s, (Top.new {} false).initParams (market mkt) sym base = .ok (b, s) →
      OrdersFit s (drawn.map Prod.fst)) :
    Sim.testFullPipeline q i mkt sym base drawn = .ok () ↔
      ∃ b s, (Top.new {} false).initParams (market mkt) sym base = .ok (b, s) ∧
        Clean (outputs s (drawn.map Prod.fst)) := by
  have hpulse : ∀ t, (initInputs mkt sym base t).initV = decide (t = 2) := by
    intro t
    rw [initInputs]
    split_ifs with ht
    · exact (decide_eq_true ht).symm
    · exact (decide_eq_false ht).symm
  have hready := bookReady_iff hpulse hfresh
  have hawait : awaitReady (bookReadyAt q i (initInputs mkt sym base)) maxResetCycles 3 = .ok 2051 :=
    awaitReady_eq hready (by decide : 2 + 2049 ≤ 3 + maxResetCycles)
  have hbase : (BitVec.ofNat 32 base).toNat = base := by
    rw [BitVec.toNat_ofNat]
    omega
  unfold Sim.testFullPipeline
  rw [hawait]
  constructor
  · intro h
    split at h
    · cases h
    · rename_i b s hinit
      obtain ⟨_, -, rfl, rfl⟩ := initParams_new hinit
      exact ⟨_, _, hinit, clean_of_testPackets hne rfl h⟩
  · rintro ⟨b, s, hinit, hclean⟩
    have haxis : s.axis = [] := by
      obtain ⟨_, -, rfl, rfl⟩ := initParams_new hinit
      rfl
    have hidle : ∀ t, (initInputs mkt sym base t).axis.tvalid = false := by
      intro t
      rw [initInputs]
      split_ifs <;> rfl
    have h : Initialised q i mkt sym base 2051 s :=
      ⟨⟨hpulse, rfl, hbase, fun t _ => hidle t, by decide, (hready 2051).2 le_rfl, hfresh⟩, hsym, hfits, b,
        hinit⟩
    rw [hinit]
    exact h.loop h.head hne ⟨hclean, hB, hfit b s hinit⟩ haxis

/-- Four packets, with an idle cycle before every word of the first two. -/
def exampleDrawn : List (List Byte × (ℕ → ℕ)) :=
  examplePkts.zip [fun _ => 1, fun _ => 1, fun _ => 0, fun _ => 0]

theorem coSimulation_passes_example :
    Sim.testFullPipeline Gating.exampleRegs (Gating.topCycle Gating.idleBeat) .b "EXAMPLE1" 10000
      exampleDrawn = .ok () := by
  have hfresh : Tables.Fresh
      (Gating.exampleRegs.reset.next (Gating.topCycle Gating.idleBeat)).book.l2.lut 2 := by
    decide +kernel
  have hfed := fed_example 2050
  have hpkts : exampleDrawn.map Prod.fst = examplePkts := rfl
  refine (coSimulation_passes_iff hfresh (by decide +kernel) (by decide) ?_ ?_ ?_).2
    ⟨false, Session.exampleTop, Session.exampleTop_init, ?_⟩
  · intro p hp
    have hne : ∀ pkt ∈ examplePkts, pkt ≠ [] := by decide +kernel
    exact hne p.1 (hpkts ▸ List.mem_map_of_mem hp)
  · rw [hpkts]
    exact hfed.noTypeB
  · intro b s hinit
    obtain ⟨-, rfl⟩ := Prod.mk.inj (Except.ok.inj (Session.exampleTop_init.symm.trans hinit))
    rw [hpkts]
    exact hfed.fit
  · rw [hpkts]
    exact hfed.taken

end ItchOrderBook.System
