import ItchOrderBook.Lib.Latest
import ItchOrderBook.System.Accepted
import ItchOrderBook.System.Startup

/-!
# When the stock is open

The control messages are a history; what the latest ones of it say decides whether the stock is open
(`Voice.Open`). Both control modules follow the history, that of the reference also through error results
and failed assertions (`stockActive_iff_open`). So the device publishes a side of the book only while the
stock is open (`published_open`).
-/

namespace ItchOrderBook.System

open Decode (Decoded symbolBits)
open Gating (Stream after gates hasResult published sent)
open Ref (Control ControlResult ITCHMsg)
open Rtl (Axis Bbo ControlRegs TopIn TopRegs top)

/-! ### The history -/

/-- What a message says about the hours and the halts of the stock, if anything. -/
structure Voice (α : Type) where
  msgHours : α → Option Bool
  sysHours : α → Option Bool
  stockHalt : α → Option Bool
  marketHalt : α → Option Bool

namespace Voice

variable {α : Type} {v : Voice α}

/-- The messages have opened the message hours and the system hours and released the stock for quotation or
trading, and have not closed or halted anything since. -/
structure Open (v : Voice α) (ms : List α) : Prop where
  msgHours : LatestIs v.msgHours true ms
  sysHours : LatestIs v.sysHours true ms
  stockHalt : LatestIs v.stockHalt false ms
  marketHalt : ¬ LatestIs v.marketHalt true ms

/-- The four flags after a history. -/
theorem open_iff (ms : List α) : v.Open ms ↔ latest v.msgHours false ms = true ∧
    latest v.sysHours false ms = true ∧ latest v.stockHalt true ms = false ∧
      latest v.marketHalt false ms = false := by
  have hmarket : latest v.marketHalt false ms = false ↔ ¬ LatestIs v.marketHalt true ms := by
    rw [← Bool.not_eq_true, latest_eq_iff]
    simp
  rw [hmarket, latest_eq_iff, latest_eq_iff, latest_eq_iff]
  constructor
  · rintro ⟨h1, h2, h3, h4⟩
    exact ⟨Or.inl h1, Or.inl h2, Or.inl h3, h4⟩
  · rintro ⟨h1, h2, h3, h4⟩
    exact ⟨h1.resolve_right (by simp), h2.resolve_right (by simp), h3.resolve_right (by simp), h4⟩

end Voice

/-- Whether a trading action stops the stock. -/
def stops : Ref.TradeActionCode → Bool
  | .halt | .pause => true
  | .quote | .trade => false

/-- The messages of the reference, to the control module of a stock at a market. -/
def refMsgHours : ITCHMsg → Option Bool
  | .systemEvent _ .msgBegin => some true
  | .systemEvent _ .msgEnd => some false
  | _ => none

def refSysHours : ITCHMsg → Option Bool
  | .systemEvent _ .sysBegin => some true
  | .systemEvent _ .sysEnd => some false
  | _ => none

def refStockHalt (stockSymbol : String) : ITCHMsg → Option Bool
  | .tradeAction _ t a => if t = stockSymbol then some (stops a) else none
  | _ => none

def refMarketHalt (marketCode : Char) (stockSymbol : String) : ITCHMsg → Option Bool
  | .opHalt _ t c isHalt => if t = stockSymbol ∧ c = marketCode then some isHalt else none
  | _ => none

def refVoice (marketCode : Char) (stockSymbol : String) : Voice ITCHMsg :=
  ⟨refMsgHours, refSysHours, refStockHalt stockSymbol, refMarketHalt marketCode stockSymbol⟩

/-- The messages of the RTL. -/
def rtlMsgHours : Decoded → Option Bool
  | .event .msgBegin => some true
  | .event .msgEnd => some false
  | _ => none

def rtlSysHours : Decoded → Option Bool
  | .event .sysBegin => some true
  | .event .sysEnd => some false
  | _ => none

def rtlStockHalt (stockSymbol : BitVec 64) : Decoded → Option Bool
  | .action _ t a => if t = stockSymbol then some (stops a) else none
  | _ => none

def rtlMarketHalt (mkt : Rtl.Market) (stockSymbol : BitVec 64) : Decoded → Option Bool
  | .halt _ t c isHalt => if t = stockSymbol ∧ c = Decode.market mkt then some isHalt else none
  | _ => none

def rtlVoice (mkt : Rtl.Market) (stockSymbol : BitVec 64) : Voice Decoded :=
  ⟨rtlMsgHours, rtlSysHours, rtlStockHalt stockSymbol, rtlMarketHalt mkt stockSymbol⟩

/-! ### The reference -/

section Reference

variable {marketCode : Char} {stockSymbol : String} {s : Control}

/-- The control module of the stock. -/
structure Assigned (marketCode : Char) (stockSymbol : String) (s : Control) : Prop where
  initialized : s.initialized = true
  market : s.marketCode = some marketCode
  symbol : s.stockSymbol = some stockSymbol

/-- The control module after messages, whatever it has answered. -/
def controlled (s : Control) (ms : List ITCHMsg) : Control := ms.foldl (fun s m => (s.processMsg m).2) s

theorem Assigned.message (h : Assigned marketCode stockSymbol s) (m : ITCHMsg) :
    Assigned marketCode stockSymbol (s.processMsg m).2 := by
  obtain ⟨h1, h2, h3⟩ := Session.processMsg_config s m
  exact ⟨h1.trans h.initialized, h2.trans h.market, h3.trans h.symbol⟩

/-- **One message sets the flags that it says something about**, whatever is answered. -/
theorem Assigned.flags (h : Assigned marketCode stockSymbol s) (m : ITCHMsg) :
    (s.processMsg m).2.msgHours = (refMsgHours m).getD s.msgHours ∧
      (s.processMsg m).2.sysHours = (refSysHours m).getD s.sysHours ∧
      (s.processMsg m).2.stockHalt = (refStockHalt stockSymbol m).getD s.stockHalt ∧
      (s.processMsg m).2.marketHalt = (refMarketHalt marketCode stockSymbol m).getD s.marketHalt := by
  obtain ⟨hinit, hmarket, hsymbol⟩ := h
  rw [Session.processMsg_of_initialized hinit]
  cases m with
  | systemEvent l e =>
    -- where the assertion fails, the flag already is what the message says
    cases e <;> simp only [Control.onEvent] <;> split_ifs with hflag <;>
      simp_all [refMsgHours, refSysHours, refStockHalt, refMarketHalt]
  | directory l t =>
    simp only [Control.onDirectory]
    split_ifs <;> simp [refMsgHours, refSysHours, refStockHalt, refMarketHalt]
  | tradeAction l t a =>
    simp only [Control.onAction, hsymbol, Option.some.injEq]
    split_ifs with ht
    · cases a <;> simp [refMsgHours, refSysHours, refStockHalt, refMarketHalt, ht, stops]
    · simp [refMsgHours, refSysHours, refStockHalt, refMarketHalt, ht]
  | opHalt l t c isHalt =>
    simp only [Control.onHalt, hsymbol, hmarket, Option.some.injEq]
    split_ifs with ht hflag
    · simp [refMsgHours, refSysHours, refStockHalt, refMarketHalt, ht, hflag]
    · simp [refMsgHours, refSysHours, refStockHalt, refMarketHalt, ht]
    · simp [refMsgHours, refSysHours, refStockHalt, refMarketHalt, ht]
  | book o => simp [refMsgHours, refSysHours, refStockHalt, refMarketHalt]
  | other l => simp [refMsgHours, refSysHours, refStockHalt, refMarketHalt]

/-- **The flags follow the history.** -/
theorem Assigned.active_iff (h : Assigned marketCode stockSymbol s) (hmsg : s.msgHours = false)
    (hsys : s.sysHours = false) (hstock : s.stockHalt = true) (hmarket : s.marketHalt = false)
    (ms : List ITCHMsg) :
    (controlled s ms).stockActive = true ↔ (refVoice marketCode stockSymbol).Open ms := by
  have hkeep : ∀ (s : Control) (m : ITCHMsg), Assigned marketCode stockSymbol s →
      Assigned marketCode stockSymbol (s.processMsg m).2 := fun _ m h => h.message m
  have h1 : (controlled s ms).msgHours = latest refMsgHours s.msgHours ms :=
    latest_foldl hkeep (fun _ m h => (h.flags m).1) h ms
  have h2 : (controlled s ms).sysHours = latest refSysHours s.sysHours ms :=
    latest_foldl hkeep (fun _ m h => (h.flags m).2.1) h ms
  have h3 : (controlled s ms).stockHalt = latest (refStockHalt stockSymbol) s.stockHalt ms :=
    latest_foldl hkeep (fun _ m h => (h.flags m).2.2.1) h ms
  have h4 : (controlled s ms).marketHalt = latest (refMarketHalt marketCode stockSymbol) s.marketHalt ms :=
    latest_foldl hkeep (fun _ m h => (h.flags m).2.2.2) h ms
  rw [Voice.open_iff, Control.stockActive, h1, h2, h3, h4, hmsg, hsys, hstock, hmarket]
  simp [refVoice, and_assoc]

/-- **The reference reports the stock as active exactly while it is open** by the messages so far, those
included that have been answered with an error or have failed an assertion. -/
theorem stockActive_iff_open (hinit : Control.new.initParams marketCode stockSymbol = .ok s)
    (ms : List ITCHMsg) {m : ITCHMsg} {res : ControlResult} {s' : Control}
    (h : (controlled s ms).processMsg m = (.ret res, s')) :
    res.stockActive = true ↔ (refVoice marketCode stockSymbol).Open (ms ++ [m]) := by
  cases hinit
  have hassigned : Assigned marketCode stockSymbol
      { Control.new with initialized := true, marketCode, stockSymbol } := ⟨rfl, rfl, rfl⟩
  rw [← hassigned.active_iff rfl rfl rfl rfl, controlled, List.foldl_append]
  change _ ↔ ((controlled _ ms).processMsg m).2.stockActive = true
  rw [h, (control_ret h).2.2]

/-- The stock is opened, and an assertion fails in between. -/
def openedMsgs : List ITCHMsg :=
  [.systemEvent 0 .msgBegin, .systemEvent 0 .sysBegin, .systemEvent 0 .sysBegin,
    .tradeAction 7 "EXAMPLE1" .trade]

theorem stockActive_iff_open_example :
    (refVoice 'B' "EXAMPLE1").Open (openedMsgs ++ [.book (.add 7 1 true 100 10500)]) := by
  have hinit : Control.new.initParams 'B' "EXAMPLE1" = .ok
      { Control.new with initialized := true, marketCode := 'B', stockSymbol := "EXAMPLE1" } := rfl
  have hmsg : (controlled
      { Control.new with initialized := true, marketCode := 'B', stockSymbol := "EXAMPLE1" }
      openedMsgs).processMsg (.book (.add 7 1 true 100 10500)) = (.ret ⟨true, none⟩,
        ⟨true, some 'B', some "EXAMPLE1", true, true, false, false, false, none⟩) := by
    decide +kernel
  exact (stockActive_iff_open hinit openedMsgs hmsg).1 rfl

end Reference

/-! ### The device -/

section Device

variable {q : ControlRegs}

/-- The registers of the control module, configured for the stock. -/
structure RtlAssigned (mkt : Rtl.Market) (stockSymbol : BitVec 64) (q : ControlRegs) : Prop where
  initialized : q.initialized = true
  market : q.initMarket = mkt
  symbol : q.initStockSymbol = stockSymbol

variable {mkt : Rtl.Market} {stockSymbol : BitVec 64}

theorem RtlAssigned.after (h : RtlAssigned mkt stockSymbol q) (d : Decoded) :
    RtlAssigned mkt stockSymbol (after q d) := by
  obtain ⟨h1, h2, h3⟩ := config_after q d
  exact ⟨h1.trans h.initialized, h2.trans h.market, h3.trans h.symbol⟩

/-- **One message sets the registers that it says something about.** -/
theorem RtlAssigned.flags (h : RtlAssigned mkt stockSymbol q) (d : Decoded) :
    (Gating.after q d).msgHours = (rtlMsgHours d).getD q.msgHours ∧
      (Gating.after q d).systemHours = (rtlSysHours d).getD q.systemHours ∧
      (Gating.after q d).stockHalt = (rtlStockHalt stockSymbol d).getD q.stockHalt ∧
      (Gating.after q d).marketHalt = (rtlMarketHalt mkt stockSymbol d).getD q.marketHalt := by
  obtain ⟨-, rfl, rfl⟩ := h
  cases d with
  | event e => cases e <;> simp [Gating.after, rtlMsgHours, rtlSysHours, rtlStockHalt, rtlMarketHalt]
  | directory l t =>
    simp only [Gating.after]
    split_ifs <;> simp [rtlMsgHours, rtlSysHours, rtlStockHalt, rtlMarketHalt]
  | action l t a =>
    simp only [Gating.after]
    split_ifs with ht
    · cases a <;> simp [rtlMsgHours, rtlSysHours, rtlStockHalt, rtlMarketHalt, ht, stops]
    · simp [rtlMsgHours, rtlSysHours, rtlStockHalt, rtlMarketHalt, ht]
  | halt l t c isHalt =>
    simp only [Gating.after]
    split_ifs with ht <;> simp [rtlMsgHours, rtlSysHours, rtlStockHalt, rtlMarketHalt, ht]
  | add => simp [Gating.after, rtlMsgHours, rtlSysHours, rtlStockHalt, rtlMarketHalt]
  | reduce => simp [Gating.after, rtlMsgHours, rtlSysHours, rtlStockHalt, rtlMarketHalt]
  | delete => simp [Gating.after, rtlMsgHours, rtlSysHours, rtlStockHalt, rtlMarketHalt]
  | replace => simp [Gating.after, rtlMsgHours, rtlSysHours, rtlStockHalt, rtlMarketHalt]

/-- The registers before the first message. -/
structure Started (mkt : Rtl.Market) (stockSymbol : BitVec 64) (q : ControlRegs) : Prop
    extends RtlAssigned mkt stockSymbol q where
  msgHours : q.msgHours = false
  sysHours : q.systemHours = false
  stockHalt : q.stockHalt = true
  marketHalt : q.marketHalt = false

/-- So they are after a reset and the parameters. -/
theorem Booted.started {q : TopRegs} {i : TopIn} {u : ℕ → TopIn} {n t₀ base : ℕ} {sym : String}
    (h : Booted q i u n t₀ sym base) :
    Started (u n).initMarket (symbolBits sym) (top.state (released q i) u t₀).control := by
  obtain ⟨hconf, hagree⟩ := h.configured rfl
  exact ⟨⟨hconf.rtl, hconf.rtlMarket, hconf.rtlSymbol⟩, hagree.msgHours, hagree.sysHours,
    hagree.stockHalt, hagree.marketHalt⟩

/-- **The registers follow the history.** -/
theorem Started.active_iff (h : Started mkt stockSymbol q) (ds : List Decoded) :
    (ds.foldl Gating.after q).stockActive = true ↔ (rtlVoice mkt stockSymbol).Open ds := by
  obtain ⟨h, hmsg, hsys, hstock, hmarket⟩ := h
  have hkeep : ∀ (q : ControlRegs) (d : Decoded), RtlAssigned mkt stockSymbol q →
      RtlAssigned mkt stockSymbol (Gating.after q d) := fun _ d h => h.after d
  have h1 : (ds.foldl Gating.after q).msgHours = latest rtlMsgHours q.msgHours ds :=
    latest_foldl hkeep (fun _ d h => (h.flags d).1) h ds
  have h2 : (ds.foldl Gating.after q).systemHours = latest rtlSysHours q.systemHours ds :=
    latest_foldl hkeep (fun _ d h => (h.flags d).2.1) h ds
  have h3 : (ds.foldl Gating.after q).stockHalt = latest (rtlStockHalt stockSymbol) q.stockHalt ds :=
    latest_foldl hkeep (fun _ d h => (h.flags d).2.2.1) h ds
  have h4 : (ds.foldl Gating.after q).marketHalt = latest (rtlMarketHalt mkt stockSymbol) q.marketHalt ds :=
    latest_foldl hkeep (fun _ d h => (h.flags d).2.2.2) h ds
  have h5 : (ds.foldl Gating.after q).initialized = true := (config_foldl ds q).1.trans h.initialized
  rw [Voice.open_iff, ControlRegs.stockActive, h1, h2, h3, h4, h5, hmsg, hsys, hstock, hmarket]
  simp [rtlVoice, and_assoc]

/-- The gate of a result is the stock state after the messages before its order. -/
theorem exists_of_gates {ds : List Decoded} {k : ℕ} {g : Bool} (h : (gates q ds)[k]? = some g) :
    ∃ before d after, ds = before ++ d :: after ∧ hasResult d = true ∧
      (before.filter hasResult).length = k ∧ g = (before.foldl Gating.after q).stockActive := by
  induction ds generalizing q k with
  | nil => cases h
  | cons d ds ih =>
    rw [gates] at h
    cases hres : hasResult d with
    | false =>
      rw [hres] at h
      obtain ⟨before, d', after, rfl, hd', hlen, hg⟩ := ih h
      refine ⟨d :: before, d', after, rfl, hd', ?_, hg⟩
      rw [List.filter_cons_of_neg (by simp [hres]), hlen]
    | true =>
      rw [hres, if_pos rfl, List.singleton_append] at h
      cases k with
      | zero => exact ⟨[], d, ds, rfl, hres, rfl, (Option.some.inj h).symm⟩
      | succ k =>
        obtain ⟨before, d', after, rfl, hd', hlen, hg⟩ := ih h
        refine ⟨d :: before, d', after, rfl, hd', ?_, hg⟩
        rw [List.filter_cons_of_pos hres, List.length_cons, hlen]

/-- **The device shows a side of the book only while the stock is open**: whatever the state of the book, a
result on `bbo_res_o` with a valid side belongs to an order before which the messages of the stream have
opened the stock. At the start nothing is on its way (`Quiescent`); the stream may be cut off at any
cycle. -/
theorem published_open {np : Ref.MoldUDP64Parser} {q : TopRegs} (hq : Gating.Quiescent np q)
    (hstart : Started mkt stockSymbol q.control) {packets : List (List (List Ref.Byte))} {all : List Axis}
    (hstream : Stream np packets all) {cycles : List TopIn} {last : TopIn}
    (hcut : ((cycles ++ [last]).map TopIn.axis) <+: all) (hinit : ∀ i ∈ cycles, i.initV = false)
    (herr : Gating.ErrorFree q cycles) {k : ℕ} {r : Bbo}
    (hr : (published (top.trace q (cycles ++ [last])))[k]? = some r)
    (hvalid : r.bidValid = true ∨ r.offValid = true) :
    ∃ before d after, sent (top.run q cycles).control.stockLocate packets = before ++ d :: after ∧
      hasResult d = true ∧ (before.filter hasResult).length = k ∧
        (rtlVoice mkt stockSymbol).Open before := by
  -- the result is one of the book, with the mask of its cycle
  rw [(Gating.published_eq q cycles last).1, hq.published, if_neg Bool.false_ne_true, List.nil_append,
    List.getElem?_zipWith_eq_some] at hr
  obtain ⟨g, rb, hg, -, rfl⟩ := hr
  have hopen : g = true := by
    by_contra hne
    rw [Bbo.mask, if_neg hne] at hvalid
    simp at hvalid
  -- and the masks are the first gates of the stream
  have hcut' : (cycles.map TopIn.axis) <+: all := by
    rw [List.map_append] at hcut
    exact (List.prefix_append _ _).trans hcut
  have hrun := Gating.masks_run hq.stages herr hinit
  rw [hq.due, List.nil_append] at hrun
  obtain ⟨rest, hgates⟩ := Gating.gates_first q.control (Gating.shown_first hq hstream hcut' hinit herr)
  rw [hrun, List.append_assoc] at hgates
  have hgate : (gates q.control (sent (top.run q cycles).control.stockLocate packets))[k]? = some g := by
    rw [← hgates, List.getElem?_append_left (List.getElem?_eq_some_iff.1 hg).1]
    exact hg
  obtain ⟨before, d, after, hsplit, hres, hlen, hactive⟩ := exists_of_gates hgate
  rw [hopen] at hactive
  exact ⟨before, d, after, hsplit, hres, hlen, (hstart.active_iff before).1 hactive.symm⟩

/-- The first of the two bids is answered with a valid side. -/
theorem published_open_example :
    ∃ before d after,
      sent (top.run Gating.exampleRegs Gating.haltedCycles).control.stockLocate [Gating.haltedMsgs] =
        before ++ d :: after ∧ hasResult d = true ∧ (before.filter hasResult).length = 0 ∧
          (rtlVoice .q 0x4558414D504C4531).Open before := by
  have hcut : ((Gating.haltedCycles ++ [Gating.topCycle Gating.idleBeat]).map TopIn.axis) <+:
      Framing.beats Gating.haltedPkt ++ List.replicate 6 Gating.idleBeat :=
    ⟨[], by decide +kernel⟩
  have herr : Gating.ErrorFree Gating.exampleRegs Gating.haltedCycles := by
    unfold Gating.ErrorFree
    decide +kernel
  have hinit : ∀ i ∈ Gating.haltedCycles, i.initV = false := by decide +kernel
  have hfirst : ((published (top.trace Gating.exampleRegs
      (Gating.haltedCycles ++ [Gating.topCycle Gating.idleBeat])))[0]?).map (fun r => r.bidValid) =
        some true := by
    decide +kernel
  obtain ⟨r, hr, hvalid⟩ := Option.map_eq_some_iff.1 hfirst
  have hstart : Started .q 0x4558414D504C4531 Gating.exampleRegs.control :=
    ⟨⟨rfl, rfl, rfl⟩, rfl, rfl, rfl, rfl⟩
  exact published_open Gating.quiescent_exampleRegs hstart Gating.stream_halted hcut hinit herr hr
    (Or.inl hvalid)

end Device

end ItchOrderBook.System
