import ItchOrderBook.Book.Consistency
import ItchOrderBook.System.Monitor

/-!
# Reset and initialisation

The testbench resets the device, initialises it, and sends nothing before `book_ready_o` is high
(`dut_rst_init` of `rst_init.py`); the reference is initialised with the same parameters. In this time no
error is raised, and at its end the parsers are between packets (`Booted.quiescent`), the control module is
in step with the reference pipeline (`Booted.follows`), and the book has started (`Booted.boots`).
-/

namespace ItchOrderBook.System

open Decode (market symbolBits)
open Gating (Drained Quiescent)
open Pipeline (Boots behind l2InAt)
open Ref (Top)
open Rtl (BookRegs TopIn TopRegs book l2PriceTable top)

/-- The registers when reset is released, after it was held for a clock edge. -/
def released (q : TopRegs) (i : TopIn) : TopRegs := (q.reset.next i).reset

/-- `dut_rst_init`: reset is released at cycle 0, the parameters are given in cycle `n`, and
`book_ready_o` is high in cycle `t₀`, before which there are no words on the bus. The fill counter of the
price table, which reset does not clear, has not read its top value by cycle `n`. -/
structure Booted (q : TopRegs) (i : TopIn) (u : ℕ → TopIn) (n t₀ : ℕ) (sym : String) (base : ℕ) :
    Prop where
  pulse : ∀ t, (u t).initV = decide (t = n)
  symbol : (u n).initStockSymbol = symbolBits sym
  priceBase : (u n).initPriceBase.toNat = base
  idle : ∀ t < t₀, (u t).axis.tvalid = false
  after : n < t₀
  ready : (top.out (top.state (released q i) u t₀) (u t₀)).bookReady = true
  fresh : Tables.Fresh (q.reset.next i).book.l2.lut n

/-- What the parameters of the reference are. -/
theorem initParams_ok {marketCode : Char} {sym : String} {base : ℤ} {b : Bool} {s : Top {}}
    (h : (Top.new {} false).initParams marketCode sym base = .ok (b, s)) :
    Ref.Control.new.initParams marketCode sym = .ok s.ctrl ∧
      (Ref.Book.new {} false).initParams base = .ok s.book ∧ s.stockActive = false ∧
      s.stockLocate = none := by
  unfold Top.initParams at h
  split at h
  · cases h
  · rename_i ctrl hctrl
    split at h
    · cases h
    · rename_i book hbook
      cases h
      exact ⟨hctrl, hbook, rfl, rfl⟩

theorem drained_released (q : TopRegs) (i : TopIn) : Drained .new (released q i) :=
  ⟨⟨rfl, fun h => by cases h⟩, ⟨rfl, rfl, fun h => by cases h⟩, rfl,
    ⟨rfl, rfl⟩, rfl, rfl, rfl, (Gating.lookup_next q.reset.book (q.reset.bookIn i)).1, rfl, rfl⟩

/-- The inputs of the lookup tables in a cycle of the book. -/
def lutInAt (q : BookRegs) (v : ℕ → Rtl.BookIn) (t : ℕ) : Rtl.LutIn :=
  (l2PriceTable.state q.l2.reset (l2InAt q (behind q v)) t).lutIn (l2InAt q (behind q v) t)

/-- The lookup tables are filled `2049` cycles after the pulse. -/
theorem filled_iff {q : BookRegs} {v : ℕ → Rtl.BookIn} {n : ℕ} (hpulse : ∀ t, (v t).initV = decide (t = n))
    (hfresh : Tables.Fresh q.l2.lut n) (t : ℕ) :
    (book.state q.reset v t).l2.lut.initDone = true ↔ n + 2049 ≤ t := by
  let l : ℕ → Rtl.LutRegs := fun t => (l2PriceTable.state q.l2.reset (l2InAt q (behind q v)) t).lut
  have hstate : (book.state q.reset v t).l2.lut = l t := by rw [Pipeline.l2_state_book]
  have hzero : l 0 = q.l2.lut.reset := rfl
  have hnext : ∀ t, l (t + 1) = (l t).next (lutInAt q v t) := fun _ => rfl
  rw [hstate]
  rcases Nat.lt_or_ge n t with hlt | hle
  · obtain ⟨j, hj⟩ := Nat.exists_eq_add_of_lt hlt
    have hafter := Tables.lut_initDone_after hzero hnext hpulse hfresh j
    rw [hj, Nat.add_right_comm, hafter]
    omega
  · -- had the counter wrapped around already, it would not be fresh at the pulse
    have hunset := (Tables.lut_initDone_pulse hzero hnext hpulse).2 hfresh
    rw [← Bool.not_eq_true, Tables.lut_initDone_iff hzero hnext] at hunset
    rw [Tables.lut_initDone_iff hzero hnext]
    constructor
    · rintro ⟨t', hlt, htop⟩
      exact absurd ⟨t', by omega, htop⟩ hunset
    · intro hge
      omega

/-- If the counter has wrapped around before the pulse, the flag is set once it has. -/
theorem stale_done {q : BookRegs} {v : ℕ → Rtl.BookIn} {n : ℕ} (hpulse : ∀ t, (v t).initV = decide (t = n))
    (hstale : ¬ Tables.Fresh q.l2.lut n) {t : ℕ} (ht : 2048 ≤ t) :
    (book.state q.reset v t).l2.lut.initDone = true := by
  let l : ℕ → Rtl.LutRegs := fun t => (l2PriceTable.state q.l2.reset (l2InAt q (behind q v)) t).lut
  have hstate : (book.state q.reset v t).l2.lut = l t := by rw [Pipeline.l2_state_book]
  have hzero : l 0 = q.l2.lut.reset := rfl
  have hnext : ∀ t, l (t + 1) = (l t).next (lutInAt q v t) := fun _ => rfl
  have hlt := q.l2.lut.count.isLt
  unfold Tables.Fresh at hstale
  rw [hstate, Tables.lut_initDone_iff hzero hnext]
  refine ⟨2047 - q.l2.lut.count.toNat, by omega, ?_⟩
  rw [(Tables.lut_count_before hzero hnext hpulse (by omega)).1, ← BitVec.toNat_inj, BitVec.toNat_add,
    BitVec.toNat_ofNat, BitVec.toNat_allOnes]
  omega

/-- Whether `book_ready_o` is high in a cycle. -/
def bookReadyAt (q : TopRegs) (i : TopIn) (u : ℕ → TopIn) (t : ℕ) : Bool :=
  (top.out (top.state (released q i) u t) (u t)).bookReady

theorem bookReadyAt_iff (q : TopRegs) (i : TopIn) (u : ℕ → TopIn) (t : ℕ) :
    bookReadyAt q i u t = true ↔ 2048 ≤ t ∧
      (book.state (q.reset.next i).book.reset (bookAt (released q i) u) t).l2.lut.initDone = true := by
  have hbook : bookReadyAt q i u t =
      (book.state (q.reset.next i).book.reset (bookAt (released q i) u) t).ready := by
    rw [← book_state (q := released q i) rfl t]
    rfl
  rw [hbook, Pipeline.ready_book_iff]

/-- **When the device is ready.** -/
theorem bookReady_iff {q : TopRegs} {i : TopIn} {u : ℕ → TopIn} {n : ℕ}
    (hpulse : ∀ t, (u t).initV = decide (t = n)) (hfresh : Tables.Fresh (q.reset.next i).book.l2.lut n)
    (t : ℕ) : bookReadyAt q i u t = true ↔ n + 2049 ≤ t := by
  rw [bookReadyAt_iff, filled_iff hpulse hfresh]
  omega

theorem bookReady_iff_of_stale {q : TopRegs} {i : TopIn} {u : ℕ → TopIn} {n : ℕ}
    (hpulse : ∀ t, (u t).initV = decide (t = n)) (hstale : ¬ Tables.Fresh (q.reset.next i).book.l2.lut n)
    (t : ℕ) : bookReadyAt q i u t = true ↔ 2048 ≤ t := by
  rw [bookReadyAt_iff]
  exact ⟨fun h => h.1, fun h => ⟨h, stale_done hpulse hstale h⟩⟩

/-! ### The wait -/

/-- `MAX_RESET_CYCLES`. -/
def maxResetCycles : ℕ := 5000

/-- The loop of `dut_rst_init` from cycle `t` on, with `left` turns to go: the cycle in which
`book_ready_o` is high, or the failed assertion. -/
def awaitReady (ready : ℕ → Bool) : (left t : ℕ) → Except Ref.Exn ℕ
  | 0, t => if ready t then .ok t else .error (.assertion "Timed out while waiting for book_ready_o.")
  | left + 1, t => if ready t then .ok t else awaitReady ready left (t + 1)

/-- The loop ends in the first cycle with `book_ready_o`. -/
theorem awaitReady_eq {ready : ℕ → Bool} {t₀ : ℕ} (hready : ∀ t, ready t = true ↔ t₀ ≤ t) {left t : ℕ}
    (hleft : t₀ ≤ t + left) : awaitReady ready left t = .ok (max t₀ t) := by
  induction left generalizing t with
  | zero =>
    have ht : t₀ ≤ t := hleft
    rw [awaitReady, if_pos ((hready t).2 ht), max_eq_right ht]
  | succ left ih =>
    rw [awaitReady]
    by_cases ht : t₀ ≤ t
    · rw [if_pos ((hready t).2 ht), max_eq_right ht]
    · rw [if_neg fun h => ht ((hready t).1 h), ih (by omega)]
      congr 1
      omega

/-- **`dut_rst_init` returns.** Whatever the registers hold before reset, and whatever is on the bus, the
wait that begins with or right behind the parameters does not time out. `book_ready_o` is high from then
on. It takes the `2049` cycles that fill the lookup tables; if the free-running counter of the fill has
wrapped around before, no more than the sweep of the memories. -/
theorem awaitReady_returns (q : TopRegs) (i : TopIn) (u : ℕ → TopIn) {n t₁ : ℕ}
    (hpulse : ∀ t, (u t).initV = decide (t = n)) (hstart : n ≤ t₁) (hearly : t₁ ≤ n + 1) :
    ∃ t₀, awaitReady (bookReadyAt q i u) maxResetCycles t₁ = .ok t₀ ∧
      (∀ t, t₀ ≤ t → bookReadyAt q i u t = true) ∧
      (Tables.Fresh (q.reset.next i).book.l2.lut n → t₀ = n + 2049) ∧
      (¬ Tables.Fresh (q.reset.next i).book.l2.lut n → t₀ = max 2048 t₁) := by
  by_cases hfresh : Tables.Fresh (q.reset.next i).book.l2.lut n
  · have hready := bookReady_iff hpulse hfresh
    have hmax : max (n + 2049) t₁ = n + 2049 := by omega
    refine ⟨n + 2049, ?_, fun t ht => (hready t).2 ht, fun _ => rfl, fun h => absurd hfresh h⟩
    rw [awaitReady_eq hready (by unfold maxResetCycles; omega), hmax]
  · have hready := bookReady_iff_of_stale hpulse hfresh
    refine ⟨max 2048 t₁, ?_, fun t ht => (hready t).2 (by omega), fun h => absurd h hfresh, fun _ => rfl⟩
    exact awaitReady_eq hready (by unfold maxResetCycles; omega)

/-- An idle bus, with the parameters in cycle 1. -/
def quietInputs (t : ℕ) : TopIn := ⟨decide (t = 1), .b, symbolBits "EXAMPLE1", 10000, Gating.idleBeat⟩

theorem awaitReady_returns_example :
    awaitReady (bookReadyAt Gating.exampleRegs (Gating.topCycle Gating.idleBeat) quietInputs) maxResetCycles
      2 = .ok 2050 := by
  have hfresh : Tables.Fresh
      (Gating.exampleRegs.reset.next (Gating.topCycle Gating.idleBeat)).book.l2.lut 1 := by
    decide +kernel
  obtain ⟨t₀, hwait, -, ht₀, -⟩ := awaitReady_returns Gating.exampleRegs (Gating.topCycle Gating.idleBeat)
    quietInputs (fun _ => rfl) (by decide : 1 ≤ 2) (by decide)
  rw [hwait, ht₀ hfresh]

section Booted

variable {q : TopRegs} {i : TopIn} {u : ℕ → TopIn} {n t₀ base : ℕ} {sym : String}

/-- Nothing is on its way. -/
theorem Booted.drained (h : Booted q i u n t₀ sym base) {t : ℕ} (ht : t ≤ t₀) :
    Drained .new (top.state (released q i) u t) := by
  induction t with
  | zero => exact drained_released q i
  | succ t ih => exact ((ih (by omega)).next (h.idle t ht)).1

/-- No message is shown. -/
theorem Booted.silent (h : Booted q i u n t₀ sym base) {t : ℕ} (ht : t ≤ t₀) :
    Decode.emitted (top.state (released q i) u t).itchOut = [] :=
  Gating.emitted_of_quiet (h.drained ht).ctrl (h.drained ht).book

/-- The modules in front of the book raise no error. -/
theorem Booted.front (h : Booted q i u n t₀ sym base) {t : ℕ} (ht : t < t₀) :
    FrontQuiet (top.state (released q i) u t) (u t) := by
  have hd := h.drained ht.le
  refine ⟨?_, ?_, ?_⟩
  · exact Bool.and_eq_false_imp.2 fun hv => absurd ((h.idle t ht).symm.trans hv) Bool.false_ne_true
  · rw [Decode.comb_idle hd.word]
    rfl
  · have hnone : AdmitsAll 0 (top.state (released q i) u t).control
        (Decode.emitted (top.state (released q i) u t).itchOut) := by
      rw [h.silent ht.le]
      trivial
    exact ctrlError_of_admitted (u t) hnone

theorem Booted.quiescent (h : Booted q i u n t₀ sym base) (ht : 2 ≤ t₀) :
    Quiescent .new (top.state (released q i) u t₀) := by
  obtain ⟨t, rfl⟩ := Nat.exists_eq_add_of_le' ht
  have hres := ((h.drained (t := t) (by omega)).next (h.idle t (by omega))).2
  have hres' := ((h.drained (t := t + 1) (by omega)).next (h.idle (t + 1) (by omega))).2
  exact ⟨h.drained le_rfl, hres', hres⟩

/-- Up to the parameters, the control module is as reset leaves it. -/
theorem Booted.control_before (h : Booted q i u n t₀ sym base) {t : ℕ} (ht : t ≤ n) :
    (top.state (released q i) u t).control = (q.reset.next i).control.reset := by
  induction t with
  | zero => rfl
  | succ t ih =>
    have hlt : t < n := ht
    have hpulse : (u t).initV = false := (h.pulse t).trans (decide_eq_false (by omega))
    have hnext : (top.state (released q i) u (t + 1)).control =
        (Decode.emitted (top.state (released q i) u t).itchOut).foldl Gating.after
          (top.state (released q i) u t).control := Gating.control_next hpulse
    rw [hnext, h.silent (by have := h.after; omega), List.foldl_nil]
    exact ih hlt.le

/-- Behind them, it stays as they leave it. -/
theorem Booted.control_after (h : Booted q i u n t₀ sym base) {t : ℕ} (ht : n < t) (hle : t ≤ t₀) :
    (top.state (released q i) u t).control = (top.state (released q i) u (n + 1)).control := by
  induction t, ht using Nat.le_induction with
  | base => rfl
  | succ t ht ih =>
    have hlt : n < t := ht
    have hpulse : (u t).initV = false := (h.pulse t).trans (decide_eq_false (by omega))
    have hnext : (top.state (released q i) u (t + 1)).control =
        (Decode.emitted (top.state (released q i) u t).itchOut).foldl Gating.after
          (top.state (released q i) u t).control := Gating.control_next hpulse
    rw [hnext, h.silent (by omega), List.foldl_nil]
    exact ih (by omega)

/-- The control module has the parameters, and agrees with that of the reference. -/
theorem Booted.configured (h : Booted q i u n t₀ sym base) {s : Ref.Control}
    (hctrl : Ref.Control.new.initParams (market (u n).initMarket) sym = .ok s) :
    Session.Configured (u n).initMarket sym (top.state (released q i) u t₀).control s ∧
      Session.Agree (top.state (released q i) u t₀).control s := by
  have hn := h.after
  have hcontrol : (top.state (released q i) u t₀).control = Rtl.control.next
      (q.reset.next i).control.reset ((top.state (released q i) u n).controlIn (u n)) := by
    rw [h.control_after hn le_rfl, ← h.control_before le_rfl]
    rfl
  have hpulse : ((top.state (released q i) u n).controlIn (u n)).initV = true :=
    (h.pulse n).trans (decide_eq_true rfl)
  rw [hcontrol]
  exact Session.start_agree (q.reset.next i).control hpulse (h.drained hn.le).ctrl h.symbol hctrl

/-- **The control module follows the reference pipeline.** -/
theorem Booted.follows (h : Booted q i u n t₀ sym base) {b : Bool} {s : Top {}}
    (hinit : (Top.new {} false).initParams (market (u n).initMarket) sym base = .ok (b, s))
    (loc : BitVec 16) :
    Follows (u n).initMarket sym loc (top.state (released q i) u t₀).control s := by
  obtain ⟨hctrl, -, hactive, hlocate⟩ := initParams_ok hinit
  obtain ⟨hconf, hagree⟩ := h.configured hctrl
  refine ⟨hconf, hagree, Session.synced_of_init hinit, ?_, fun l hl => ?_⟩
  · have hs := Except.ok.inj hctrl
    rw [hactive, ← hs]
    rfl
  · rw [hlocate] at hl
    cases hl

/-- Nothing is looked up. -/
theorem Booted.unlooked (h : Booted q i u n t₀ sym base) {t : ℕ} (ht : t ≤ t₀) :
    (top.state (released q i) u t).book.lookup.valid = false := (h.drained ht).lookup

theorem Booted.book_state (_ : Booted q i u n t₀ sym base) (t : ℕ) :
    (top.state (released q i) u t).book =
      book.state (q.reset.next i).book.reset (bookAt (released q i) u) t := by
  have hreset : (released q i).book = (q.reset.next i).book.reset := rfl
  exact System.book_state hreset t

/-- The book is ready no earlier than the lookup tables are filled. -/
theorem Booted.late (h : Booted q i u n t₀ sym base) : n + 2049 ≤ t₀ :=
  (bookReady_iff h.pulse h.fresh t₀).1 h.ready

/-- **The book has started.** -/
theorem Booted.boots (h : Booted q i u n t₀ sym base) (htick : base % 50 = 0)
    (hfits : base + 50 * 2047 < 2 ^ 32) :
    Boots base (q.reset.next i).book (behind (q.reset.next i).book (bookAt (released q i) u)) n (t₀ + 1) := by
  refine Pipeline.boots_of_fresh h.pulse h.priceBase htick hfits h.fresh ?_ fun t ht => ?_
  · have := h.late
    omega
  · change (book.state (q.reset.next i).book.reset (bookAt (released q i) u) t).lookup.valid = false
    rw [← h.book_state]
    exact h.unlooked (by omega)

end Booted

end ItchOrderBook.System
