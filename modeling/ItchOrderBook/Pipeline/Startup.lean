import ItchOrderBook.Book.Runs
import ItchOrderBook.OrderTable.Schedules
import ItchOrderBook.Pipeline.Copies
import ItchOrderBook.Pipeline.Runs

/-!
# The book behind the order table from reset on

After the release of reset, the initialisation pulse and the sweeps, the registers track a book without
live orders (`Boots.tracking`), and no error is raised up to then (`Boots.quiet`).
-/

namespace ItchOrderBook.Pipeline

open Book (OrderMap Orders ladder)
open Ref (Params)
open Rtl (BboWord BookIn BookRegs DecBook HalfIn HalfRegs L2In L2Regs l2PriceTable)
open Tables (LutHolds)

/-- In the run that begins with the release of reset at `q` there is one initialisation pulse, in cycle
`n`, and no message before cycle `t₀`, in which the price table is ready and its lookup tables hold the
window. -/
structure Boots (base : ℕ) (q : BookRegs) (u : ℕ → BackIn) (n t₀ : ℕ) : Prop where
  pulse : ∀ t < t₀, (u t).initV = decide (t = n)
  priceBase : (u n).initPriceBase.toNat = base
  tick : base % 50 = 0
  fits : base + 50 * 2047 < 2 ^ 32
  after : n < t₀
  quiet : ∀ t < t₀, (u t).lookup.valid = false
  ready : (backend.state q.reset u t₀).l2.ready = true
  lut : LutHolds base (backend.state q.reset u t₀).l2.lut

/-- Nothing is in the registers of a half. -/
structure EmptyHalf (h : HalfRegs) : Prop where
  arr0 : h.arr0 = .zero
  arr1 : h.arr1 = .zero
  outSizeAll : h.outSizeAll = 0
  outSizeInRange : h.outSizeInRange = 0
  updtAbleAll : h.updtAbleAll = false
  updtAbleInRange : h.updtAbleInRange = false

/-- No message has been seen. -/
structure Blank (q : BookRegs) : Prop extends Calm q where
  decBook : q.l2.decBook.valid = false
  existWen : q.l2.existWen = false
  existArr : ∀ a, q.l2.existArr a = false
  halves (c : Bool) : EmptyHalf (halfOf q c)

/-- The bound of the window on a side. -/
def bound (base : ℕ) (c : Bool) : ℕ := if c then base else base + 50 * 2047

/-- The registers are initialised at a price base. -/
structure Initialised (base : ℕ) (q : BookRegs) : Prop where
  l2 : q.l2.initialized = true
  priceBase : q.l2.priceBase.toNat = base
  priceMax : q.l2.priceMax.toNat = base + 50 * 2047
  half (c : Bool) : (halfOf q c).initialized = true
  bound (c : Bool) : (halfOf q c).priceBound.toNat = bound base c

section Cycle

variable {base : ℕ} {q : BookRegs} {i : BookIn} {c : Bool}

theorem blank_reset (q : BookRegs) : Blank q.reset where
  signals := ⟨fun c => by cases c <;> rfl, fun c => by cases c <;> rfl, fun c => by cases c <;> rfl,
    fun c => by cases c <;> rfl, rfl⟩
  held := rfl
  decBook := rfl
  existWen := rfl
  existArr _ := rfl
  halves c := by cases c <;> exact ⟨rfl, rfl, rfl, rfl, rfl, rfl⟩

theorem Calm.setL3 (h : Calm q) (x : Rtl.L3Regs) : Calm { q with l3 := x } := ⟨h.signals.setL3 x, h.held⟩

theorem EmptyHalf.next {h : HalfRegs} {j : HalfIn} (he : EmptyHalf h) (hv : j.decBook.valid = false)
    (hu : j.updt.valid = false) : EmptyHalf (HalfRegs.next c h j) := by
  obtain ⟨h1, h2, h3, h4, -, -⟩ := he
  constructor <;> simp [HalfRegs.next, HalfRegs.onMsg, HalfRegs.onUpdt, hv, hu, h1, h2, h3, h4]

theorem Blank.next (h : Blank q) (hv : q.lookup.valid = false) : Blank (q.next i) where
  toCalm := h.toCalm.next hv
  decBook := decBook_idle (i := q.l2In i) q.l2 hv
  existWen := h.decBook
  existArr a := by
    have hnext : (q.next i).l2 = q.l2.next (q.l2In i) := rfl
    rw [hnext, existArr_next h.existWen]
    exact h.existArr a
  halves c := by
    rw [halfOf_next]
    exact (h.halves c).next (halfIn_idle (h.bboDecBook.symm ▸ hv) c) (updt_valid h.signals c)

theorem Initialised.next (h : Initialised base q) (hi : i.initV = false) : Initialised base (q.next i) := by
  have hj : ∀ c, (halfIn q i c).initV = false := fun c => (halfIn_initV q i c).trans hi
  have hl2 : (q.l2In i).initV = false := hi
  have hnext : (q.next i).l2 = q.l2.next (q.l2In i) := rfl
  refine ⟨?_, ?_, ?_, fun c => ?_, fun c => ?_⟩
  · simp [hnext, L2Regs.next, h.l2]
  · simp [hnext, L2Regs.next, hl2, h.priceBase]
  · simp [hnext, L2Regs.next, hl2, h.priceMax]
  · simp [halfOf_next, HalfRegs.next, h.half]
  · simp [halfOf_next, HalfRegs.next, hj, h.bound]

/-- The initialisation pulse. -/
theorem initialised_next (hi : i.initV = true) (hbase : i.initPriceBase.toNat = base)
    (hfits : base + 50 * 2047 < 2 ^ 32) : Initialised base (q.next i) := by
  have hj : ∀ c, (halfIn q i c).initV = true := fun c => (halfIn_initV q i c).trans hi
  obtain ⟨h1, h2, h3⟩ : Windowed base (q.next i).l2 :=
    windowed_next (i := q.l2In i) (r := q.l2) hi hbase hfits
  refine ⟨h1, h2, h3, fun c => ?_, fun c => ?_⟩
  · simp [halfOf_next, HalfRegs.next, hj]
  · rw [halfOf_next]
    simp only [HalfRegs.next, hj, if_true]
    cases c with
    | true => exact hbase
    | false =>
      have hbound : (halfIn q i false).initPriceBound = i.initPriceBase + 50 * (2048 - 1) := rfl
      have hconst : (50 * (2048 - 1) : BitVec 32).toNat = 102350 := by decide
      rw [hbound, BitVec.toNat_add, hconst, hbase, bound, if_neg Bool.false_ne_true]
      omega

end Cycle

/-! ### The run up to the first message -/

section Run

variable {base n t₀ : ℕ} {q : BookRegs} {u : ℕ → BackIn}

/-- The inputs of the price table in a cycle of the run. -/
def l2InAt (q : BookRegs) (u : ℕ → BackIn) (t : ℕ) : L2In :=
  (withLookup (backend.state q.reset u t) (u t).lookup).l2In (u t).book

theorem l2_state (q : BookRegs) (u : ℕ → BackIn) (t : ℕ) :
    (backend.state q.reset u t).l2 = l2PriceTable.state q.l2.reset (l2InAt q u) t := by
  induction t with
  | zero => rfl
  | succ t ih =>
    have hnext : (backend.state q.reset u (t + 1)).l2 =
        (backend.state q.reset u t).l2.next (l2InAt q u t) := rfl
    rw [hnext, ih]
    rfl

theorem Blank.withLookup (h : Blank q) (x : DecBook) : Blank (withLookup q x) :=
  ⟨h.toCalm.setL3 _, h.decBook, h.existWen, h.existArr, h.halves⟩

theorem Boots.blank (h : Boots base q u n t₀) {t : ℕ} (ht : t ≤ t₀) :
    Blank (backend.state q.reset u t) := by
  induction t with
  | zero => exact blank_reset q
  | succ t ih => exact ((ih (Nat.le_of_succ_le ht)).withLookup _).next (h.quiet t ht)

theorem Boots.initialised (h : Boots base q u n t₀) {t : ℕ} (hn : n + 1 ≤ t) (ht : t ≤ t₀) :
    Initialised base (backend.state q.reset u t) := by
  induction t, hn using Nat.le_induction with
  | base =>
    exact initialised_next (i := (u n).book) ((h.pulse n h.after).trans (decide_eq_true rfl))
      h.priceBase h.fits
  | succ t hnt ih =>
    have hi := ih (Nat.le_of_succ_le ht)
    have hinit : (u t).book.initV = false := (h.pulse t ht).trans (decide_eq_false (by omega))
    have hi' : Initialised base (Pipeline.withLookup (backend.state q.reset u t) (u t).lookup) :=
      ⟨hi.l2, hi.priceBase, hi.priceMax, hi.half, hi.bound⟩
    exact hi'.next hinit

/-- **No error is raised before the first message.** -/
theorem Boots.quiet_before (h : Boots base q u n t₀) {t : ℕ} (ht : t < t₀) :
    (backend.out (backend.state q.reset u t) (u t)).Quiet :=
  quiet_of_noError (((h.blank ht.le).withLookup (u t).lookup).noError (h.quiet t ht))

theorem sharesAt_empty (p : ℤ) : Book.sharesAt ∅ p = 0 := by
  rw [Book.sharesAt, Book.levelShares_empty, Book.levelShares_empty, add_zero]

theorem Boots.loads (h : Boots base q u n t₀) : Loads base q.l2 (l2InAt q u) n t₀ where
  pulse := h.pulse
  priceBase := h.priceBase
  tick := h.tick
  fits := h.fits
  after := h.after
  quiet := h.quiet
  ready := l2_state q u t₀ ▸ h.ready
  lut := l2_state q u t₀ ▸ h.lut

/-- The price table when it is ready for the first message. -/
theorem Boots.table (h : Boots base q u n t₀) :
    Table base (Book.sharesAt ∅) (backend.state q.reset u t₀).l2 := by
  rw [l2_state, funext sharesAt_empty]
  exact h.loads.table

/-- A half without levels. -/
theorem EmptyHalf.holds {c : Bool} {x : HalfRegs} (he : EmptyHalf x) (hinit : x.initialized = true)
    (hbound : x.priceBound.toNat = bound base c) : Holds c x (shown base 2 ∅ c) := by
  have hladder : ladder ∅ c = [] := Book.ladder_empty c
  obtain ⟨h1, h2, h3, h4, -, -⟩ := he
  refine ⟨rfl, rfl, hinit, ?_, ?_, ?_, ?_, ?_, ?_, ?_⟩
  · rw [hbound]
    cases c <;> rfl
  · simp [shown, hladder, entries, h1, BboWord.zero]
  · rw [h2]
    exact fun h => absurd h Bool.false_ne_true
  · exact fun _ => by rw [h1]; rfl
  · exact fun _ => by rw [h2]; rfl
  · simp [shown, hladder, h3]
  · simp [shown, hladder, h4]

/-- Nothing is published before the first message. -/
theorem Boots.unpublished (h : Boots base q u n t₀) {t : ℕ} (ht : t < t₀) :
    (backend.state q.reset u (t + 1)).bboResVLast = false := by
  have hquiet : (Pipeline.withLookup (backend.state q.reset u t) (u t).lookup).bboDecBook.valid = false :=
    ((h.blank ht.le).withLookup (u t).lookup).bboDecBook.symm ▸ h.quiet t ht
  have hnext : backend.state q.reset u (t + 1) =
      (Pipeline.withLookup (backend.state q.reset u t) (u t).lookup).next (u t).book := rfl
  rw [hnext, bboResVLast_next, hquiet, Bool.false_and]

/-- **The registers track a book without live orders** when the price table is ready. -/
theorem Boots.tracking (h : Boots base q u n t₀) (side : Option Bool) :
    Tracking base ⟨∅, side⟩ 5 false [] (backend.state q.reset u t₀) := by
  have hb := h.blank le_rfl
  have hi := h.initialised h.after le_rfl
  have hnone : ∀ c o, Aims base ∅ c o := fun c o x k hx => by
    have := hx.level
    rw [Book.ladder_empty] at this
    cases this
  have hlast : (backend.state q.reset u t₀).bboResVLast = false := by
    obtain ⟨t, rfl⟩ : ∃ t, t₀ = t + 1 := ⟨t₀ - 1, by have := h.after; omega⟩
    exact h.unpublished (Nat.lt_succ_self t)
  have hholds : ∀ c, Holds c (halfOf (backend.state q.reset u t₀) c) (shown base 2 ∅ c) :=
    fun c => (hb.halves c).holds (hi.half c) (hi.bound c)
  refine .phase (s := .rest) ⟨Book.placed_empty, h.table.settles 0, trivial, hb.signals, hholds, trivial,
    hb.held, fun _ c => hnone c _, fun _ c => ?_, fun _ c => hnone c _⟩ (fun _ => hlast) ?_
  · have hladder : ladder ∅ c = [] := Book.ladder_empty c
    obtain ⟨-, -, -, -, hall, hin⟩ := hb.halves c
    constructor
    · rw [hall]
      simp [shown, hladder]
    · rw [hin]
      simp [shown, hladder]
  · rw [hlast]
    rfl

end Run

/-- With an early enough pulse the book is ready one cycle after the fill of the lookup tables. -/
theorem boots_of_fresh {base n t₀ : ℕ} {q : BookRegs} {u : ℕ → BackIn}
    (hpulse : ∀ t, (u t).initV = decide (t = n)) (hprice : (u n).initPriceBase.toNat = base)
    (htick : base % 50 = 0) (hfits : base + 50 * 2047 < 2 ^ 32) (hfresh : Tables.Fresh q.l2.lut n)
    (hlate : n + 2049 ≤ t₀) (hquiet : ∀ t < t₀, (u t).lookup.valid = false) :
    Boots base q u n t₀ := by
  have hloads : Loads base q.l2 (l2InAt q u) n t₀ :=
    loads_of_fresh hpulse hprice htick hfits hfresh hlate hquiet
  refine ⟨fun t _ => hpulse t, hprice, htick, hfits, hloads.after, hquiet, ?_, ?_⟩
  · rw [l2_state]
    exact hloads.ready
  · rw [l2_state]
    exact hloads.lut

/-! ### The run -/

/-- No live orders. -/
def noOrders : OrderMap := ⟨∅, none⟩

section Refinement

variable {base n t₀ : ℕ} {q : BookRegs} {u : ℕ → BackIn}

/-- The reference follows the live orders when its parameters are set. -/
theorem serves_initParams {b : Ref.Book {}} (hinit : (Ref.Book.new {} false).initParams base = .ok b) :
    Serves base noOrders b := by
  obtain rfl := Book.initParams_eq hinit
  have hfollows := (Book.good_initialised {} false base).follows
  have hlive : (Book.orderMap (Book.initialised {} false base).l3).live = ∅ := Book.live_new {} false
  rw [hlive] at hfollows
  exact ⟨hfollows, small_empty⟩

theorem spacedFrom_idle {n : ℕ} {rep : Bool} {ds es : List DecBook} (h : SpacedFrom n rep ds)
    (hes : ∀ d ∈ es, d.valid = false) : SpacedFrom n rep (ds ++ es) := by
  induction ds generalizing n rep with
  | nil =>
    clear h
    rw [List.nil_append]
    induction es generalizing n rep with
    | nil => trivial
    | cons d es ih =>
      have hd := hes d List.mem_cons_self
      exact ⟨fun hv => absurd (hd.symm.trans hv) Bool.false_ne_true,
        ih fun e he => hes e (List.mem_cons_of_mem d he)⟩
  | cons d ds ih => exact ⟨h.1, ih h.2⟩

theorem afterAll_pos {n : ℕ} {rep : Bool} {ds : List DecBook} (hn : 1 ≤ n) : 1 ≤ (afterAll n rep ds).1 := by
  induction ds generalizing n rep with
  | nil => exact hn
  | cons d ds ih =>
    have hcons : afterAll n rep (d :: ds) = afterAll (after n rep d).1 (after n rep d).2 ds := rfl
    rw [hcons]
    refine ih ?_
    rw [after]
    split_ifs
    · exact le_rfl
    · exact Nat.le_add_left 1 n

theorem afterAll_append (n : ℕ) (rep : Bool) (ds es : List DecBook) :
    afterAll n rep (ds ++ es) = afterAll (afterAll n rep ds).1 (afterAll n rep ds).2 es :=
  List.foldl_append

/-- Nothing is owed from the third cycle after a message on. -/
theorem Tracking.owed_nil {om : OrderMap} {rep : Bool} {owed : List View} {q : BookRegs}
    (h : Tracking base om n rep owed q) (hn : 3 ≤ n) : owed = [] := by
  cases h with
  | phase h hv howed =>
    rw [howed, hv hn]
    rfl
  | held h hn' => omega

/-- **The RTL book refines the reference.** In a run from reset on, with the price table initialised and
ready before the first message, whose messages leave the table the cycles it needs and are answered by
the reference: no error is raised, and the best bids and offers published, up to two cycles after the last
message, are the answers of the reference, in order, but for those to deletes with a replace behind them. -/
theorem backend_refines (hboot : Boots base q u n t₀) {b₀ b : Ref.Book {}}
    (hinit : (Ref.Book.new {} false).initParams base = .ok b₀) {is : List BackIn}
    (his : ∀ i ∈ is, i.initV = false) (hspaced : Spaced (is.map (·.lookup)))
    {answers : List (DecBook × Ref.BookResult)} {om : OrderMap}
    (hmsgs : answers.map Prod.fst = (is.map (·.lookup)).filter (·.valid))
    (hans : Answered noOrders b₀ answers om b) {i1 i2 : BackIn}
    (h1 : i1.initV = false ∧ i1.lookup.valid = false)
    (h2 : i2.initV = false ∧ i2.lookup.valid = false) :
    (∀ t < t₀, (backend.out (backend.state q.reset u t) (u t)).Quiet ∧
      (0 < t → (backend.out (backend.state q.reset u t) (u t)).bboResV = false)) ∧
    (∀ o ∈ backend.trace (backend.state q.reset u t₀) (is ++ [i1, i2]), o.Quiet) ∧
    published (backend.trace (backend.state q.reset u t₀) (is ++ [i1, i2])) = announced answers := by
  refine ⟨fun t ht => ⟨hboot.quiet_before ht, fun hpos => ?_⟩, ?_⟩
  · obtain ⟨t, rfl⟩ : ∃ t', t = t' + 1 := ⟨t - 1, by omega⟩
    exact hboot.unpublished (Nat.lt_of_succ_lt ht)
  · have hidle : ∀ i ∈ [i1, i2], i.initV = false ∧ i.lookup.valid = false := by
      intro i hi
      rcases List.mem_cons.1 hi with rfl | hi
      · exact h1
      · obtain rfl := List.mem_singleton.1 hi
        exact h2
    have hlookups : (is ++ [i1, i2]).map (·.lookup) = is.map (·.lookup) ++ [i1.lookup, i2.lookup] :=
      List.map_append
    obtain ⟨hquiet, -, owed, htracking, hpub⟩ := (hboot.tracking none).run (serves_initParams hinit)
      hboot.tick (fun i hi => (List.mem_append.1 hi).elim (his i) fun hi => (hidle i hi).1)
      (by
        rw [hlookups]
        refine spacedFrom_idle hspaced fun d hd => ?_
        obtain ⟨i, hi, rfl⟩ := List.mem_map.1 (show d ∈ [i1, i2].map (·.lookup) from hd)
        exact (hidle i hi).2) hans
      (by rw [hmsgs, hlookups, List.filter_append]; simp [h1.2, h2.2])
    have hlate : 3 ≤ (afterAll 5 false ((is ++ [i1, i2]).map (·.lookup))).1 := by
      have hpos : 1 ≤ (afterAll 5 false (is.map (·.lookup))).1 := afterAll_pos (by decide)
      have hlast : ∀ m r, (afterAll m r [i1.lookup, i2.lookup]).1 = m + 2 := fun m r => by
        simp [afterAll, after, h1.2, h2.2]
      rw [hlookups, afterAll_append, hlast]
      omega
    rw [htracking.owed_nil hlate, List.append_nil] at hpub
    exact ⟨hquiet, hpub.symm⟩

end Refinement

/-! ### A run -/

/-- Registers that are all zero before reset, but for the hash registers of the order table. -/
def zeroBook : BookRegs where
  decBookUpdt := .zero
  updtIng := false
  bboResVLast := false
  l3 := OrderTable.blank 1 0
  l2 := Tables.zeroRegs
  bbo := ⟨⟨false, 0, .zero, .zero, 0, 0, false, false, false, false⟩,
    ⟨false, 0, .zero, .zero, 0, 0, false, false, false, false⟩⟩

/-- A cycle in which an order is looked up. -/
def look (d : DecBook) : BackIn := ⟨false, 0, d⟩

/-- The inputs up to the first message. -/
def bootInputs (t : ℕ) : BackIn := ⟨decide (t = 2), 100000, .zero⟩

/-- A bid for ten shares. -/
def bidMsg (type : Rtl.BookMsgType) (hasRep : Bool) (orderId : BitVec 64) (price : BitVec 32) : DecBook :=
  ⟨true, type, hasRep, orderId, true, 10, price⟩

/-- Two bids, of which the better one is replaced, as fast as the table allows. -/
def shortRun : List BackIn :=
  [bidMsg .add false 1 100100, .zero, .zero, .zero, .zero, bidMsg .add false 2 100050, .zero, .zero,
    .zero, .zero, bidMsg .delete true 1 100100, .zero, .zero, bidMsg .replace false 4 100150].map look

/-- The messages of the short run. -/
def shortMsgs : List (Ref.BookMsg × DecBook) :=
  [(.add 7 1 true 10 100100, bidMsg .add false 1 100100),
    (.add 7 2 true 10 100050, bidMsg .add false 2 100050),
    (.delete 7 1, bidMsg .delete true 1 100100), (.replace 7 4 10 100150, bidMsg .replace false 4 100150)]

theorem backend_refines_shortRun :
    published (backend.trace (backend.state zeroBook.reset bootInputs 2100)
      (shortRun ++ [look .zero, look .zero])) =
    [(some ⟨10, 100100⟩, none), (some ⟨10, 100100⟩, none), (some ⟨10, 100150⟩, none)] := by
  obtain ⟨⟨answers, om, b⟩, h⟩ := Option.isSome_iff_exists.1
    (show (serve noOrders (Book.initialised {} false 100000) shortMsgs).isSome = true from rfl)
  have hviews : (serve noOrders (Book.initialised {} false 100000) shortMsgs).map
      (fun s => announced s.1) = some [(some ⟨10, 100100⟩, none), (some ⟨10, 100100⟩, none),
        (some ⟨10, 100150⟩, none)] := rfl
  rw [h] at hviews
  obtain ⟨hans, hfst⟩ := answered_of_serve h (by decide)
  have hboot : Boots 100000 zeroBook bootInputs 2 2100 :=
    boots_of_fresh (fun _ => rfl) (by decide) (by decide) (by decide) (by decide) (by decide)
      fun _ _ => rfl
  have hpulse : ∀ i ∈ shortRun, i.initV = false := by decide
  rw [(backend_refines hboot (Book.initParams_new {} false (by decide)) hpulse (by decide) (hfst.trans rfl)
    hans ⟨rfl, rfl⟩ ⟨rfl, rfl⟩).2.2]
  exact Option.some.inj hviews

end ItchOrderBook.Pipeline
