import ItchOrderBook.Book.Lifecycle
import ItchOrderBook.Book.OrderMemory
import ItchOrderBook.Book.Refusals
import ItchOrderBook.Pipeline.OrderStage
import ItchOrderBook.Pipeline.Startup

/-!
# What the book reports of the refusals of the reference

`book` behind its order table is `backend` (`withLookup_behind`). When the reference stops at a message
that its L3 takes, with an error result, one of the errors of the price table, the halves and the glue is
raised in the cycle in which the order is looked up; an assertion that fails is not reported
(`Tracking.reports`). What is published up to then is what the reference has answered
(`reports_refusals`). As the order table looks up what L3 passes downstream, this is so for the messages to
the book (`book_reports`).
-/

namespace ItchOrderBook.Pipeline

open Book (Follows Good OrderMap Orders half l3Calls liveOrders orderMap)
open Ref (BBOHalf BBOHalfResult BookMsg BookResult DownstreamOrderMsg L3 Outcome Params)
open Rtl (BookIn BookOut BookRegs DecBook book)

/-! ### The book behind its order table -/

section Behind

variable (q : BookRegs) (v : ℕ → BookIn)

/-- The order looked up in a cycle after reset. -/
def lookupAt (t : ℕ) : DecBook := (book.state q.reset v t).lookup

/-- The inputs behind the order table. -/
def behind (t : ℕ) : BackIn := ⟨(v t).initV, (v t).initPriceBase, lookupAt q v t⟩

/-- The orders looked up in `m` cycles from cycle `t₀` on. -/
def lookedUp (t₀ m : ℕ) : List DecBook :=
  ((List.range m).map fun j => lookupAt q v (t₀ + j)).filter (·.valid)

/-- The best bids and offers published in `m` cycles from cycle `t₀` on. -/
def publishedFrom (t₀ m : ℕ) : List View :=
  (List.range m).filterMap fun j =>
    let o := book.out (book.state q.reset v (t₀ + j)) (v (t₀ + j))
    if o.bboResV then some (bboView o.bboRes) else none

/-- The order table is read for the looked-up order only. -/
theorem next_l3 {a : BookRegs} {l3 x : Rtl.L3Regs} (h : l3.lookup = a.lookup) (i : BookIn) :
    { a.next (BackIn.book ⟨i.initV, i.initPriceBase, a.lookup⟩) with l3 := x } =
      { ({ a with l3 } : BookRegs).next i with l3 := x } := by
  obtain ⟨c0, c1, lk, c3, c4⟩ := l3
  subst h
  rfl

/-- Apart from the registers of the order table, both circuits are in the same state. -/
theorem withLookup_behind (t : ℕ) : { withLookup (backend.state q.reset (behind q v) t) (lookupAt q v t) with
    l3 := (book.state q.reset v t).l3 } = book.state q.reset v t := by
  induction t with
  | zero => rfl
  | succ t ih =>
    have hstep := @next_l3 (withLookup (backend.state q.reset (behind q v) t) (lookupAt q v t))
      (book.state q.reset v t).l3 (book.state q.reset v (t + 1)).l3 rfl (v t)
    rw [ih] at hstep
    exact hstep

theorem l2_behind (t : ℕ) : (book.state q.reset v t).l2 = (backend.state q.reset (behind q v) t).l2 := by
  rw [← withLookup_behind]
  rfl

/-- The inputs of the order table. -/
def l3In (t : ℕ) : Rtl.L3In := ⟨(v t).oidHash, (v t).decBook⟩

theorem l3_state (t : ℕ) : (book.state q.reset v t).l3 = OrderTable.stateAt q.l3 (l3In v) t := by
  induction t with
  | zero => rfl
  | succ t ih =>
    have hnext : (book.state q.reset v (t + 1)).l3 = (book.state q.reset v t).l3.next (l3In v t) := rfl
    rw [hnext, ih]
    rfl

/-- Nothing is looked up in the cycle after one without a message. -/
theorem lookupAt_idle {t : ℕ} (h : (v t).decBook.valid = false) : (lookupAt q v (t + 1)).valid = false := by
  have hnext : lookupAt q v (t + 1) = ((book.state q.reset v t).l3.comb (l3In v t).decBook).lookup := rfl
  rw [hnext, OrderTable.comb_idle (i := l3In v t) h]
  exact h

/-- What is published behind the order table. -/
theorem published_behind (t₀ m : ℕ) : published (backend.trace (backend.state q.reset (behind q v) t₀)
    ((List.range m).map fun j => behind q v (t₀ + j))) = publishedFrom q v t₀ m := by
  rw [Circuit.trace_range, published, publishedFrom, List.filterMap_map]
  refine List.filterMap_congr fun j _ => ?_
  rw [Function.comp_apply, ← Circuit.state_add, ← withLookup_behind q v (t₀ + j)]
  rfl

end Behind

/-- What the circuit behind the order table tracks, the book does. -/
theorem Tracking.book {q : BookRegs} {v : ℕ → BookIn} {base n t : ℕ} {om : OrderMap} {rep : Bool}
    {owed : List View} (h : Tracking base om n rep owed (backend.state q.reset (behind q v) t)) :
    Tracking base om n rep owed (book.state q.reset v t) := by
  have hbook := (h.withLookup (lookupAt q v t)).setL3 (Rtl.book.state q.reset v t).l3
  rwa [withLookup_behind] at hbook

/-! ### The message at which the reference stops -/

section Refused

variable {base n : ℕ} {rep : Bool} {owed : List View} {q : BookRegs} {i : BookIn} {b : Ref.Book {}}
  {msg : BookMsg} {l3 : L3 {}}

theorem card_le (hk : Book.isIdeal l3.memory = false) : (orderMap l3).live.keys.card ≤ 2 ^ 14 + 8 := by
  have hsize : (1 <<< ({} : Params).l3LogAddrSize) * (1 <<< ({} : Params).l3LogLineSize) +
      ({} : Params).l3CamSize = 2 ^ 14 + 8 := rfl
  rw [← hsize]
  exact Book.card_live_le hk

/-- The orders that L3 holds after a message fit in the words of the registers. -/
theorem fits_of_ret {d : DecBook} (hg : Good false base b) (hsmall : Small (orderMap b.l3).live)
    (hm : msg.SharesPos) (h3 : b.l3.processMsg msg = (.ret (orderMsg d), l3)) :
    Fits (orderMap l3).live := by
  obtain ⟨hstep, hkind, -⟩ := Book.step_of_ret h3
  obtain ⟨hpos, hlt⟩ := orderMsg_bounds hstep hg.placed.positive hm
  exact fits_of_card (OrderMap.step_positive hstep hg.placed.positive hm) (hsmall.step hstep hpos hlt)
    (card_le (hkind.trans hg.kindL3))

/-- An insertion is not answered with an error by a half. -/
theorem not_isErr_of_isAdd {d : DecBook} (hg : Good false base b) (ha : d.isAdd = true) :
    ¬ ((shown base 2 (orderMap b.l3).live d.isBuy).processMsg {} (orderMsg d)).1.IsErr := by
  have hhalf : half b.bbo d.isBuy = shown base 2 (orderMap b.l3).live d.isBuy :=
    eq_shown (hg.window _) (hg.halves _)
  rw [← hhalf]
  intro herr
  have hadd := ((hg.half_isErr_iff (orderMsg d)).1 herr).1
  rw [isAdd_orderMsg, ha] at hadd
  cases hadd

/-- **A message that L3 takes**, when it may come: an error is raised in the cycle of its order exactly if
the reference answers with an error. -/
theorem Tracking.reports (h : Tracking base (orderMap b.l3) n rep owed q) (hg : Good false base b)
    (hsmall : Small (orderMap b.l3).live) (hbase : base % 50 = 0) (hm : msg.SharesPos)
    (h3 : b.l3.processMsg msg = (.ret (orderMsg q.lookup), l3)) (hv : q.lookup.valid = true)
    (hi : i.initV = false) (hn : 5 ≤ n ∨ (3 ≤ n ∧ rep = true ∧ q.lookup.msgType = .replace)) :
    NoError q i ↔ ¬ (b.processMsg msg).1.IsErr := by
  have hn3 : 3 ≤ n := by omega
  cases h with
  | held h hn' => omega
  | @phase s _ _ h hlast howed =>
    have hl2 := l2_error_iff (i := i) h.table.config hv
    have hdec : q.errorDecUpdt = false := (decUpdt_of_held h.held).2
    by_cases htick : (orderMsg q.lookup).price % 50 = 0
    · have hl2' : q.l2.error (q.l2In i) = false := by
        rw [← Bool.not_eq_true, hl2]
        exact not_not.2 htick
      have hstep := (Book.step_of_ret h3).1
      rw [Book.call_isErr_iff_half (by omega) hg hm h3 htick]
      by_cases hrest : s = .rest
      · subst hrest
        obtain ⟨-, hbbo⟩ := halves_message (i := i) h.signals h.halves h.placed h.calm.bboDecBook hv hstep
          hm (fits_of_ret hg hsmall hm h3) hi fun ha => h.flags (by
            rcases hn with hn | ⟨-, -, hr⟩
            · exact hn
            · rw [DecBook.isAdd, hr] at ha
              cases ha) _
        have hhalf : half b.bbo q.lookup.isBuy = shown base 2 (orderMap b.l3).live q.lookup.isBuy :=
          eq_shown (hg.window _) (hg.halves _)
        rw [← hhalf] at hbbo
        have hside : (orderMsg q.lookup).isBuy = q.lookup.isBuy := rfl
        rw [hside, ← hbbo, Bool.not_eq_true]
        exact ⟨fun h => h.bbo, fun hb => ⟨hl2', hb, hdec⟩⟩
      · -- the order behind a delete is held, and goes to the halves in the next cycle
        obtain ⟨hn', c, rfl⟩ := h.stage.eq_filled hn3 hrest
        have hr : q.lookup.msgType = .replace := by
          rcases hn with hn | ⟨-, -, hr⟩
          · omega
          · exact hr
        have hadd : (orderMsg q.lookup).msgType.isAdd = true := by
          rw [isAdd_orderMsg, DecBook.isAdd, hr]
          rfl
        refine iff_of_true ⟨hl2', bbo_error_idle h.signals (fun c _ => (h.halves c).initialized)
          h.bboDecBook_busy, hdec⟩ fun herr => ?_
        exact Bool.false_ne_true (((hg.half_isErr_iff _).1 herr).1.symm.trans hadd)
    · refine iff_of_false (fun hno => ?_) (not_not.2 ?_)
      · exact Bool.false_ne_true (hno.l2.symm.trans (hl2.2 htick))
      · exact (Book.call_isErr_iff hg.sided h3).2 (Or.inl (hg.refusedByL2_iff.2 htick))

/-- **A message that is answered with an error** is reported, whatever its shares. -/
theorem Tracking.refused (h : Tracking base (orderMap b.l3) n rep owed q) (hg : Good false base b)
    (hsmall : Small (orderMap b.l3).live) (hbase : base % 50 = 0)
    (h3 : b.l3.processMsg msg = (.ret (orderMsg q.lookup), l3)) (hv : q.lookup.valid = true)
    (hi : i.initV = false) (hn : 5 ≤ n ∨ (3 ≤ n ∧ rep = true ∧ q.lookup.msgType = .replace))
    (herr : (b.processMsg msg).1.IsErr) : ¬ NoError q i := by
  by_cases htick : (orderMsg q.lookup).price % 50 = 0
  · have hm : msg.SharesPos := Book.sharesPos_of_isErr hg h3 htick herr
    rw [h.reports hg hsmall hbase hm h3 hv hi hn]
    exact not_not.2 herr
  · intro hno
    cases h with
    | held h hn' => omega
    | phase h => exact Bool.false_ne_true (hno.l2.symm.trans ((l2_error_iff h.table.config hv).2 htick))

/-- After an insertion no refill is under way. -/
theorem Tracking.calm_next (h : Tracking base (orderMap b.l3) n rep owed q) (hn : 5 ≤ n)
    (hg : Good false base b) (hsmall : Small (orderMap b.l3).live) (hm : msg.SharesPos)
    (h3 : b.l3.processMsg msg = (.ret (orderMsg q.lookup), l3)) (ha : q.lookup.isAdd = true)
    (hv : q.lookup.valid = true) (hi : i.initV = false) : Calm (q.next i) := by
  cases h with
  | held h hn' => omega
  | @phase s _ _ h _ _ =>
    obtain rfl := h.stage.eq_rest (by omega)
    have hne : q.lookup.isAdd ≠ false := fun h => Bool.noConfusion (ha.symm.trans h)
    obtain ⟨-, s, hasks, hs, -⟩ := bbo_message h.signals h.halves h.placed h.calm.bboDecBook hv
      (Book.step_of_ret h3).1 hm (fits_of_ret hg hsmall hm h3) (not_isErr_of_isAdd hg ha) hi
      fun h => absurd h hne
    obtain rfl : s = .rest := by
      rcases hasks with - | ⟨-, h, -⟩
      · rfl
      · exact absurd h hne
    exact ⟨hs, h.calm.held_next⟩

end Refused

/-! ### The stream before it -/

/-- The stages behind L3 answer a run whatever their book has for an L3. -/
theorem answered_of_run {b b' : Ref.Book {}} {msgs : List BookMsg} {rs : List BookResult}
    {ds : List DecBook} (hk : Book.isIdeal b.l3.memory = false)
    (hrun : Book.run b msgs = some (rs, b')) (hm : ∀ msg ∈ msgs, msg.SharesPos)
    (hlook : (l3Calls {}).trace b.l3 msgs = ds.map fun d => .ret (orderMsg d))
    (hrep : ∀ d ∈ ds, d.hasRep = true → d.msgType = .delete) (x : L3 {}) :
    Answered (orderMap b.l3) { b with l3 := x } (ds.zip rs) (orderMap b'.l3) { b' with l3 := x } ∧
      (ds.zip rs).map Prod.fst = ds := by
  induction msgs generalizing b rs ds with
  | nil =>
    cases hrun
    obtain rfl : ds = [] := List.map_eq_nil_iff.1 hlook.symm
    exact ⟨.nil _ _, rfl⟩
  | cons msg msgs ih =>
    obtain ⟨r, b₁, rs', hp, hrest, rfl⟩ := Book.run_cons hrun
    cases ds with
    | nil => cases hlook
    | cons d ds =>
      obtain ⟨hout, hlook'⟩ := List.cons.inj hlook
      rcases h3 : b.l3.processMsg msg with ⟨out, l3⟩
      obtain rfl : out = .ret (orderMsg d) := (congrArg Prod.fst h3).symm.trans hout
      obtain ⟨hstep, hkind, -⟩ := Book.step_of_ret h3
      have hdown : ({ b with l3 } : Ref.Book {}).downstream (orderMsg d) = (.ret r, b₁) := by
        rw [← hp, Ref.Book.processMsg, h3]
      obtain ⟨hx, hl3⟩ := Book.downstream_l3 { b with l3 } x (orderMsg d)
      rw [hdown] at hx hl3
      have hl3' : b₁.l3 = l3 := hl3
      have hnext : (l3Calls {}).next b.l3 msg = b₁.l3 := (congrArg Prod.snd h3).trans hl3'.symm
      rw [hnext] at hlook'
      have hk' : Book.isIdeal b₁.l3.memory = false := by
        rw [hl3', hkind]
        exact hk
      obtain ⟨hans, hfst⟩ := ih hk' hrest (fun m hm' => hm m (List.mem_cons_of_mem _ hm')) hlook'
        fun e he => hrep e (List.mem_cons_of_mem _ he)
      refine ⟨.cons (hl3' ▸ hstep) (hm _ List.mem_cons_self) (card_le hk')
        (hrep d List.mem_cons_self) hx hans, ?_⟩
      rw [List.zip_cons_cons, List.map_cons, hfst]

/-- L3 takes what the book answers. -/
theorem l3_of_ret {b b' : Ref.Book {}} {msg : BookMsg} {r : BookResult}
    (h : b.processMsg msg = (.ret r, b')) : ∃ lk, b.l3.processMsg msg = (.ret lk, b'.l3) := by
  rcases h3 : b.l3.processMsg msg with ⟨lk | c | e, l3⟩
  · have hdown : ({ b with l3 } : Ref.Book {}).downstream lk = (.ret r, b') := by
      rw [← h, Ref.Book.processMsg, h3]
    have hl3 := (Book.downstream_l3 { b with l3 } b.l3 lk).2
    rw [hdown] at hl3
    exact ⟨lk, congrArg (Prod.mk _) hl3.symm⟩
  · rw [Ref.Book.processMsg, h3] at h
    cases h
  · rw [Ref.Book.processMsg, h3] at h
    cases h

/-- L3 over a run of the book. -/
theorem l3_run {b b' : Ref.Book {}} {msgs : List BookMsg} {rs : List BookResult}
    (h : Book.run b msgs = some (rs, b')) :
    (∀ o ∈ (l3Calls {}).trace b.l3 msgs, o.IsRet) ∧ (l3Calls {}).run b.l3 msgs = b'.l3 := by
  induction msgs generalizing b rs with
  | nil =>
    cases h
    exact ⟨fun o ho => absurd ho List.not_mem_nil, rfl⟩
  | cons msg msgs ih =>
    obtain ⟨r, b₁, rs', hp, hrest, -⟩ := Book.run_cons h
    obtain ⟨lk, h3⟩ := l3_of_ret hp
    have hnext : (l3Calls {}).next b.l3 msg = b₁.l3 := congrArg Prod.snd h3
    have hout : (l3Calls {}).out b.l3 msg = .ret lk := congrArg Prod.fst h3
    obtain ⟨hret, hl3⟩ := ih hrest
    rw [Circuit.trace_cons, Circuit.run_cons, hnext, hout]
    exact ⟨List.forall_mem_cons.2 ⟨⟨lk, rfl⟩, hret⟩, hl3⟩

theorem spacedFrom_append {n : ℕ} {rep : Bool} {ds es : List DecBook} :
    SpacedFrom n rep (ds ++ es) ↔
      SpacedFrom n rep ds ∧ SpacedFrom (afterAll n rep ds).1 (afterAll n rep ds).2 es := by
  induction ds generalizing n rep with
  | nil => exact ⟨fun h => ⟨trivial, h⟩, fun h => h.2⟩
  | cons d ds ih =>
    have hcons : afterAll n rep (d :: ds) = afterAll (after n rep d).1 (after n rep d).2 ds := rfl
    rw [hcons, List.cons_append, SpacedFrom, SpacedFrom, ih, and_assoc]

/-- The errors behind the order table are errors of the book. -/
theorem error_of_not_noError {q : BookRegs} {i : BookIn} (h : ¬ NoError q i) : q.error i = true := by
  by_contra hno
  rw [BookRegs.error] at hno
  simp only [Bool.or_eq_true, not_or, Bool.not_eq_true] at hno
  obtain ⟨⟨⟨⟨-, hl2⟩, hbbo⟩, -⟩, hdec⟩ := hno
  exact h ⟨hl2, hbbo, hdec⟩

/-! ### Refusals in a run -/

section Reports

variable {base n t₀ m : ℕ} {q : BookRegs} {v : ℕ → BookIn}

/-- **The book reports what the reference refuses.** Take a run of the book from reset on, with the price
table initialised and ready before the first order, in which the orders looked up are those that L3 passes
downstream and leave the table the cycles it needs. As long as the reference answers, its answers are
published, but for those to deletes with a replace behind them. If it then stops at an order with an error
result, `book_error_o` is raised in the cycle of the order; if not, then neither the price table nor the
halves nor the glue raise an error in it. -/
theorem reports_refusals (hboot : Boots base q (behind q v) n t₀) (hpulse : ∀ t, t₀ ≤ t → (v t).initV = false)
    (hspaced : Spaced ((List.range (m + 1)).map fun j => lookupAt q v (t₀ + j)))
    (hrep : ∀ d ∈ lookedUp q v t₀ m, d.hasRep = true → d.msgType = .delete) {b₀ b : Ref.Book {}}
    (hinit : (Ref.Book.new {} false).initParams base = .ok b₀) {msgs : List BookMsg} {rs : List BookResult}
    (hrun : Book.run b₀ msgs = some (rs, b)) (hm : ∀ msg ∈ msgs, msg.SharesPos)
    (hlook : (l3Calls {}).trace b₀.l3 msgs = (lookedUp q v t₀ m).map fun d => .ret (orderMsg d))
    {msg : BookMsg} (hv : (lookupAt q v (t₀ + m)).valid = true)
    (h3 : (b.l3.processMsg msg).1 = .ret (orderMsg (lookupAt q v (t₀ + m)))) :
    publishedFrom q v t₀ m = announced ((lookedUp q v t₀ m).zip rs) ∧
    ((b.processMsg msg).1.IsErr →
      (book.out (book.state q.reset v (t₀ + m)) (v (t₀ + m))).error = true) ∧
    (msg.SharesPos → ¬ (b.processMsg msg).1.IsErr →
      NoError (book.state q.reset v (t₀ + m)) (v (t₀ + m))) := by
  set is : List BackIn := (List.range m).map fun j => behind q v (t₀ + j) with his
  have hlookups : is.map (·.lookup) = (List.range m).map fun j => lookupAt q v (t₀ + j) := by
    rw [his, List.map_map]
    rfl
  obtain rfl := Book.initParams_eq hinit
  -- the run up to the order
  obtain ⟨hgood, -⟩ := Book.good_run (by have := hboot.tick; omega) (by decide)
    (Book.good_initialised {} false base) hm hrun
  obtain ⟨hans, hfst⟩ := answered_of_run rfl hrun hm hlook hrep (Book.initialised {} false base).l3
  have horders : orderMap (Book.initialised {} false base).l3 = noOrders := Book.orderMap_new {} false
  rw [horders] at hans
  rw [List.range_succ, List.map_append, ← hlookups, Spaced, spacedFrom_append] at hspaced
  obtain ⟨hspaced, hlast, -⟩ := hspaced
  obtain ⟨-, hserves, owed, htracking, hpub⟩ := (hboot.tracking none).run (serves_initParams hinit)
    hboot.tick (fun i hi => by
      obtain ⟨j, -, rfl⟩ := List.mem_map.1 hi
      exact hpulse _ (Nat.le_add_right t₀ j)) hspaced hans (by rw [hfst, hlookups]; rfl)
  -- the order
  have hn := hlast hv
  rw [his, Circuit.run_range, ← Circuit.state_add, ← his] at htracking
  have hbook := htracking.book
  have hinit' : (v (t₀ + m)).initV = false := hpulse _ (Nat.le_add_right t₀ m)
  have htick := hboot.tick
  have h3' : b.l3.processMsg msg =
      (.ret (orderMsg (book.state q.reset v (t₀ + m)).lookup), (b.l3.processMsg msg).2) := Prod.ext h3 rfl
  refine ⟨?_, fun herr => error_of_not_noError ?_, fun hpos herr => ?_⟩
  · rw [htracking.owed_nil (by omega), List.append_nil, published_behind] at hpub
    exact hpub.symm
  · exact hbook.refused hgood hserves.small htick h3' hv hinit' hn herr
  · exact (hbook.reports hgood hserves.small htick hpos h3' hv hinit' hn).2 herr

theorem Boots.calm (h : Boots base q (behind q v) n t₀) {t : ℕ} (ht : t ≤ t₀) :
    Calm (book.state q.reset v t) := by
  have hcalm := ((h.blank ht).withLookup (lookupAt q v t)).toCalm.setL3 (book.state q.reset v t).l3
  rwa [withLookup_behind] at hcalm

/-! ### The messages to the book -/

theorem lookupAt_eq (q : BookRegs) (v : ℕ → BookIn) (t : ℕ) :
    lookupAt q v t = (OrderTable.outAt q.l3 (l3In v) t).lookup := by
  rw [lookupAt, BookRegs.lookup, l3_state]
  rfl

theorem lookedUp_eq (q : BookRegs) (v : ℕ → BookIn) (t m : ℕ) :
    lookedUp q v (t + 1) m = lookedUpFrom q.l3 (l3In v) t m := by
  unfold lookedUp lookedUpFrom
  congr 1
  refine List.map_congr_left fun j _ => ?_
  rw [lookupAt_eq, Nat.add_right_comm]

theorem spacedFrom_congr {n : ℕ} {rep : Bool} {ds es : List DecBook} (h : ds.map kind = es.map kind) :
    SpacedFrom n rep ds ↔ SpacedFrom n rep es := by
  induction ds generalizing n rep es with
  | nil => rw [List.map_eq_nil_iff.1 h.symm]
  | cons d ds ih =>
    cases es with
    | nil => cases h
    | cons e es =>
      obtain ⟨hkind, h⟩ := List.cons.inj h
      have hvalid : d.valid = e.valid := congrArg Prod.fst hkind
      have htype : d.msgType = e.msgType := congrArg (fun k => k.2.1) hkind
      have hafter : after n rep d = after n rep e := by
        rw [after, after, hvalid, show d.hasRep = e.hasRep from congrArg (fun k => k.2.2) hkind]
      rw [SpacedFrom, SpacedFrom, hvalid, htype, hafter, ih h]

theorem announced_congr {ds es : List DecBook} (h : ds.map kind = es.map kind) (rs : List BookResult) :
    announced (ds.zip rs) = announced (es.zip rs) := by
  induction ds generalizing es rs with
  | nil => rw [List.map_eq_nil_iff.1 h.symm]
  | cons d ds ih =>
    cases es with
    | nil => cases h
    | cons e es =>
      cases rs with
      | nil => rfl
      | cons r rs =>
        obtain ⟨hkind, h⟩ := List.cons.inj h
        have hrep : d.hasRep = e.hasRep := congrArg (fun k => k.2.2) hkind
        have ih := ih h rs
        rw [announced, announced] at ih ⊢
        cases he : e.hasRep <;> simp [hrep, he, ih]

/-- The orders looked up are of the kinds of the messages, in order. -/
theorem kinds_lookedUp (q : BookRegs) (v : ℕ → BookIn) (t m : ℕ) :
    (lookedUp q v (t + 1) m).map kind = (sentFrom (l3In v) t m).map kind := by
  have hfilter (ds : List DecBook) : (ds.filter (·.valid)).map kind = (ds.map kind).filter (·.1) := by
    rw [List.filter_map]
    rfl
  rw [lookedUp_eq, lookedUpFrom, sentFrom, hfilter, hfilter, List.map_map, List.map_map]
  congr 1
  exact List.map_congr_left fun j _ => kind_lookup q.l3 (l3In v) (t + j)

/-- **The book reports what the reference refuses.** Take a run of the book from reset on, with the price
table initialised and both tables ready before the first message, in which the messages come as the decoder
sends them. As long as the reference answers, its answers are published, but for those to deletes with a
replace behind them. If the reference then stops at a message that its L3 takes, with an error result,
`book_error_o` is raised in the cycle in which the order is looked up; if it answers it or an assertion of
it fails, and the message has shares, then it is not. -/
theorem book_reports {l : ℕ} (hsched : OrderTable.Scheduled q.l3 (l3In v))
    (hboot : Boots base q (behind q v) n (t₀ + 1)) (hready : (book.state q.reset v t₀).ready = true)
    (hpulse : ∀ t, t₀ < t → (v t).initV = false)
    (hspaced : Spaced ((List.range (m + 1)).map fun j => (v (t₀ + j)).decBook))
    (hrep : ∀ d ∈ sentFrom (l3In v) t₀ m, d.hasRep = true → d.msgType = .delete) {b₀ b : Ref.Book {}}
    (hinit : (Ref.Book.new {} false).initParams base = .ok b₀) {rs : List BookResult}
    (hrun : Book.run b₀ ((sentFrom (l3In v) t₀ m).map (bookMsg l)) = some (rs, b))
    (hm : ∀ d ∈ sentFrom (l3In v) t₀ m, (bookMsg l d).SharesPos)
    (hv : (v (t₀ + m)).decBook.valid = true)
    (h3 : (b.l3.processMsg (bookMsg l (v (t₀ + m)).decBook)).1.IsRet) :
    publishedFrom q v (t₀ + 1) m = announced ((sentFrom (l3In v) t₀ m).zip rs) ∧
    ((b.processMsg (bookMsg l (v (t₀ + m)).decBook)).1.IsErr →
      (book.out (book.state q.reset v (t₀ + m + 1)) (v (t₀ + m + 1))).error = true) ∧
    ((bookMsg l (v (t₀ + m)).decBook).SharesPos →
      ¬ (b.processMsg (bookMsg l (v (t₀ + m)).decBook)).1.IsErr →
      (book.out (book.state q.reset v (t₀ + m + 1)) (v (t₀ + m + 1))).error = false) := by
  have ht : 2048 ≤ t₀ := by
    have hl3 : (book.state q.reset v t₀).l3.ram.rstDone = true := (Bool.and_eq_true_iff.1 hready).2
    rw [l3_state] at hl3
    exact (OrderTable.ready_iff t₀).1 hl3
  have hquiet : ∀ t < t₀, (l3In v t).decBook.valid = false := by
    intro t hlt
    have hidle : (lookupAt q v (t + 1)).valid = false := hboot.quiet (t + 1) (by omega)
    rw [lookupAt_eq] at hidle
    exact (congrArg Prod.fst (kind_lookup q.l3 (l3In v) t)).symm.trans hidle
  obtain rfl := Book.initParams_eq hinit
  -- the order table up to the message, and at it
  obtain ⟨hret, hl3⟩ := l3_run hrun
  obtain ⟨hmirrors, htrace⟩ := (mirrors_start hsched ht hquiet).run hsched ht hret
  rw [← lookedUp_eq] at htrace
  obtain ⟨lk, hlk⟩ := h3
  have hbook : Mirrors q.l3 (l3In v) b.l3 (t₀ + m) := hl3 ▸ hmirrors
  obtain ⟨-, herror, rfl, -⟩ := hbook.message hsched hv (Prod.ext hlk rfl)
  -- the stages behind it
  have hat : lookupAt q v (t₀ + 1 + m) = (OrderTable.outAt q.l3 (l3In v) (t₀ + m + 1)).lookup := by
    rw [lookupAt_eq, Nat.add_right_comm]
  have hkinds : ((List.range (m + 1)).map fun j => lookupAt q v (t₀ + 1 + j)).map kind =
      ((List.range (m + 1)).map fun j => (v (t₀ + j)).decBook).map kind := by
    rw [List.map_map, List.map_map]
    refine List.map_congr_left fun j _ => ?_
    rw [Function.comp_apply, lookupAt_eq, Nat.add_right_comm]
    exact kind_lookup q.l3 (l3In v) (t₀ + j)
  have hfst := kinds_lookedUp q v t₀ m
  have hrep' : ∀ d ∈ lookedUp q v (t₀ + 1) m, d.hasRep = true → d.msgType = .delete := by
    intro d hd hr
    have hmem : kind d ∈ (sentFrom (l3In v) t₀ m).map kind := hfst ▸ List.mem_map_of_mem hd
    obtain ⟨e, he, hkind⟩ := List.mem_map.1 hmem
    have htype : e.msgType = d.msgType := congrArg (fun k => k.2.1) hkind
    exact htype.symm.trans (hrep e he ((congrArg (fun k => k.2.2) hkind).trans hr))
  have hv' : (lookupAt q v (t₀ + 1 + m)).valid = true := by
    rw [hat]
    exact (congrArg Prod.fst (kind_lookup q.l3 (l3In v) (t₀ + m))).trans hv
  obtain ⟨hpub, hfail, hok⟩ := reports_refusals hboot hpulse ((spacedFrom_congr hkinds).2 hspaced) hrep'
    hinit hrun (List.forall_mem_map.2 hm) htrace hv' (hlk.trans (by rw [hat]))
  have hcycle : t₀ + 1 + m = t₀ + m + 1 := Nat.add_right_comm t₀ 1 m
  rw [hcycle] at hfail hok
  refine ⟨hpub.trans (announced_congr hfst rs), hfail, fun hpos herr => ?_⟩
  -- the table and the book are ready, and no message comes in the cycle
  obtain ⟨hl2, hbbo, hdec⟩ := hok hpos herr
  have hidle : (v (t₀ + m + 1)).decBook.valid = false := by
    by_contra hnext
    have := hsched.apart (t₀ + m) (t₀ + m + 1) hv (Bool.eq_true_of_not_eq_false hnext) (Nat.lt_succ_self _)
    omega
  have hl3' : (book.state q.reset v (t₀ + m + 1)).l3.error (v (t₀ + m + 1)).decBook = false := by
    rw [l3_state]
    exact herror
  have hout : (book.out (book.state q.reset v (t₀ + m + 1)) (v (t₀ + m + 1))).error =
      (book.state q.reset v (t₀ + m + 1)).error (v (t₀ + m + 1)) := rfl
  rw [hout, BookRegs.error, hl3', hl2, hbbo, hdec, BookRegs.errorReady, hidle]
  rfl

end Reports

/-! ### Scripts -/

section Scripts

variable (ds : List DecBook)

/-- A script for the order table, with the initialisation pulse in cycle 0. -/
def scripted (t : ℕ) : BookIn :=
  ⟨decide (t = 0), 100000, (OrderTable.script 1 ds t).oidHash, (OrderTable.script 1 ds t).decBook⟩

/-- The orders looked up after the sweep. -/
theorem lookupAt_scripted (k : ℕ) : lookupAt zeroBook (scripted ds) (2048 + k) =
    (Rtl.l3OrderTable.state (OrderTable.cleared 1)
      (fun t => OrderTable.script 1 ds (2048 + t)) k).lookup := by
  have hl3 : (book.state zeroBook.reset (scripted ds) (2048 + k)).l3 =
      OrderTable.stateAt (OrderTable.blank 1 0) (OrderTable.script 1 ds) (2048 + k) := l3_state _ _ _
  rw [lookupAt, BookRegs.lookup, hl3, OrderTable.script_state]

theorem boots_scripted (t₀ : ℕ) (h0 : 2049 ≤ t₀) (h1 : t₀ ≤ 2051) :
    Boots 100000 zeroBook (behind zeroBook (scripted ds)) 0 t₀ := by
  have hprice : (100000 : BitVec 32).toNat = 100000 := by decide
  refine boots_of_fresh (fun _ => rfl) hprice (by decide) (by decide) (by decide) (by omega) fun t ht => ?_
  cases t with
  | zero => rfl
  | succ t =>
    have hidle : OrderTable.script 1 ds t = ⟨1, .zero⟩ := if_neg (by omega)
    exact lookupAt_idle _ _ (congrArg (fun i => i.decBook.valid) hidle)

end Scripts

/-- A bid above the window. -/
def highBid : DecBook := bidMsg .add false 2049 202400

/-- The book is ready for the first message. -/
theorem ready_scripted (ds : List DecBook) {t : ℕ} (h0 : 2049 ≤ t) (h1 : t ≤ 2051) :
    (book.state zeroBook.reset (scripted ds) t).ready = true := by
  have hl2 : (book.state zeroBook.reset (scripted ds) t).l2.ready = true := by
    rw [l2_behind]
    exact (boots_scripted ds t h0 h1).ready
  have hl3 : (book.state zeroBook.reset (scripted ds) t).l3.ram.rstDone = true := by
    rw [l3_state]
    exact (OrderTable.ready_iff t).2 (by omega)
  rw [BookRegs.ready, hl2, hl3]
  rfl

section HighBid

theorem highBid_idle {t : ℕ} (ht : t ≠ 2050) : (OrderTable.script 1 [highBid] t).decBook.valid = false := by
  by_contra hv
  obtain ⟨k, d, rfl, hd, -⟩ := OrderTable.script_valid (by simpa using hv)
  have hk : k < 1 := (List.getElem?_eq_some_iff.1 hd).1
  omega

/-- The order table takes the bid. -/
theorem highBid_l3 (t : ℕ) :
    (OrderTable.outAt (OrderTable.blank 1 0) (OrderTable.script 1 [highBid]) t).error = false := by
  by_cases ht : t = 2050 ∨ t = 2051
  · have herrs : ∀ k < 4, (Rtl.l3OrderTable.out (Rtl.l3OrderTable.state (OrderTable.cleared 1)
        (fun t => OrderTable.script 1 [highBid] (2048 + t)) k)
        (OrderTable.script 1 [highBid] (2048 + k))).error = false := by decide +kernel
    obtain ⟨k, rfl⟩ : ∃ k, t = 2048 + k := ⟨t - 2048, by omega⟩
    rw [OrderTable.script_out]
    exact herrs k (by omega)
  · exact OrderTable.silent_of_idle (highBid_idle fun h => ht (Or.inl h)) fun n hn =>
      highBid_idle fun h => ht (Or.inr (by omega))

theorem highBid_lookup : lookupAt zeroBook (scripted [highBid]) 2051 = highBid := by
  rw [lookupAt_scripted [highBid] 3]
  decide +kernel

theorem highBid_lookup_idle {t : ℕ} (ht : t ≠ 2051) :
    (lookupAt zeroBook (scripted [highBid]) t).valid = false := by
  cases t with
  | zero => rfl
  | succ t => exact lookupAt_idle _ _ (highBid_idle fun h => ht (by rw [h]))

/-- L3 takes the bid, and L2 does not. -/
theorem highBid_stop : ((Book.initialised {} false 100000).l3.processMsg (.add 7 2049 true 10 202400)).1 =
      .ret (orderMsg highBid) ∧
    ((Book.initialised {} false 100000).processMsg (.add 7 2049 true 10 202400)).1 =
      .raise (.assertion "Bid larger than price_max, choose higher price_base.") := ⟨rfl, rfl⟩

/-- The halves take the bid. -/
theorem highBid_taken {t : ℕ} (ht : t = 2051) {i : BookIn} (hi : i.initV = false) :
    NoError (book.state zeroBook.reset (scripted [highBid]) t) i ∧
      Calm ((book.state zeroBook.reset (scripted [highBid]) t).next i) := by
  have hlook : (book.state zeroBook.reset (scripted [highBid]) t).lookup = highBid := ht ▸ highBid_lookup
  have hg := Book.good_initialised {} false 100000
  have horders : orderMap (Book.initialised {} false 100000).l3 = noOrders := Book.orderMap_new {} false
  have htracking := ((boots_scripted [highBid] t (by omega) (by omega)).tracking none).book
  have hsmall : Small (orderMap (Book.initialised {} false 100000).l3).live := horders ▸ small_empty
  have h3 : (Book.initialised {} false 100000).l3.processMsg (.add 7 2049 true 10 202400) =
      (.ret (orderMsg (book.state zeroBook.reset (scripted [highBid]) t).lookup),
        ((Book.initialised {} false 100000).l3.processMsg (.add 7 2049 true 10 202400)).2) := by
    rw [hlook]
    exact Prod.ext highBid_stop.1 rfl
  have hv : (book.state zeroBook.reset (scripted [highBid]) t).lookup.valid = true := by rw [hlook]; rfl
  have hadd : (book.state zeroBook.reset (scripted [highBid]) t).lookup.isAdd = true := by rw [hlook]; rfl
  have hpos : (BookMsg.add 7 2049 true 10 202400).SharesPos := by decide
  have hh : Tracking 100000 (orderMap (Book.initialised {} false 100000).l3) 5 false []
      (book.state zeroBook.reset (scripted [highBid]) t) := horders ▸ htracking
  refine ⟨(hh.reports hg hsmall (by decide) hpos h3 hv hi (Or.inl le_rfl)).2 ?_,
    hh.calm_next le_rfl hg hsmall hpos h3 hadd hv hi⟩
  rw [highBid_stop.2]
  exact Outcome.isErr_raise _

/-- From the cycle after the bid on no refill is under way. -/
theorem highBid_calm {t : ℕ} (ht : t = 2051) (k : ℕ) :
    Calm (book.state zeroBook.reset (scripted [highBid]) (t + 1 + k)) := by
  induction k with
  | zero => exact (highBid_taken ht (decide_eq_false (by omega))).2
  | succ k ih => exact ih.next (highBid_lookup_idle (by omega))

/-- **A failed assertion is not reported.** The reference stops at the bid above the window, and no error
is raised for it in any cycle. -/
theorem highBid_unreported : lookupAt zeroBook (scripted [highBid]) 2051 = highBid ∧
    (Ref.Book.new {} false).initParams 100000 = .ok (Book.initialised {} false 100000) ∧
    ((Book.initialised {} false 100000).l3.processMsg (.add 7 2049 true 10 202400)).1 =
      .ret (orderMsg highBid) ∧
    ((Book.initialised {} false 100000).processMsg (.add 7 2049 true 10 202400)).1 =
      .raise (.assertion "Bid larger than price_max, choose higher price_base.") ∧
    ∀ t, (book.out (book.state zeroBook.reset (scripted [highBid]) t) (scripted [highBid] t)).error = false := by
  refine ⟨highBid_lookup, Book.initParams_new {} false (by decide), highBid_stop.1, highBid_stop.2,
    fun t => ?_⟩
  have hl3 : (book.state zeroBook.reset (scripted [highBid]) t).l3.error
      (scripted [highBid] t).decBook = false := by
    rw [l3_state]
    exact highBid_l3 t
  have hready : (book.state zeroBook.reset (scripted [highBid]) t).errorReady (scripted [highBid] t) =
      false := by
    by_cases ht : t = 2050
    · rw [BookRegs.errorReady, ready_scripted [highBid] (by omega) (by omega)]
      exact Bool.and_false _
    · exact (congrArg (· && _) (highBid_idle ht)).trans (Bool.false_and _)
  have hback : NoError (book.state zeroBook.reset (scripted [highBid]) t) (scripted [highBid] t) := by
    have hinit : t ≠ 0 → (scripted [highBid] t).initV = false := fun h => decide_eq_false h
    rcases lt_trichotomy t 2051 with ht | ht | ht
    · exact ((boots_scripted [highBid] 2051 (by omega) le_rfl).calm ht.le).noError
        (highBid_lookup_idle ht.ne)
    · exact (highBid_taken ht (hinit (by omega))).1
    · obtain ⟨k, rfl⟩ : ∃ k, t = 2051 + 1 + k := ⟨t - 2052, by omega⟩
      exact (highBid_calm rfl k).noError (highBid_lookup_idle ht.ne')
  have hout : (book.out (book.state zeroBook.reset (scripted [highBid]) t) (scripted [highBid] t)).error =
      (book.state zeroBook.reset (scripted [highBid]) t).error (scripted [highBid] t) := rfl
  rw [hout, BookRegs.error, hl3, hback.l2, hback.bbo, hready, hback.decUpdt]
  rfl

end HighBid

/-- Two bids without shares below the window, one bid in it, another one below it, and the deletion of
the one in the window. -/
def noShares : List DecBook :=
  [⟨true, .add, false, 1, true, 0, 99950⟩, .zero, .zero, .zero, .zero,
    ⟨true, .add, false, 2, true, 0, 99950⟩, .zero, .zero, .zero, .zero,
    ⟨true, .add, false, 3, true, 10, 100100⟩, .zero, .zero, .zero, .zero,
    ⟨true, .add, false, 4, true, 5, 99900⟩, .zero, .zero, .zero, .zero,
    ⟨true, .delete, false, 3, true, 10, 100100⟩, .zero]

/-- The half of the reference, one message at a time. -/
def halfCalls : Circuit BBOHalf DownstreamOrderMsg (Outcome BBOHalfResult) where
  next h msg := (h.processMsg {} msg).2
  out h msg := (h.processMsg {} msg).1

/-- After orders without shares the halves differ: the one of the reference counts a level without shares
among those it shows, and the one of the RTL drops it when it is added to. The former has no level left to
show in the end, and answers with an error that the latter does not raise. -/
theorem noShares_unreported :
    (∀ o ∈ (Rtl.bboHalf true).trace ⟨true, 100000, .zero, .zero, 0, 0, false, false, false, false⟩
      (noShares.map fun d => ⟨false, 0, d, .zero⟩), o.error = false) ∧
    (halfCalls.trace (blankHalf 100000 true) ((noShares.filter (·.valid)).map orderMsg)).getLast? =
      some (.err "No shares in range for updt.") :=
  ⟨by decide, rfl⟩

/-- A bid, and six cycles later one off the tick. -/
def offTick : List DecBook :=
  [bidMsg .add false 2049 100100, { DecBook.zero with orderId := 1 }, bidMsg .add false 4097 100075]

theorem book_reports_offTick :
    publishedFrom zeroBook (scripted offTick) (2050 + 1) 6 = [(some ⟨10, 100100⟩, none)] ∧
    (book.out (book.state zeroBook.reset (scripted offTick) (2050 + 6 + 1))
      (scripted offTick (2050 + 6 + 1))).error = true := by
  have hsent : sentFrom (l3In (scripted offTick)) 2050 6 = [bidMsg .add false 2049 100100] := by
    decide +kernel
  have hmsg : (scripted offTick (2050 + 6)).decBook = bidMsg .add false 4097 100075 := by decide +kernel
  have hmsgs : (sentFrom (l3In (scripted offTick)) 2050 6).map (bookMsg 7) =
      [.add 7 2049 true 10 100100] := by
    rw [hsent]
    rfl
  have hlast : bookMsg 7 (scripted offTick (2050 + 6)).decBook = .add 7 4097 true 10 100075 := by
    rw [hmsg]
    rfl
  obtain ⟨⟨rs, b⟩, hrun⟩ := Option.isSome_iff_exists.1 (show (Book.run (Book.initialised {} false 100000)
    [.add 7 2049 true 10 100100]).isSome = true from rfl)
  have hstop : (Book.run (Book.initialised {} false 100000) [.add 7 2049 true 10 100100]).map (fun s =>
      (s.1, (s.2.l3.processMsg (.add 7 4097 true 10 100075)).1,
        (s.2.processMsg (.add 7 4097 true 10 100075)).1)) = some ([⟨some ⟨10, 100100⟩, none, none⟩],
      .ret (orderMsg (bidMsg .add false 4097 100075)),
      .err ("(L2 MSG) " ++ "Invalid price not on tick increment.")) := rfl
  rw [hrun] at hstop
  obtain ⟨hrs, hstop⟩ := Prod.mk.inj (Option.some.inj hstop)
  obtain ⟨h3, herr⟩ := Prod.mk.inj hstop
  rw [← hlast] at h3 herr
  obtain ⟨hpub, hreport, -⟩ := book_reports (OrderTable.scheduled_script (by decide))
    (boots_scripted offTick (2050 + 1) (by omega) le_rfl) (ready_scripted offTick (by omega) (by omega))
    (fun t ht => decide_eq_false (by omega)) (by decide +kernel) (by rw [hsent]; decide)
    (Book.initParams_new {} false (by decide)) (hmsgs ▸ hrun) (by rw [hsent]; decide)
    (by rw [hmsg]; rfl) ⟨_, h3⟩
  refine ⟨?_, hreport (by rw [herr]; exact Outcome.isErr_err _)⟩
  rw [hpub, hsent]
  dsimp only at hrs
  rw [hrs]
  rfl

end ItchOrderBook.Pipeline
