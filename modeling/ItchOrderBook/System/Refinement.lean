import ItchOrderBook.System.Startup

/-!
# The device refines the reference

Both are initialised with the same parameters, and the same packets come on the bus of the one and are
given to the other. `Booted.feed` says what such packets are to the modules: a stream which the parsers
decode, the control module admits and the reference book answers. `Feed.front` keeps the modules in front
of the book quiet, `Feed.handed` hands the orders of the stock to the book, `book_serves` of the pipeline
has it answer them, and `Feed.monitored` reads the answers off the interface; `device_refines` puts these
together.
-/

namespace ItchOrderBook.System

open Decode (Clear Decoded market pending)
open Gating (Quiescent Stages Stream after bookResults due gates hasResult masks sent)
open Pipeline (announced bboView bookMsg l3In publishedFrom resultView sentFrom)
open Ref (BookMsg BookResult Byte Top TopResult)
open Rtl (Axis BookRegs DecBook TopIn TopRegs book itchParser top)
open Session (Clean)

/-! ### What is asked of the packets -/

/-- The share count of the order is positive, and fits into a word of the order table. -/
def SharesFit : BookMsg → Prop
  | .add _ _ _ shares _ | .reduce _ _ shares | .replace _ _ shares _ => 1 ≤ shares ∧ shares < 2 ^ 31
  | .delete .. => True

/-- The share counts of the orders of the stock fit. -/
def OrdersFit (s : Top {}) (pkts : List (List Byte)) : Prop :=
  ∀ pkt ∈ pkts, ∀ m, HasChunk pkt m → ∀ msgs, Ref.ITCHParser.parseMsg m = .ret msgs →
    ∀ o, .book o ∈ msgs → ((Top.onPkts {}).run s pkts).stockLocate = some o.stockLocate → SharesFit o

theorem SharesFit.pos {o : BookMsg} (h : SharesFit o) : o.SharesPos := by
  cases o with
  | add l i b n p => exact h.1
  | reduce l i n => exact h.1
  | replace l i n p => exact h.1
  | delete l i => trivial

/-! ### The stream behind the packets -/

/-- Idle cycles behind a stream. -/
theorem stream_idle {s : Ref.MoldUDP64Parser} {packets : List (List (List Byte))} {cycles idle : List Axis}
    (h : Stream s packets cycles) (hidle : ∀ axis ∈ idle, axis.tvalid = false) :
    Stream s packets (cycles ++ idle) := by
  induction h with
  | idle hcycles =>
    exact .idle fun axis ha => (List.mem_append.1 ha).elim (hcycles axis) (hidle axis)
  | packet hlen hok hfr hmsgs hc h ih =>
    rw [List.append_assoc]
    exact .packet hlen hok hfr hmsgs hc ih

/-- Behind an order that is admitted the stock locate is known. -/
theorem AdmitsAll.locateV {loc : BitVec 16} {q : Rtl.ControlRegs} {ds : List Decoded}
    (h : AdmitsAll loc q ds) {d : Decoded} (hmem : d ∈ ds) (hd : isOrder d = true) :
    (ds.foldl after q).stockLocateV = true := by
  obtain ⟨pre, rest, rfl⟩ := List.append_of_mem hmem
  rw [List.foldl_append, List.foldl_cons]
  exact stockLocateV_foldl rest (stockLocateV_after _ d (h.at.order hd))

theorem Follows.locates {mkt : Rtl.Market} {sym : String} {loc : BitVec 16} {q : Rtl.ControlRegs}
    {s : Top {}} (h : Follows mkt sym loc q s) : Locates loc q := by
  intro hv
  have hs : s.stockLocate = s.ctrl.stockLocate := h.synced
  have hlocate := h.agree.stockLocate
  rw [if_pos hv, ← hs] at hlocate
  exact BitVec.eq_of_toNat_eq (h.known _ hlocate)

/-! ### A session on the bus -/

/-- From cycle `t₀` on, packets that the reference takes come on the bus, in `m₀` cycles. No message has
the type `'B'`, and the shares of the orders of the stock fit. -/
structure Fed (u : ℕ → TopIn) (t₀ m₀ : ℕ) (s : Top {}) (pkts : List (List Byte)) : Prop where
  sent : Sent pkts ((cyclesFrom u t₀ m₀).map TopIn.axis)
  idle : ∀ t, t₀ + m₀ ≤ t → (u t).axis.tvalid = false
  taken : Clean (outputs s pkts)
  noTypeB : NoTypeB pkts
  fit : OrdersFit s pkts

theorem Fed.stream {u : ℕ → TopIn} {t₀ m₀ : ℕ} {s : Top {}} {pkts : List (List Byte)}
    (h : Fed u t₀ m₀ s pkts) {np : Ref.MoldUDP64Parser} {packets : List (List (List Byte))}
    (hstream : Stream np packets ((cyclesFrom u t₀ m₀).map TopIn.axis)) (k : ℕ) :
    Stream np packets ((cyclesFrom u t₀ (m₀ + k)).map TopIn.axis) := by
  rw [cyclesFrom_add, List.map_append]
  refine stream_idle hstream fun axis ha => ?_
  rw [cyclesFrom, List.map_map] at ha
  obtain ⟨j, -, rfl⟩ := List.mem_map.1 ha
  exact h.idle _ (Nat.le_add_right _ _)

/-- A stock locate has 16 bits. -/
theorem exists_locate {s : Top {}} (h : s.stockLocate = none) (pkts : List (List Byte)) :
    ∃ loc : BitVec 16, ∀ l, ((Top.onPkts {}).run s pkts).stockLocate = some l → l = loc.toNat := by
  have hlt : ∀ l, ((Top.onPkts {}).run s pkts).stockLocate = some l → l < 2 ^ 16 :=
    kept_locate_lt.packets (fun l hl => by
      rw [h] at hl
      cases hl) pkts
  refine ⟨BitVec.ofNat 16 (((Top.onPkts {}).run s pkts).stockLocate.getD 0), fun l hl => ?_⟩
  rw [hl, Option.getD_some, BitVec.toNat_ofNat, Nat.mod_eq_of_lt (hlt l hl)]

/-- What the messages of such packets are to the modules: a stream that control admits and the reference
book answers. -/
structure Feed (q : TopRegs) (u : ℕ → TopIn) (t₀ m₀ : ℕ) (s : Top {}) (loc : BitVec 16)
    (packets : List (List (List Byte))) (results : List TopResult) : Prop where
  quiescent : Quiescent .new (top.state q u t₀)
  initV : ∀ t, t₀ ≤ t → (u t).initV = false
  idle : ∀ t, t₀ + m₀ ≤ t → (u t).axis.tvalid = false
  stream : ∀ k, Stream .new packets ((cyclesFrom u t₀ (m₀ + k)).map TopIn.axis)
  admits : ∀ loc', AdmitsAll loc (top.state q u t₀).control (sent loc' packets)
  locates : Locates loc (top.state q u t₀).control
  serves : ∃ s', Serves loc (top.state q u t₀).control s (sent loc packets) results s'
  orders : ∀ d ∈ sent loc packets, isOrder d = true → ∃ o, orderOf loc.toNat d = some o ∧ SharesFit o ∧
    (hasResult d = false → ∃ l i, o = .delete l i)

/-- **What the packets are to the modules.** -/
theorem Booted.feed {q : TopRegs} {i : TopIn} {u : ℕ → TopIn} {n t₀ m₀ base : ℕ} {sym : String}
    (h : Booted q i u n t₀ sym base) (hsym : sym.toByteArray.size = 8) {b : Bool} {s : Top {}}
    (hinit : (Top.new {} false).initParams (market (u n).initMarket) sym base = .ok (b, s))
    {pkts : List (List Byte)} (hfed : Fed u t₀ m₀ s pkts) {loc : BitVec 16}
    (hloc : ∀ l, ((Top.onPkts {}).run s pkts).stockLocate = some l → l = loc.toNat) :
    ∃ packets results, outputs s pkts = results.map .result ∧
      Feed (released q i) u t₀ m₀ s loc packets results := by
  have hn := h.after
  have hfollows := h.follows hinit loc
  obtain ⟨packets, hstream, hchunks, hserved⟩ :=
    hfollows.packets hsym hfed.sent hfed.noTypeB hfed.taken hloc
  obtain ⟨results, hout, hown⟩ := hserved loc
  rw [(Session.parsers_of_init hinit).2] at hstream
  refine ⟨packets, results, hout, h.quiescent (by have := h.late; omega), fun t ht => ?_, hfed.idle,
    hfed.stream hstream, fun loc' => ?_, hfollows.locates, ⟨_, hown.serves rfl⟩, fun d hd horder => ?_⟩
  · exact (h.pulse t).trans (decide_eq_false (by omega))
  · obtain ⟨_, -, hserved'⟩ := hserved loc'
    exact hserved'.admits
  · have hparse : ∀ m ∈ packets.flatten, (Ref.ITCHParser.parseMsg m).IsRet ∧
        Ref.chr (Decode.byteAt m 2) ≠ 'B' := fun m hm => by
      obtain ⟨hret, pkt, hpkt, hchunk⟩ := hchunks m hm
      exact ⟨hret, hfed.noTypeB pkt hpkt m hchunk⟩
    obtain ⟨m, hm, msgs, hmsgs, o, ho, hlocate, hof, hres⟩ := of_mem_sent hparse hd horder
    refine ⟨o, hof, ?_, hres⟩
    obtain ⟨-, pkt, hpkt, hchunk⟩ := hchunks m hm
    refine hfed.fit pkt hpkt m hchunk msgs hmsgs o ho ?_
    -- an order of the stock is there, so the stock locate is known
    have hv := hown.follows.locateV.1 (hown.admits.locateV hd horder)
    obtain ⟨l, hl⟩ := Option.ne_none_iff_exists'.1 hv
    rw [hl, hloc l hl, hlocate]

/-! ### The run -/

section Run

variable {q : TopRegs} {u : ℕ → TopIn} {t₀ m₀ : ℕ} {s : Top {}} {loc : BitVec 16}
  {packets : List (List (List Byte))} {results : List TopResult}

theorem Feed.initV_from (h : Feed q u t₀ m₀ s loc packets results) (m : ℕ) :
    ∀ i ∈ cyclesFrom u t₀ m, i.initV = false := by
  intro i hi
  obtain ⟨j, -, rfl⟩ := List.mem_map.1 hi
  exact h.initV _ (Nat.le_add_right t₀ j)

/-- The modules in front of the book raise no error. -/
theorem Feed.front (h : Feed q u t₀ m₀ s loc packets results) (m : ℕ) :
    top.Along FrontQuiet (top.state q u t₀) (cyclesFrom u t₀ m) := by
  have hall : top.Along FrontQuiet (top.state q u t₀) (cyclesFrom u t₀ (m₀ + m + 1)) := by
    rw [cyclesFrom_succ]
    refine front_quiet h.quiescent (h.stream m) h.admits h.locates ?_ (h.idle _ (by omega))
    rw [← cyclesFrom_succ]
    exact h.initV_from _
  rw [Nat.add_comm m₀, Nat.add_assoc, cyclesFrom_add] at hall
  exact hall.append.1

theorem Feed.fronted (h : Feed q u t₀ m₀ s loc packets results)
    (hbefore : ∀ t < t₀, (bookAt q u t).decBook.valid = false) : Fronted q u t₀ :=
  ⟨⟨_, h.quiescent⟩, h.front, hbefore⟩

/-- Two cycles behind the last word nothing is on its way in the parser. -/
theorem Feed.clear (h : Feed q u t₀ m₀ s loc packets results) (k : ℕ) :
    Clear (top.state q u (t₀ + (m₀ + 3 + k))).itch := by
  have hidle : ∀ j, (top.state q u (t₀ + m₀ + 1 + j)).mold.ipDataV = false := by
    intro j
    have hnext : (top.state q u (t₀ + m₀ + 1 + j)).mold =
        (top.state q u (t₀ + m₀ + j)).mold.next (u (t₀ + m₀ + j)).axis := by
      rw [Nat.add_right_comm]
      rfl
    rw [hnext, Rtl.MoldRegs.next, h.idle _ (by omega), if_neg Bool.false_ne_true]
    rfl
  have hrun := (Gating.itch_run (top.state q u (t₀ + m₀ + 1)) (cyclesFrom u (t₀ + m₀ + 1) (k + 2))).1
  rw [run_cyclesFrom] at hrun
  have hcycle : t₀ + (m₀ + 3 + k) = t₀ + m₀ + 1 + (k + 2) := by omega
  rw [hcycle, hrun]
  refine Decode.clear_run ?_ (Or.inr (Or.inr ?_))
  · intro x hx
    rw [Gating.itchIns, cyclesFrom, Circuit.trace_range] at hx
    obtain ⟨j, -, rfl⟩ := List.mem_map.1 hx
    rw [view_state, ← Circuit.state_add]
    exact hidle j
  · rw [Gating.itchIns, Circuit.length_trace, cyclesFrom, List.length_map, List.length_range]
    omega

/-- **By then all messages are shown.** -/
theorem Feed.shown (h : Feed q u t₀ m₀ s loc packets results) (k : ℕ) :
    Gating.shown (top.state q u t₀) (cyclesFrom u t₀ (m₀ + 3 + k)) = sent loc packets := by
  have hcycles : m₀ + 3 + k = m₀ + (2 + k) + 1 := by omega
  have hinit := h.initV_from (m₀ + (2 + k) + 1)
  rw [cyclesFrom_succ] at hinit
  have hall := shown_all h.quiescent (h.stream (2 + k)) h.admits h.locates hinit
  rw [← cyclesFrom_succ, ← hcycles, run_cyclesFrom, (h.clear k).pending, List.append_nil] at hall
  exact hall

/-- The orders that the book is handed. -/
theorem Feed.handed (h : Feed q u t₀ m₀ s loc packets results) :
    (sent loc packets).filterMap (orderOf loc.toNat) =
        (sentFrom (l3In (bookAt q u)) t₀ (m₀ + 3)).map (bookMsg loc.toNat) ∧
      (sent loc packets).filter isOrder =
        (sentFrom (l3In (bookAt q u)) t₀ (m₀ + 3)).map Decode.bookMsg := by
  rw [← h.shown 0]
  exact orders_sent q u t₀ loc.toNat (m₀ + 3)

/-- Their share counts fit, and only a delete has a replace behind it. -/
theorem Feed.order (h : Feed q u t₀ m₀ s loc packets results) {d : DecBook}
    (hd : d ∈ sentFrom (l3In (bookAt q u)) t₀ (m₀ + 3)) :
    SharesFit (bookMsg loc.toNat d) ∧ (d.hasRep = true → d.msgType = .delete) := by
  have hmem : Decode.bookMsg d ∈ (sent loc packets).filter isOrder := by
    rw [h.handed.2]
    exact List.mem_map_of_mem hd
  obtain ⟨o, ho, hfit, hres⟩ := h.orders _ (List.mem_filter.1 hmem).1 (isOrder_bookMsg d)
  obtain rfl := Option.some.inj ((orderOf_bookMsg loc.toNat d).symm.trans ho)
  refine ⟨hfit, fun hrep => ?_⟩
  rw [Gating.hasResult_bookMsg, hrep] at hres
  obtain ⟨l, i, hdel⟩ := hres rfl
  rw [bookMsg] at hdel
  cases ht : d.msgType with
  | delete => rfl
  | add =>
    rw [ht] at hdel
    cases hdel
  | reduce =>
    rw [ht] at hdel
    cases hdel
  | replace =>
    rw [ht] at hdel
    cases hdel

/-- No order is shown later. -/
theorem Feed.silent_after (h : Feed q u t₀ m₀ s loc packets results) {t : ℕ} (ht : t₀ + (m₀ + 3) ≤ t) :
    (bookAt q u t).decBook.valid = false := by
  obtain ⟨k, rfl⟩ := Nat.exists_eq_add_of_le ht
  rw [Nat.add_assoc]
  exact (h.clear k).book

/-- The share counts of the orders fit into the words of the order table. -/
theorem Feed.small (h : Feed q u t₀ m₀ s loc packets results)
    (hbefore : ∀ t < t₀, (bookAt q u t).decBook.valid = false) {t : ℕ}
    (hv : (bookAt q u t).decBook.valid = true) : (bookAt q u t).decBook.shares.toNat < 2 ^ 31 := by
  obtain ⟨j, rfl⟩ := Nat.exists_eq_add_of_le
    (not_lt.1 fun hlt => Bool.false_ne_true ((hbefore t hlt).symm.trans hv))
  have hj : j < m₀ + 3 := by
    by_contra hge
    exact Bool.false_ne_true ((h.silent_after (by omega)).symm.trans hv)
  have hmem : (bookAt q u (t₀ + j)).decBook ∈ sentFrom (l3In (bookAt q u)) t₀ (m₀ + 3) :=
    List.mem_filter.2 ⟨List.mem_map.2 ⟨j, List.mem_range.2 hj, rfl⟩, hv⟩
  have hfit := (h.order hmem).1
  rw [bookMsg] at hfit
  cases ht : (bookAt q u (t₀ + j)).decBook.msgType with
  | delete =>
    have hzero := (deletesEmpty h.quiescent j).book hv ht
    change (bookAt q u (t₀ + j)).decBook.shares = 0 at hzero
    rw [hzero]
    decide
  | add =>
    rw [ht] at hfit
    have := hfit.2
    omega
  | reduce =>
    rw [ht] at hfit
    have := hfit.2
    omega
  | replace =>
    rw [ht] at hfit
    have := hfit.2
    omega

end Run

/-! ### The results -/

theorem filterMap_of_flatMap {α β γ : Type} (v : α → Bool) (r : α → β) (f : β → γ) (l : List α) :
    (l.flatMap fun o => if v o then [r o] else []).map f =
      l.filterMap fun o => if v o then some (f (r o)) else none := by
  induction l with
  | nil => rfl
  | cons a l ih =>
    rw [List.flatMap_cons, List.map_append, ih]
    cases hv : v a with
    | false =>
      rw [List.filterMap_cons_none (by rw [hv]; rfl)]
      rfl
    | true =>
      rw [List.filterMap_cons_some (by rw [hv]; rfl)]
      rfl

section Results

variable {q : TopRegs} {u : ℕ → TopIn} {t₀ : ℕ}

/-- The monitor reads what is published. -/
theorem monitoredFrom_eq (q : TopRegs) (u : ℕ → TopIn) (t₀ m : ℕ) : monitoredFrom q u t₀ m =
    (Gating.published (top.trace (top.state q u t₀) (cyclesFrom u t₀ m))).map monitored := by
  rw [Gating.published, filterMap_of_flatMap, cyclesFrom, Circuit.trace_range, List.filterMap_map]
  refine List.filterMap_congr fun j _ => ?_
  rw [Function.comp_apply, ← Circuit.state_add]
  rfl

/-- The results of the book, as best bids and offers. -/
theorem bookResults_view {qb : BookRegs} (hq : q.book = qb.reset) (m : ℕ) :
    (bookResults (top.state q u t₀) (cyclesFrom u t₀ m)).map bboView =
      publishedFrom qb (bookAt q u) t₀ m := by
  have hflat : bookResults (top.state q u t₀) (cyclesFrom u t₀ m) = (List.range m).flatMap fun j =>
      if (top.state q u (t₀ + j)).book.bboResVLast then [(top.state q u (t₀ + j)).book.bbo.res] else [] := by
    rw [bookResults, cyclesFrom, Circuit.trace_range, ← List.flatMap_def]
    refine List.flatMap_congr fun j _ => ?_
    rw [view_state, ← Circuit.state_add]
    rfl
  rw [hflat, filterMap_of_flatMap, publishedFrom]
  refine List.filterMap_congr fun j _ => ?_
  rw [book_state hq]
  rfl

/-- The spread of a result of the book is that of its prices. -/
theorem bookResults_spread (q : TopRegs) (cycles : List TopIn) :
    ∀ b ∈ bookResults q cycles, b.spread = b.offPrice - b.bidPrice := by
  intro b hb
  induction cycles generalizing q with
  | nil => exact absurd hb List.not_mem_nil
  | cons i cycles ih =>
    have hcons : bookResults q (i :: cycles) =
        (if q.book.bboResVLast then [q.book.bbo.res] else []) ++ bookResults (q.next i) cycles := rfl
    rw [hcons, List.mem_append] at hb
    rcases hb with hb | hb
    · split_ifs at hb
      · rw [List.mem_singleton.1 hb]
        rfl
      · exact absurd hb List.not_mem_nil
    · exact ih _ hb

/-- Nothing is published in a cycle without a result. -/
theorem publishedFrom_succ {qb : BookRegs} {v : ℕ → Rtl.BookIn} {t : ℕ}
    (h : (book.state qb.reset v t).bboResVLast = false) (m : ℕ) :
    publishedFrom qb v t (m + 1) = publishedFrom qb v (t + 1) m := by
  have hnone : ∀ f : ℕ → Option Pipeline.View, f 0 = none →
      (List.range (m + 1)).filterMap f = (List.range m).filterMap fun j => f (j + 1) := fun f hf => by
    rw [List.range_succ_eq_map, List.filterMap_cons_none hf, List.filterMap_map]
    rfl
  have hquiet : ¬ (book.state qb.reset v t).bboResVLast = true := by
    rw [h]
    exact Bool.false_ne_true
  rw [publishedFrom, hnone _ (if_neg hquiet), publishedFrom]
  refine List.filterMap_congr fun j _ => ?_
  rw [Nat.add_comm j 1, ← Nat.add_assoc]

/-- What is announced of the answers to the orders are their results. -/
theorem announced_eq {ds : List Decoded} {orders : List DecBook} {rs : List BookResult}
    (h : ds.filter isOrder = orders.map Decode.bookMsg) :
    announced (orders.zip rs) = (answers ds rs).map resultView := by
  rw [announced, answers, h, List.zip_map_left, List.filter_map, List.map_map, List.map_map]
  refine congrArg _ (List.filter_congr fun p _ => ?_)
  rw [Function.comp_apply, Prod.map_fst, Gating.hasResult_bookMsg]

end Results

theorem mem_answers {ds : List Decoded} {rs : List BookResult} {r : BookResult} (h : r ∈ answers ds rs) :
    r ∈ rs := by
  obtain ⟨p, hp, rfl⟩ := List.mem_map.1 h
  exact (List.of_mem_zip (List.mem_filter.1 hp).1).2

/-- **The results that the monitor reads**, if the book publishes the answers. -/
theorem Feed.monitored {q : TopRegs} {u : ℕ → TopIn} {t₀ m₀ k : ℕ} {s : Top {}} {loc : BitVec 16}
    {packets : List (List (List Byte))} {results : List TopResult}
    (h : Feed q u t₀ m₀ s loc packets results) {qb : BookRegs} (hq : q.book = qb.reset)
    (hquiet : ∀ t, (top.out (top.state q u t) (u t)).error = false) {rs : List BookResult}
    (hspread : ∀ r ∈ rs, SpreadOk r)
    (hlen : (answers (sent loc packets) rs).length =
      (gates (top.state q u t₀).control (sent loc packets)).length)
    (hpub : publishedFrom qb (bookAt q u) (t₀ + 1) (m₀ + 3 + 2 + k) =
      announced ((sentFrom (l3In (bookAt q u)) t₀ (m₀ + 3)).zip rs)) :
    monitoredFrom q u t₀ (m₀ + 7 + k) = List.zipWith maskResult
      (gates (top.state q u t₀).control (sent loc packets)) (answers (sent loc packets) rs) := by
  have hcycles : m₀ + 7 + k = m₀ + 6 + k + 1 := by omega
  obtain ⟨hmasked, hmasks⟩ := Gating.published_eq (top.state q u t₀) (cyclesFrom u t₀ (m₀ + 6 + k))
    (u (t₀ + (m₀ + 6 + k)))
  rw [monitoredFrom_eq, hcycles, cyclesFrom_succ, hmasked, h.quiescent.published,
    if_neg Bool.false_ne_true, List.nil_append]
  -- the book
  have hview : (bookResults (top.state q u t₀) (cyclesFrom u t₀ (m₀ + 6 + k))).map bboView =
      (answers (sent loc packets) rs).map resultView := by
    have hres : (book.state qb.reset (bookAt q u) t₀).bboResVLast = false := by
      rw [← book_state hq]
      exact h.quiescent.result
    have hsucc : m₀ + 6 + k = m₀ + 3 + 2 + k + 1 := by omega
    rw [bookResults_view hq, hsucc, publishedFrom_succ hres, hpub]
    exact announced_eq h.handed.2
  -- the masks
  have herr : Gating.ErrorFree (top.state q u t₀) (cyclesFrom u t₀ (m₀ + 6 + k)) := by
    intro o ho
    rw [cyclesFrom, Circuit.trace_range] at ho
    obtain ⟨j, -, rfl⟩ := List.mem_map.1 ho
    rw [← Circuit.state_add]
    exact hquiet _
  have hrun := Gating.masks_run h.quiescent.stages herr (h.initV_from _)
  have hshown := h.shown (3 + k)
  rw [show m₀ + 3 + (3 + k) = m₀ + 6 + k by omega] at hshown
  rw [h.quiescent.due, List.nil_append, hshown] at hrun
  have hdue : (due (top.run (top.state q u t₀) (cyclesFrom u t₀ (m₀ + 6 + k)))) = [] := by
    have hl := congrArg List.length hrun
    have hv := congrArg List.length hview
    rw [List.length_append] at hl
    rw [List.length_map, List.length_map] at hv
    refine List.length_eq_zero_iff.1 ?_
    omega
  rw [hdue, List.append_nil] at hrun
  rw [← hrun]
  exact monitored_masks hview (bookResults_spread _ _) fun r hr => hspread r (mem_answers hr)

/-! ### The refinement -/

section Booted

variable {q : TopRegs} {i : TopIn} {u : ℕ → TopIn} {n t₀ m₀ base : ℕ} {sym : String} {s : Top {}}
  {loc : BitVec 16} {packets : List (List (List Byte))} {results : List TopResult}

/-- **The book answers the orders** as that of the reference does. -/
theorem Booted.answered (h : Booted q i u n t₀ sym base) (hfits : base + 50 * 2047 < 2 ^ 32)
    (hbook : (Ref.Book.new {} false).initParams base = .ok s.book)
    (hfeed : Feed (released q i) u t₀ m₀ s loc packets results) {rs : List BookResult} {b : Ref.Book {}}
    (hrun : Book.run s.book ((sent loc packets).filterMap (orderOf loc.toNat)) = some (rs, b)) :
    (∀ t, (top.state (released q i) u t).book.error (bookAt (released q i) u t) = false) ∧
      ∀ k, publishedFrom (q.reset.next i).book (bookAt (released q i) u) (t₀ + 1) (m₀ + 3 + 2 + k) =
        announced ((sentFrom (l3In (bookAt (released q i) u)) t₀ (m₀ + 3)).zip rs) := by
  have hbefore : ∀ t < t₀, (bookAt (released q i) u t).decBook.valid = false := fun t ht =>
    (h.drained ht.le).book
  have hfront := hfeed.fronted hbefore
  rw [hfeed.handed.1] at hrun
  have hready : (book.state (q.reset.next i).book.reset (bookAt (released q i) u) t₀).ready = true := by
    rw [← h.book_state]
    exact h.ready
  have htick : base % 50 = 0 := by
    have := Book.tick_of_initParams hbook
    omega
  obtain ⟨herror, hpublished⟩ := Pipeline.book_serves
    (scheduled hfront (q.reset.next i).book (by have := h.late; omega) fun t => hfeed.small hbefore)
    (h.boots htick hfits) hready (fun t ht => hfeed.initV t ht.le) (spaced hfront (m₀ + 3))
    (fun d hd => (hfeed.order hd).2) (fun t ht => hfeed.silent_after ht) hbook hrun
    fun d hd => (hfeed.order hd).1.pos
  refine ⟨fun t => ?_, hpublished⟩
  rw [h.book_state]
  exact herror t

/-- **The device raises no error.** -/
theorem Booted.quiet (h : Booted q i u n t₀ sym base) (hfits : base + 50 * 2047 < 2 ^ 32)
    (hbook : (Ref.Book.new {} false).initParams base = .ok s.book)
    (hfeed : Feed (released q i) u t₀ m₀ s loc packets results) (t : ℕ) :
    (top.out (top.state (released q i) u t) (u t)).error = false := by
  obtain ⟨s', rs, hrun, -⟩ := hfeed.serves
  have herror := (h.answered hfits hbook hfeed hrun).1 t
  have hfront : FrontQuiet (top.state (released q i) u t) (u t) := by
    rcases lt_or_ge t t₀ with hlt | hge
    · exact h.front hlt
    · obtain ⟨j, rfl⟩ := Nat.exists_eq_add_of_le hge
      exact along_at (hfeed.front (j + 1)) (Nat.lt_succ_self j)
  rw [bookAt] at herror
  change TopRegs.errorOut _ _ = false
  rw [TopRegs.errorOut, hfront.mold, hfront.control, herror]
  change (false || ((top.state (released q i) u t).itch.comb
    (top.state (released q i) u t).itchIn).ipError || false || false) = false
  rw [hfront.itch]
  rfl

/-- **The monitor reads the results**, seven cycles behind the last word at the latest. -/
theorem Booted.monitored (h : Booted q i u n t₀ sym base) (hfits : base + 50 * 2047 < 2 ^ 32)
    (hbook : (Ref.Book.new {} false).initParams base = .ok s.book)
    (hfeed : Feed (released q i) u t₀ m₀ s loc packets results) {m : ℕ} (hm : m₀ + 7 ≤ m) :
    monitoredFrom (released q i) u t₀ m = results := by
  obtain ⟨k, rfl⟩ := Nat.exists_eq_add_of_le hm
  obtain ⟨s', rs, hrun, hlen, hans, rfl⟩ := hfeed.serves
  exact hfeed.monitored rfl (h.quiet hfits hbook hfeed) (spread_run hrun) hans
    ((h.answered hfits hbook hfeed hrun).2 k)

end Booted

/-- **The device refines the reference.** Reset the device and the reference, initialise both with the
same parameters, wait for `book_ready_o`, and send packets that the reference takes without an error result
or an exception, with idle cycles anywhere. The stock symbol has eight bytes, the price window is below
`2 ^ 32`, and the fill counter of the price table, which reset does not clear, has not wrapped around before
the parameters come (`Booted.fresh`); the other registers may hold anything before reset. If no message has
the type `'B'` and the orders of the stock are for `1` to `2 ^ 31 - 1` shares, then `error_o` stays low in
every cycle from the release of reset on, and the monitor reads exactly the results of the reference, in
order, seven cycles behind the last word at the latest. -/
theorem device_refines {q : TopRegs} {i : TopIn} {u : ℕ → TopIn} {n t₀ m₀ base : ℕ} {sym : String}
    (hboot : Booted q i u n t₀ sym base) (hsym : sym.toByteArray.size = 8)
    (hfits : base + 50 * 2047 < 2 ^ 32) {b : Bool} {s : Top {}}
    (hinit : (Top.new {} false).initParams (market (u n).initMarket) sym base = .ok (b, s))
    {pkts : List (List Byte)} (hfed : Fed u t₀ m₀ s pkts) :
    (∀ t, (top.out (top.state (released q i) u t) (u t)).error = false) ∧
      ∀ m, m₀ + 7 ≤ m → (monitoredFrom (released q i) u t₀ m).map .result = outputs s pkts := by
  obtain ⟨-, hbook, -, hlocate⟩ := initParams_ok hinit
  obtain ⟨loc, hloc⟩ := exists_locate hlocate pkts
  obtain ⟨packets, results, hout, hfeed⟩ := hboot.feed hsym hinit hfed hloc
  refine ⟨hboot.quiet hfits hbook hfeed, fun m hm => ?_⟩
  rw [hout, hboot.monitored hfits hbook hfeed hm]

/-! ### A session on the bus of the device -/

/-- The words of the packets, with an idle cycle behind each packet. -/
def spacedBeats (pkts : List (List Byte)) : List Axis :=
  pkts.flatMap fun pkt => Framing.beats pkt ++ [Gating.idleBeat]

theorem sent_spacedBeats {pkts : List (List Byte)} (h : ∀ pkt ∈ pkts, pkt ≠ []) :
    Sent pkts (spacedBeats pkts) := by
  induction pkts with
  | nil => exact .idle fun axis ha => absurd ha List.not_mem_nil
  | cons pkt pkts ih =>
    obtain ⟨hpkt, hpkts⟩ := List.forall_mem_cons.1 h
    rw [spacedBeats, List.flatMap_cons]
    refine .packet ?_ (ih hpkts)
    have hc := Framing.carries_beats hpkt
    have hidle : [Gating.idleBeat].filter (fun axis => axis.tvalid) = [] := rfl
    rw [List.filter_append, hc.filter_tvalid, hidle, List.append_nil]
    exact hc

/-- The parameters are given in cycle 1, and the packets are sent from cycle `t₀` on. -/
def exampleInputs (pkts : List (List Byte)) (t₀ t : ℕ) : TopIn where
  initV := decide (t = 1)
  initMarket := .b
  initStockSymbol := Decode.symbolBits "EXAMPLE1"
  initPriceBase := 10000
  axis := if t < t₀ then Gating.idleBeat else (spacedBeats pkts).getD (t - t₀) Gating.idleBeat

theorem cyclesFrom_exampleInputs (pkts : List (List Byte)) (t₀ : ℕ) {m : ℕ}
    (hm : m ≤ (spacedBeats pkts).length) :
    (cyclesFrom (exampleInputs pkts t₀) t₀ m).map TopIn.axis = (spacedBeats pkts).take m := by
  refine List.ext_getElem ?_ fun j hj hj' => ?_
  · simp [cyclesFrom, hm]
  · have hlt : j < (spacedBeats pkts).length := by
      rw [List.length_take] at hj'
      omega
    simp [cyclesFrom, exampleInputs, hlt]

theorem booted_example (pkts : List (List Byte)) {t₀ : ℕ} (ht₀ : t₀ = 2050) :
    Booted Gating.exampleRegs (Gating.topCycle Gating.idleBeat) (exampleInputs pkts t₀) 1 t₀
      "EXAMPLE1" 10000 := by
  have hfresh : Tables.Fresh (Gating.exampleRegs.reset.next (Gating.topCycle Gating.idleBeat)).book.l2.lut 1 := by
    decide +kernel
  refine ⟨fun _ => rfl, rfl, rfl, fun t ht => ?_, by omega, ?_, hfresh⟩
  · rw [exampleInputs, if_pos ht]
    rfl
  · exact (bookReady_iff (fun _ => rfl) hfresh t₀).2 (by omega)

theorem fed_example (t₀ : ℕ) : Fed (exampleInputs examplePkts t₀) t₀ (spacedBeats examplePkts).length
    Session.exampleTop examplePkts := by
  have hne : ∀ pkt ∈ examplePkts, pkt ≠ [] := by decide +kernel
  have htypes : ∀ m ∈ sessionMsgs, Ref.chr (Decode.byteAt m 2) ≠ 'B' := by decide +kernel
  refine ⟨?_, fun t ht => ?_, ?_, fun pkt hpkt m hm => htypes m (hasChunk_example hpkt hm),
    fun pkt hpkt m hm msgs hmsgs o ho _ => ?_⟩
  · rw [cyclesFrom_exampleInputs _ _ le_rfl, List.take_length]
    exact sent_spacedBeats hne
  · have hlt : ¬ t < t₀ := by omega
    rw [exampleInputs, if_neg hlt, List.getD_eq_getElem?_getD, List.getElem?_eq_none (by omega)]
    rfl
  · rw [outputs_example]
    exact clean_exampleResults
  · have hmem := orders_example hpkt hm hmsgs ho
    simp only [exampleOrders, List.mem_cons, List.not_mem_nil, or_false] at hmem
    rcases hmem with rfl | rfl | rfl | rfl | rfl | rfl <;> simp [SharesFit]

/-- The monitor reads the results of the session. -/
theorem device_refines_example :
    (∀ t, (top.out (top.state (released Gating.exampleRegs (Gating.topCycle Gating.idleBeat))
      (exampleInputs examplePkts 2050) t) (exampleInputs examplePkts 2050 t)).error = false) ∧
    ∀ m, (spacedBeats examplePkts).length + 7 ≤ m →
      (monitoredFrom (released Gating.exampleRegs (Gating.topCycle Gating.idleBeat))
        (exampleInputs examplePkts 2050) 2050 m).map Ref.TopOut.result = exampleResults := by
  have hrefines := device_refines (booted_example examplePkts rfl) (by decide +kernel) (by decide)
    Session.exampleTop_init (fed_example 2050)
  rw [outputs_example] at hrefines
  exact hrefines

end ItchOrderBook.System
