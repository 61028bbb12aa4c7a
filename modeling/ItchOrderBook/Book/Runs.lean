import ItchOrderBook.Book.Invariant

/-!
# Runs of the reference book

From an initialised book, a run of answered messages ends in a good book (`good_run`). Read in the
terms of the source this is the consistency of all its stores (`consistent_run`), and, since the
answers of a good book are the quotes of its live orders, the agreement of the ideal and the
size-limited model on every run that the latter answers (`ideal_run_agrees`).
-/

namespace ItchOrderBook.Book

open Ref

variable {cfg : Params} {ideal : Bool} {base : ℤ}

/-- The results of a run of messages, all of them answered, and the book after it. -/
def run (b : Book cfg) : List BookMsg → Option (List BookResult × Book cfg)
  | [] => some ([], b)
  | msg :: msgs =>
    match b.processMsg msg with
    | (.ret r, b') => (run b' msgs).map fun out => (r :: out.1, out.2)
    | _ => none

/-- The live orders of a book, `dict(L3.memory)`. -/
def liveOrders (b : Book cfg) : Orders := b.l3.memory.toDict

/-- The stores of a book hold what they should of its live orders. -/
structure Consistent (ideal : Bool) (base : ℤ) (b : Book cfg) : Prop where
  entries : ∀ c, (half b.bbo c).entries = (bookSide (liveOrders b) c).take cfg.bboDepth
  outside : ∀ c, (half b.bbo c).outsideShares =
    (((bookSide (liveOrders b) c).drop cfg.bboDepth).map BBOEntry.shares).sum
  outsideInRange : ∀ c, (half b.bbo c).outsideSharesInRange =
    ((((bookSide (liveOrders b) c).drop cfg.bboDepth).filter
      fun e => covered cfg ideal base e.price).map BBOEntry.shares).sum
  levels : ∀ c p, p ∈ b.l2.levels c ↔ covered cfg ideal base p ∧
    ∃ i e, (liveOrders b).lookup i = some e ∧ e.isBuy = c ∧ e.price = p
  memory : ∀ p, p % 50 = 0 → covered cfg ideal base p →
    b.l2.memory.contains p = .ok (decide (sharesAt (liveOrders b) p ≠ 0)) ∧
    (sharesAt (liveOrders b) p ≠ 0 → b.l2.memory.getItem p = .ok (sharesAt (liveOrders b) p))

theorem volume_eq_sum_shares (l : List (ℤ × ℤ)) :
    volume l = ((l.map toEntry).map BBOEntry.shares).sum := by
  rw [List.map_map]
  rfl

/-- A good book is consistent. -/
theorem Good.consistent {b : Book cfg} (hg : Good ideal base b) : Consistent ideal base b where
  entries c := by
    rw [(hg.halves c).entries, bookSide, List.map_take]
    rfl
  outside c := by
    rw [(hg.halves c).outside, volume_eq_sum_shares, List.map_drop]
    rfl
  outsideInRange c := by
    rw [(hg.halves c).inRange, volumeIn, volume_eq_sum_shares]
    congr 2
    rw [bookSide, ← List.map_drop, List.filter_map]
    congr 1
    refine List.filter_congr fun x hx => ?_
    exact (hg.window c).inRange_eq hg.placed (mem_levelPrices_of_ladder (List.mem_of_mem_drop hx))
  levels c p := by
    rw [hg.tracks.levels, Finset.mem_filter, hg.kindL2, mem_levelPrices, and_comm]
    rfl
  memory p hp hc := by
    have hc' : covered cfg (isIdealL2 b.l2.memory) base p := by
      rw [hg.tracks.kind, hg.kindL2]
      exact hc
    exact ⟨hg.tracks.memory.contains hp hc' (sharesAt_nonneg hg.placed.positive p),
      hg.tracks.memory.getItem hp hc'⟩

theorem levelShares_empty (c : Bool) (p : ℤ) : levelShares ∅ c p = 0 := tally_empty _

theorem levelPrices_empty (c : Bool) : levelPrices ∅ c = ∅ := rfl

theorem ladder_empty (c : Bool) : ladder ∅ c = [] := by
  unfold ladder sortPrices ascending descending
  rw [levelPrices_empty, Finset.sort_empty, Finset.sort_empty, ite_self]
  rfl

theorem live_new (cfg : Params) (ideal : Bool) : (orderMap (L3.new cfg ideal)).live = ∅ := by
  cases ideal
  · exact toDict_empty
  · rfl

theorem orderMap_new (cfg : Params) (ideal : Bool) : orderMap (L3.new cfg ideal) = ⟨∅, none⟩ := by
  rw [← live_new cfg ideal]
  rfl

/-! ### The initialised book -/

/-- A new book after `init_params`. -/
def initialised (cfg : Params) (ideal : Bool) (base : ℤ) : Book cfg where
  l3 := L3.new cfg ideal
  l2 :=
    { initialized := true
      priceBase := base
      priceMax := windowMax cfg base
      ideal
      memory := if ideal then .ideal ∅ else .hw ⟨true, base, fun _ => 0, windowLut cfg base⟩
      bids := ∅
      offs := ∅ }
  bbo := (BBO.new ideal).initParams cfg base

theorem initParams_new (cfg : Params) (ideal : Bool) (hbase : base % 50 = 0) :
    (Book.new cfg ideal).initParams base = .ok (initialised cfg ideal base) := by
  cases ideal with
  | false =>
    have hm := (@memory_initParams cfg base _).2 ⟨hbase, rfl⟩
    simp only [Book.initParams, Book.new, L2.initParams, L2.new, hm, Bool.false_eq_true, if_false]
    rfl
  | true => rfl

/-- A new book whose parameters were set is the initialised book. -/
theorem initParams_eq {b : Book cfg} (h : (Book.new cfg ideal).initParams base = .ok b) :
    b = initialised cfg ideal base := by
  cases ideal with
  | false =>
    cases hm : (L2Memory.empty : L2Memory cfg).initParams base with
    | error e =>
      simp only [Book.initParams, Book.new, L2.initParams, L2.new, hm, Bool.false_eq_true,
        if_false] at h
      cases h
    | ok m =>
      rw [initParams_new cfg false (memory_initParams.1 hm).1] at h
      exact (Except.ok.inj h).symm
  | true => exact (Except.ok.inj h).symm

theorem placed_empty : Placed cfg ideal base ∅ where
  positive i e he := by cases he
  tick i e he := by cases he
  inside i e he := by cases he
  uncrossed p hp := by cases hp

theorem halfAt_empty {h : BBOHalf} (k : ℕ) (h1 : h.entries = []) (h2 : h.outsideShares = 0)
    (h3 : h.outsideSharesInRange = 0) : HalfAt k h [] :=
  ⟨by simp [h1], by simp [h2], by simp [h3]⟩

/-- An initialised book is good. -/
theorem good_initialised (cfg : Params) (ideal : Bool) (base : ℤ) :
    Good ideal base (initialised cfg ideal base) := by
  have hlive : (orderMap (initialised cfg ideal base).l3).live = ∅ := live_new cfg ideal
  refine ⟨by cases ideal <;> rfl, rfl, ?_, ⟨rfl, rfl, rfl, by cases ideal <;> rfl, ?_, ?_⟩, ?_, ?_, ?_⟩
  · rw [hlive]
    exact placed_empty
  · rw [hlive]
    intro c
    rw [levelPrices_empty, Finset.filter_empty]
    cases c <;> rfl
  · rw [hlive]
    cases ideal
    · exact fun p _ _ => rfl
    · exact fun p => rfl
  · intro c
    cases c <;> exact ⟨rfl, rfl, rfl⟩
  · intro c
    rw [hlive, ladder_empty]
    cases c <;> exact halfAt_empty _ rfl rfl rfl
  · intro c
    rw [hlive, top_eq, ladder_empty]
    cases c <;> rfl

/-! ### Runs -/

section Runs

variable {b : Book cfg} {msgs : List BookMsg} {rs : List BookResult}

theorem run_cons {msg : BookMsg} {out : List BookResult × Book cfg}
    (h : run b (msg :: msgs) = some out) :
    ∃ r b' rs, b.processMsg msg = (.ret r, b') ∧ run b' msgs = some (rs, out.2) ∧
      out.1 = r :: rs := by
  rw [run] at h
  split at h
  · rename_i r b' hp
    obtain ⟨⟨rs, b''⟩, hr, rfl⟩ := Option.map_eq_some_iff.1 h
    exact ⟨r, b', rs, hp, hr, rfl⟩
  · cases h

/-- A step of a good book that is answered. -/
theorem good_step (hbase : base % 50 = 0) (hn : 2 ≤ cfg.bboDepth) (hg : Good ideal base b)
    {msg : BookMsg} (hm : msg.SharesPos) {r : BookResult} {b' : Book cfg}
    (hp : b.processMsg msg = (.ret r, b')) :
    r = quote (liveOrders b') ∧ Good ideal base b' ∧
      ∃ lk, (orderMap b.l3).step msg = some (lk, orderMap b'.l3) ∧ lk.price % 50 = 0 := by
  rcases book_processMsg hbase hn hg hm with ⟨b₁, lk, h, hg', hs, ht⟩ | ⟨h, -⟩
  · rw [hp] at h
    cases h
    exact ⟨rfl, hg', lk, hs, ht⟩
  · rw [hp] at h
    rcases h with ⟨c, h⟩ | ⟨e, h, -⟩ <;> cases h

/-- **Runs keep the book good.** -/
theorem good_run (hbase : base % 50 = 0) (hn : 2 ≤ cfg.bboDepth) (hg : Good ideal base b)
    (hm : ∀ m ∈ msgs, m.SharesPos) {b' : Book cfg} (h : run b msgs = some (rs, b')) :
    Good ideal base b' ∧ ∀ r, rs.getLast? = some r → r = quote (liveOrders b') := by
  induction msgs generalizing b rs with
  | nil =>
    cases h
    exact ⟨hg, fun r hr => by cases hr⟩
  | cons msg msgs ih =>
    obtain ⟨r, b₁, rs', hp, hrun, hrs⟩ := run_cons h
    obtain ⟨hr, hg₁, -⟩ := good_step hbase hn hg (hm msg List.mem_cons_self) hp
    obtain ⟨hg', hlast⟩ := ih hg₁ (fun m hm' => hm m (List.mem_cons_of_mem _ hm')) hrun
    refine ⟨hg', fun r' hr' => ?_⟩
    dsimp only at hrs
    rw [hrs] at hr'
    cases rs' with
    | nil =>
      cases msgs with
      | nil => cases hrun; cases hr'; exact hr
      | cons msg' msgs =>
        obtain ⟨_, _, _, _, _, hcons⟩ := run_cons hrun
        cases hcons
    | cons r₁ rs' =>
      rw [List.getLast?_cons_cons] at hr'
      exact hlast r' hr'

/-- **The book stays consistent.** After any run of answered messages from an initialised book the
stores hold what they should of the live orders, the last answer shows the best levels, and the
next message meets no assertion but an external one. -/
theorem consistent_run (hn : 2 ≤ cfg.bboDepth) (ideal : Bool) (hbase : base % 50 = 0)
    {b₀ : Book cfg} (hinit : (Book.new cfg ideal).initParams base = .ok b₀)
    (hm : ∀ m ∈ msgs, m.SharesPos) (hrun : run b₀ msgs = some (rs, b)) :
    Consistent ideal base b ∧
    (∀ r, rs.getLast? = some r → r.bidEntry = (bookSide (liveOrders b) true).head? ∧
      r.offEntry = (bookSide (liveOrders b) false).head?) ∧
    ∀ msg : BookMsg, msg.SharesPos → ∀ e, (b.processMsg msg).1 = .raise e → ExternalRaise e := by
  obtain rfl := initParams_eq hinit
  obtain ⟨hg, hlast⟩ := good_run hbase hn (good_initialised cfg ideal base) hm hrun
  refine ⟨hg.consistent, fun r hr => ?_, fun msg hmsg e he => ?_⟩
  · rw [hlast r hr]
    exact ⟨rfl, rfl⟩
  · rcases book_processMsg hbase hn hg hmsg with ⟨b', lk, h, -⟩ | ⟨⟨c, h⟩ | ⟨e', h, hext⟩, -⟩
    · rw [h] at he
      cases he
    · rw [h] at he
      cases he
    · rw [h] at he
      cases he
      exact hext

/-- Two orders rest, one is reduced and then replaced on the way below the window. -/
def shortDay : List BookMsg :=
  [.add 7 1 true 10 100, .add 7 2 false 5 150, .reduce 7 1 4, .delete 7 1, .replace 7 4 8 50]

theorem consistent_run_shortDay :
    ∃ rs b, run (initialised {} false 100) shortDay = some (rs, b) ∧ Consistent false 100 b := by
  obtain ⟨⟨rs, b⟩, h⟩ := Option.isSome_iff_exists.1
    (show (run (initialised {} false 100) shortDay).isSome = true from rfl)
  exact ⟨rs, b, h, (consistent_run (by decide) false (by decide) (initParams_new {} false (by decide))
    (by decide) h).1⟩

/-- A run of the size-limited book is matched, answer by answer, by an ideal book of the same live
orders. -/
theorem run_ideal {b' bi : Book cfg} (hbase : base % 50 = 0) (hn : 2 ≤ cfg.bboDepth)
    (hg : Good false base b) (hgi : Good true base bi) (hom : orderMap b.l3 = orderMap bi.l3)
    (hm : ∀ m ∈ msgs, m.SharesPos) (h : run b msgs = some (rs, b')) :
    ∃ bi', run bi msgs = some (rs, bi') := by
  induction msgs generalizing b bi rs with
  | nil =>
    cases h
    exact ⟨bi, rfl⟩
  | cons msg msgs ih =>
    obtain ⟨r, b₁, rs', hp, hrun, hrs⟩ := run_cons h
    have hmsg := hm msg List.mem_cons_self
    obtain ⟨hr, hg₁, lk, hs, ht⟩ := good_step hbase hn hg hmsg hp
    have hacc : Accepts (orderMap bi.l3) msg := ⟨lk, _, hom ▸ hs, ht, hg₁.placed.uncrossed⟩
    rcases book_processMsg hbase hn hgi hmsg with ⟨bi₁, lk', hpi, hgi₁, hsi, -⟩ | ⟨-, hno⟩
    · rw [← hom, hs] at hsi
      have hom₁ : orderMap b₁.l3 = orderMap bi₁.l3 := (Prod.mk.inj (Option.some.inj hsi)).2
      obtain ⟨bi', hruni⟩ := ih hg₁ hgi₁ hom₁ (fun m hm' => hm m (List.mem_cons_of_mem _ hm')) hrun
      refine ⟨bi', ?_⟩
      dsimp only at hrs
      rw [run, hpi]
      simp only [hruni, Option.map_some, hrs, hr, liveOrders]
      rw [show b₁.l3.memory.toDict = (orderMap bi₁.l3).live from congrArg OrderMap.live hom₁]
    · exact absurd hacc (hno rfl)

/-- **The ideal model answers what the size-limited one answers.** -/
theorem ideal_run_agrees (hn : 2 ≤ cfg.bboDepth) (hbase : base % 50 = 0) {b₀ bi₀ b : Book cfg}
    (hinit : (Book.new cfg false).initParams base = .ok b₀)
    (hiniti : (Book.new cfg true).initParams base = .ok bi₀)
    (hm : ∀ m ∈ msgs, m.SharesPos) (hrun : run b₀ msgs = some (rs, b)) :
    ∃ bi, run bi₀ msgs = some (rs, bi) := by
  obtain rfl := initParams_eq hinit
  obtain rfl := initParams_eq hiniti
  have horders : orderMap (initialised cfg false base).l3 = orderMap (initialised cfg true base).l3 :=
    (orderMap_new cfg false).trans (orderMap_new cfg true).symm
  exact run_ideal hbase hn (good_initialised cfg false base) (good_initialised cfg true base) horders
    hm hrun

theorem ideal_run_agrees_shortDay :
    ∃ rs b bi, run (initialised {} false 100) shortDay = some (rs, b) ∧
      run (initialised {} true 100) shortDay = some (rs, bi) := by
  obtain ⟨⟨rs, b⟩, h⟩ := Option.isSome_iff_exists.1
    (show (run (initialised {} false 100) shortDay).isSome = true from rfl)
  obtain ⟨bi, hi⟩ := ideal_run_agrees (by decide) (by decide) (initParams_new {} false (by decide))
    (initParams_new {} true (by decide)) (by decide) h
  exact ⟨rs, b, bi, h, hi⟩

end Runs

end ItchOrderBook.Book
