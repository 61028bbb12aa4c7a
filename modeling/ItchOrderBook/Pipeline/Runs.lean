import ItchOrderBook.Pipeline.Messages

/-!
# Runs of the book behind the order table

`backend` is `book` with the looked-up order as an input. In a run whose messages leave the table the
cycles it needs (`Spaced`) and are answered by the reference (`Answered`), it raises no error and
publishes the answers of the reference, but for those to deletes that a replace follows
(`Tracking.run`).
-/

namespace ItchOrderBook.Pipeline

open Book (Follows OrderMap Orders Placed Positive ladder quote top toEntry)
open Ref (BBOEntry BookMsg BookResult Params)
open Rtl (Bbo BboWord BookIn BookRegs DecBook HalfRegs L3Regs)

/-! ### The circuit -/

/-- The inputs of `book` behind the order table. -/
structure BackIn where
  initV : Bool
  initPriceBase : BitVec 32
  lookup : DecBook

/-- The outputs of `book` behind the order table, with its errors apart. -/
structure BackOut where
  bboResV : Bool
  bboRes : Bbo
  l2Error : Bool
  bboError : Bool
  errorDecUpdt : Bool
  deriving DecidableEq, Repr

/-- The registers with the given order looked up. -/
def withLookup (q : BookRegs) (d : DecBook) : BookRegs := { q with l3 := { q.l3 with lookup := d } }

/-- The inputs of `book` without an order message. -/
def BackIn.book (i : BackIn) : BookIn := ⟨i.initV, i.initPriceBase, 0, .zero⟩

/-- The price table, the best bid and offer, and the glue of `book`. -/
def backend : Circuit BookRegs BackIn BackOut where
  next q i := (withLookup q i.lookup).next i.book
  out q i :=
    let q' := withLookup q i.lookup
    ⟨q'.bboResVLast, q'.bbo.res, q'.l2.error (q'.l2In i.book),
      (q'.bbo.out (q'.bboIn i.book)).error, q'.errorDecUpdt⟩

/-- The outputs have no error. -/
def BackOut.Quiet (o : BackOut) : Prop :=
  o.l2Error = false ∧ o.bboError = false ∧ o.errorDecUpdt = false

/-- A best bid and a best offer, if there are any. -/
abbrev View := Option BBOEntry × Option BBOEntry

/-- The best bid and offer on the output. -/
def bboView (b : Bbo) : View :=
  (if b.bidValid then some ⟨b.bidShares.toNat, b.bidPrice.toNat⟩ else none,
    if b.offValid then some ⟨b.offShares.toNat, b.offPrice.toNat⟩ else none)

/-- The best bid and offer of an answer. -/
def resultView (r : BookResult) : View := (r.bidEntry, r.offEntry)

/-- The best bids and offers published, in order. -/
def published (out : List BackOut) : List View :=
  out.filterMap fun o => if o.bboResV then some (bboView o.bboRes) else none

/-! ### The stream of messages -/

/-- The cycles since a message after another cycle, and whether a replace is to follow it. -/
def after (n : ℕ) (rep : Bool) (d : DecBook) : ℕ × Bool := if d.valid then (1, d.hasRep) else (n + 1, rep)

/-- The messages are at least five cycles apart, or three for a replace behind its delete, where the one
before them was `n` cycles ago. -/
def SpacedFrom : ℕ → Bool → List DecBook → Prop
  | _, _, [] => True
  | n, rep, d :: ds =>
    (d.valid = true → 5 ≤ n ∨ (3 ≤ n ∧ rep = true ∧ d.msgType = .replace)) ∧
      SpacedFrom (after n rep d).1 (after n rep d).2 ds

instance decidableSpacedFrom : ∀ n rep ds, Decidable (SpacedFrom n rep ds)
  | _, _, [] => isTrue trivial
  | n, rep, d :: ds =>
    have := decidableSpacedFrom (after n rep d).1 (after n rep d).2 ds
    inferInstanceAs (Decidable (_ ∧ _))

/-- The messages are at least five cycles apart, or three for a replace behind its delete. -/
def Spaced (ds : List DecBook) : Prop := SpacedFrom 5 false ds

instance : DecidablePred Spaced := fun ds => decidableSpacedFrom 5 false ds

/-- The looked-up messages are those of the messages for orders of at least one share, at no time more
of them than the order table holds, and only deletes have a replace behind them; the price table and the
best bid and offer of the reference answer each of them. -/
inductive Answered : OrderMap → Ref.Book {} → List (DecBook × BookResult) → OrderMap → Ref.Book {} → Prop
  | nil (om : OrderMap) (b : Ref.Book {}) : Answered om b [] om b
  | cons {om om' om'' : OrderMap} {b b' b'' : Ref.Book {}} {msg : BookMsg} {d : DecBook}
    {r : BookResult} {answers : List (DecBook × BookResult)}
    (hstep : om.step msg = some (orderMsg d, om')) (hpos : msg.SharesPos)
    (hcard : om'.live.keys.card ≤ 2 ^ 14 + 8) (hrep : d.hasRep = true → d.msgType = .delete)
    (hout : b.downstream (orderMsg d) = (.ret r, b')) (hrest : Answered om' b' answers om'' b'') :
    Answered om b ((d, r) :: answers) om'' b''

/-- The answers of the reference to looked-up messages, each with its order message, as long as they are
looked up for it and answered. -/
def serve (om : OrderMap) (b : Ref.Book {}) :
    List (BookMsg × DecBook) → Option (List (DecBook × BookResult) × OrderMap × Ref.Book {})
  | [] => some ([], om, b)
  | (msg, d) :: ms =>
    match om.step msg with
    | none => none
    | some (lk, om') =>
      if lk = orderMsg d ∧ om'.live.keys.card ≤ 2 ^ 14 + 8 ∧ (d.hasRep = true → d.msgType = .delete) then
        match b.downstream lk with
        | (.ret r, b') => (serve om' b' ms).map fun s => ((d, r) :: s.1, s.2)
        | _ => none
      else none

theorem answered_of_serve {om om' : OrderMap} {b b' : Ref.Book {}} {ms : List (BookMsg × DecBook)}
    {answers : List (DecBook × BookResult)} (h : serve om b ms = some (answers, om', b'))
    (hpos : ∀ m ∈ ms, m.1.SharesPos) :
    Answered om b answers om' b' ∧ answers.map Prod.fst = ms.map Prod.snd := by
  induction ms generalizing om b answers with
  | nil =>
    cases h
    exact ⟨.nil _ _, rfl⟩
  | cons m ms ih =>
    obtain ⟨msg, d⟩ := m
    rw [serve] at h
    split at h
    · cases h
    · rename_i lk om₁ hstep
      split_ifs at h with hc
      obtain ⟨rfl, hcard, hrep⟩ := hc
      split at h
      · rename_i r b₁ hout
        obtain ⟨⟨answers', om₂, b₂⟩, hrest, heq⟩ := Option.map_eq_some_iff.1 h
        cases heq
        obtain ⟨hans, hfst⟩ := ih hrest fun m hm => hpos m (List.mem_cons_of_mem _ hm)
        exact ⟨.cons hstep (hpos _ List.mem_cons_self) hcard hrep hout hans, congrArg (d :: ·) hfst⟩
      · cases h

/-! ### What the reference answers -/

section Reference

variable {base : ℕ} {om om' : OrderMap} {b b' : Ref.Book {}} {msg : BookMsg} {d : DecBook}
  {r : BookResult}

/-- The reference follows the live orders, which fit in messages. -/
structure Serves (base : ℕ) (om : OrderMap) (b : Ref.Book {}) : Prop where
  follows : Follows false base om.live b.l2 b.bbo
  small : Small om.live

/-- The halves of the reference show the levels of the live orders. -/
theorem Serves.half_eq (h : Serves base om b) (c : Bool) : Book.half b.bbo c = shown base 2 om.live c :=
  eq_shown (h.follows.window c) (h.follows.halves c)

theorem orderMsg_bounds (h : om.step msg = some (orderMsg d, om')) (hd : Positive om.live)
    (hm : msg.SharesPos) : 1 ≤ (orderMsg d).shares ∧ (orderMsg d).shares < 2 ^ 32 := by
  refine ⟨OrderMap.step_shares_pos h hd hm, ?_⟩
  have := d.shares.isLt
  dsimp only [orderMsg]
  omega

/-- **A message that the reference answers** is answered with the best levels of the orders then live, and
is one that the orders take. -/
theorem Serves.step (h : Serves base om b) (hbase : base % 50 = 0)
    (hstep : om.step msg = some (orderMsg d, om')) (hm : msg.SharesPos)
    (hcard : om'.live.keys.card ≤ 2 ^ 14 + 8) (hout : b.downstream (orderMsg d) = (.ret r, b')) :
    r = quote om'.live ∧ Serves base om' b' ∧ Takes base om om' d := by
  have hd := h.follows.placed.positive
  obtain ⟨hpos, hlt⟩ := orderMsg_bounds hstep hd hm
  have hsmall := h.small.step hstep hpos hlt
  rcases Book.downstream_spec (by omega) (by decide) h.follows hm hstep with
    ⟨b₁, hret, -, htick, -, hhalf, hf⟩ | ⟨herr, -⟩ | ⟨e, herr, -⟩ | ⟨herr, -⟩ | ⟨herr, -⟩
  · rw [hout] at hret
    obtain ⟨hr, rfl⟩ := Prod.mk.inj hret
    obtain rfl := Ref.Outcome.ret.inj hr
    refine ⟨rfl, ⟨hf, hsmall⟩, ⟨⟨msg, hstep, hm⟩, htick, hf.placed,
      fits_of_card hf.placed.positive hsmall hcard, ?_⟩⟩
    obtain ⟨r', hr'⟩ := hhalf
    have hside : (orderMsg d).isBuy = d.isBuy := rfl
    rw [← h.half_eq, ← hside, hr']
    exact Ref.Outcome.isErr_ret _
  all_goals
    rw [hout] at herr
    cases herr

end Reference

/-! ### The run -/

/-- The circuit tracks the live orders, `n` cycles after a message; `rep` tells whether a replace is to
follow, and `owed` lists what is still to be published. -/
inductive Tracking (base : ℕ) (om : OrderMap) (n : ℕ) (rep : Bool) : List View → BookRegs → Prop
  | phase {s : Stage} {owed : List View} {q : BookRegs} (h : Phase base om.live n s q)
    (hv : 3 ≤ n → q.bboResVLast = false)
    (howed : owed = if q.bboResVLast then [resultView (quote om.live)] else []) :
    Tracking base om n rep owed q
  | held {om₀ : OrderMap} {d : DecBook} {q : BookRegs} (h : Held base om₀ om d q) (hn : n = 1)
    (hrep : d.hasRep = false) (hv : q.bboResVLast = false) :
    Tracking base om n rep [resultView (quote om.live)] q

section Run

variable {base n : ℕ} {om om' : OrderMap} {rep : Bool} {owed : List View} {q : BookRegs} {i : BookIn}
  {s : Stage} {d : Orders}

/-- What is published in a cycle. -/
def publishedNow (q : BookRegs) : List View := if q.bboResVLast then [bboView q.bbo.res] else []

/-- The slots at the top of the halves show the best levels. -/
theorem Phase.view (h : Phase base d n s q) : bboView q.bbo.res = resultView (quote d) := by
  have hside : ∀ c, (if (halfOf q c).arr0.valid then some (entry (halfOf q c).arr0) else none) =
      top d c := by
    intro c
    have hhead : (shown base (s.depth c) d c).entries.head? = top d c := by
      rw [shown_halfAt.head?_entries (by rw [Stage.depth]; split_ifs <;> omega), Book.top_eq]
    rw [← hhead, (h.halves c).entries, entries]
    split_ifs <;> rfl
  exact Prod.ext (hside true) (hside false)

theorem bboResVLast_next : (q.next i).bboResVLast = (q.bboDecBook.valid && !q.bboDecBook.hasRep) := rfl

/-- **A cycle without a message.** -/
theorem Tracking.idle (h : Tracking base om n rep owed q) (hv : q.lookup.valid = false)
    (hi : i.initV = false) : NoError q i ∧ ∃ owed', owed = publishedNow q ++ owed' ∧
      Tracking base om (n + 1) rep owed' (q.next i) := by
  cases h with
  | phase h hlast howed =>
    have hno : (q.next i).bboResVLast = false := by
      rw [bboResVLast_next, h.bboDecBook hv, Bool.false_and]
    refine ⟨h.noError_idle hv, [], ?_, .phase (h.idle hv hi) (fun _ => hno) (by rw [hno]; rfl)⟩
    rw [howed, publishedNow, h.view, List.append_nil]
  | held h hn hrep hlast =>
    subst hn
    obtain ⟨herr, hb, hphase⟩ := h.idle hv hi
    have hyes : (q.next i).bboResVLast = true := by
      rw [bboResVLast_next, hb, h.valid, hrep]
      rfl
    refine ⟨herr, [resultView (quote om.live)], ?_,
      .phase hphase (fun h => absurd h (by omega)) (by rw [hyes]; rfl)⟩
    rw [publishedNow, hlast]
    rfl

/-- **A message when it may come.** -/
theorem Tracking.message (h : Tracking base om n rep owed q) (ht : Takes base om om' q.lookup)
    (hv : q.lookup.valid = true) (hi : i.initV = false)
    (hn : 5 ≤ n ∨ (3 ≤ n ∧ rep = true ∧ q.lookup.msgType = .replace))
    (hrep : q.lookup.hasRep = true → q.lookup.msgType = .delete) : NoError q i ∧
      owed = publishedNow q ∧ Tracking base om' 1 q.lookup.hasRep
        (if q.lookup.hasRep then [] else [resultView (quote om'.live)]) (q.next i) := by
  have h3 : 3 ≤ n := by omega
  cases h with
  | held h hn' => omega
  | @phase s _ _ h hlast howed =>
    have hpub : owed = publishedNow q := by
      rw [howed, publishedNow, hlast h3]
      rfl
    have hdirect : ∀ s, Phase base om'.live 1 s (q.next i) → q.bboDecBook = q.lookup →
        Tracking base om' 1 q.lookup.hasRep
          (if q.lookup.hasRep then [] else [resultView (quote om'.live)]) (q.next i) := by
      intro s hphase hb
      have hlast' : (q.next i).bboResVLast = !q.lookup.hasRep := by
        rw [bboResVLast_next, hb, hv, Bool.true_and]
      refine .phase hphase (fun h => absurd h (by omega)) ?_
      rw [hlast']
      cases q.lookup.hasRep <;> rfl
    by_cases hrest : s = .rest
    · subst hrest
      obtain ⟨herr, s, hphase⟩ := h.message h3 (fun ha => by
        rcases hn with hn | ⟨-, -, hr⟩
        · exact hn
        · rw [DecBook.isAdd, hr] at ha
          cases ha) ht hv hi
      exact ⟨herr, hpub, hdirect s hphase h.calm.bboDecBook⟩
    · obtain ⟨rfl, c, rfl⟩ := h.stage.eq_filled h3 hrest
      have hr : q.lookup.msgType = .replace := by
        rcases hn with hn | ⟨-, -, hr⟩
        · omega
        · exact hr
      obtain ⟨herr, hheld⟩ := h.hold ht hr hv hi
      have hno : q.lookup.hasRep = false := by
        by_contra hyes
        exact absurd (hr.symm.trans (hrep (by simpa using hyes))) (by decide)
      have hlast' : (q.next i).bboResVLast = false := by
        rw [bboResVLast_next, h.bboDecBook_busy, Bool.false_and]
      rw [hno]
      exact ⟨herr, hpub, .held hheld rfl hno hlast'⟩

end Run

/-! ### The trace -/

/-- The answers that are published: those to deletes with a replace behind them are not. -/
def announced (answers : List (DecBook × BookResult)) : List View :=
  (answers.filter fun a => !a.1.hasRep).map fun a => resultView a.2

/-- The cycles since the last message after some cycles, and whether a replace is to follow it. -/
def afterAll (n : ℕ) (rep : Bool) (ds : List DecBook) : ℕ × Bool :=
  ds.foldl (fun p d => after p.1 p.2 d) (n, rep)

section Trace

variable {base n : ℕ} {om om' : OrderMap} {b b' : Ref.Book {}} {rep : Bool} {owed : List View}
  {q : BookRegs} {s : Stage} {d : Orders}

theorem Signals.setL3 (h : Signals s q) (x : L3Regs) : Signals s { q with l3 := x } :=
  ⟨h.updtReq, h.updting, h.sought, h.filled, h.updtIng⟩

theorem Fetch.setL3 (h : Fetch base d q s) (x : L3Regs) : Fetch base d { q with l3 := x } s := by
  cases s <;> exact h

theorem Phase.setL3 (h : Phase base d n s q) (x : L3Regs) : Phase base d n s { q with l3 := x } :=
  ⟨h.placed, h.table, h.stage, h.signals.setL3 x, h.halves, h.fetch.setL3 x, h.held, h.aims, h.flags,
    h.search⟩

/-- The order table is no part of what is tracked. -/
theorem Tracking.setL3 (h : Tracking base om n rep owed q) (x : L3Regs) :
    Tracking base om n rep owed { q with l3 := x } := by
  cases h with
  | phase h hv howed => exact .phase (h.setL3 x) hv howed
  | held h hn hrep hv =>
    exact .held ⟨h.takes, h.replace, h.valid, h.placed, h.table, h.signals.setL3 x, h.halves, h.held⟩
      hn hrep hv

theorem Tracking.withLookup (h : Tracking base om n rep owed q) (x : DecBook) :
    Tracking base om n rep owed (withLookup q x) := h.setL3 _

theorem published_cons (q : BookRegs) (i : BackIn) (out : List BackOut) :
    published (backend.out q i :: out) = publishedNow (withLookup q i.lookup) ++ published out := by
  have hout : (backend.out q i).bboResV = (withLookup q i.lookup).bboResVLast := rfl
  rw [published, publishedNow, List.filterMap_cons, hout]
  cases (withLookup q i.lookup).bboResVLast <;> rfl

theorem announced_cons (d : DecBook) (r : BookResult) (answers : List (DecBook × BookResult)) :
    announced ((d, r) :: answers) =
      (if d.hasRep then [] else [resultView r]) ++ announced answers := by
  cases h : d.hasRep <;> simp [announced, h]

theorem quiet_of_noError {i : BackIn} (h : NoError (withLookup q i.lookup) i.book) :
    (backend.out q i).Quiet := ⟨h.l2, h.bbo, h.decUpdt⟩

/-- **A run.** No error is raised, the circuit goes on tracking the live orders, and what it publishes and
still owes is what the reference answers. -/
theorem Tracking.run (hq : Tracking base om n rep owed q) (hb : Serves base om b) (hbase : base % 50 = 0)
    {is : List BackIn} (his : ∀ i ∈ is, i.initV = false)
    (hsp : SpacedFrom n rep (is.map (·.lookup))) {answers : List (DecBook × BookResult)}
    (hans : Answered om b answers om' b')
    (hmsgs : answers.map Prod.fst = (is.map (·.lookup)).filter (·.valid)) :
    (∀ o ∈ backend.trace q is, o.Quiet) ∧ Serves base om' b' ∧ ∃ owed',
      Tracking base om' (afterAll n rep (is.map (·.lookup))).1 (afterAll n rep (is.map (·.lookup))).2
        owed' (backend.run q is) ∧
      owed ++ announced answers = published (backend.trace q is) ++ owed' := by
  induction is generalizing n rep owed q om b answers with
  | nil =>
    obtain rfl : answers = [] := List.map_eq_nil_iff.1 hmsgs
    cases hans
    exact ⟨by simp, hb, owed, hq, by rw [announced]; exact List.append_nil owed⟩
  | cons i is ih =>
    have hi : i.book.initV = false := his i List.mem_cons_self
    have his' : ∀ j ∈ is, j.initV = false := fun j hj => his j (List.mem_cons_of_mem i hj)
    obtain ⟨hspace, hsp'⟩ := hsp
    rw [List.map_cons, List.filter_cons] at hmsgs
    rw [List.map_cons]
    by_cases hv : i.lookup.valid = true
    · rw [if_pos hv] at hmsgs
      rw [after, if_pos hv] at hsp'
      match answers, hans with
      | (d, r) :: answers, .cons hstep hpos hcard hrep hout hrest =>
        obtain ⟨rfl, hmsgs'⟩ := List.cons.inj hmsgs
        obtain ⟨rfl, hb', htakes⟩ := hb.step hbase hstep hpos hcard hout
        obtain ⟨herr, howed, hnext⟩ := (hq.withLookup i.lookup).message htakes hv hi (hspace hv) hrep
        obtain ⟨hquiet, hserves, owed', hend, heq⟩ := ih hnext hb' his' hsp' hrest hmsgs'
        refine ⟨?_, hserves, owed', ?_, ?_⟩
        · rw [Circuit.trace_cons]
          exact List.forall_mem_cons.2 ⟨quiet_of_noError herr, hquiet⟩
        · rw [afterAll, List.foldl_cons, after, if_pos hv]
          exact hend
        · rw [Circuit.trace_cons, published_cons, List.append_assoc, ← howed]
          rw [announced_cons]
          exact congrArg (owed ++ ·) heq
    · rw [if_neg hv] at hmsgs
      rw [after, if_neg hv] at hsp'
      obtain ⟨herr, owed₁, howed, hnext⟩ := (hq.withLookup i.lookup).idle
        (show i.lookup.valid = false by simpa using hv) hi
      obtain ⟨hquiet, hserves, owed', hend, heq⟩ := ih hnext hb his' hsp' hans hmsgs
      refine ⟨?_, hserves, owed', ?_, ?_⟩
      · rw [Circuit.trace_cons]
        exact List.forall_mem_cons.2 ⟨quiet_of_noError herr, hquiet⟩
      · rw [afterAll, List.foldl_cons, after, if_neg hv]
        exact hend
      · rw [Circuit.trace_cons, published_cons, List.append_assoc, howed, List.append_assoc]
        exact congrArg (publishedNow _ ++ ·) heq

end Trace

end ItchOrderBook.Pipeline
