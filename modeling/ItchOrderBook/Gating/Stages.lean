import ItchOrderBook.Decode.Clearance
import ItchOrderBook.Gating.Gates

/-!
# The stages of the book

An order that the ITCH parser shows is looked up one cycle later, goes to the best bid and offer in
that cycle or, if it is held during a refill, in the next one, and has its result one cycle after.
Next to these stages, a refill goes through three cycles (`Refill`).

While the orders are as far apart as the ITCH parser has them, at most one of them is in the stages
behind the parser, a held one is released in the next cycle, and no control message is shown
while the result of an order is still to come (`Stages`).
-/

namespace ItchOrderBook.Gating

open Decode (Clearance Halfway LengthOk Spaced ahead ctrlAhead next_decBook step_of_lengthOk
  ctrlAhead_down ctrlAhead_of_ctrl)
open Rtl (BookIn BookRegs BookMsgType DecBook HalfIn HalfRegs ItchIn ItchRegs TopIn TopRegs)

/-! ### Refills -/

/-- The stages of a refill. -/
inductive Refill
  | rest
  | asked
  | searched
  | found
  deriving DecidableEq

/-- The request, the two stages behind it, and `updt_ing_q`. -/
def Refill.flags : Refill → Bool × Bool × Bool × Bool
  | .rest => (false, false, false, false)
  | .asked => (true, false, false, false)
  | .searched => (false, true, false, true)
  | .found => (false, false, true, true)

/-- The request, the two stages behind it, and `updt_ing_q`, of both sides. -/
def flags (q : BookRegs) : Bool × Bool × Bool × Bool :=
  (q.bbo.bid.updtReq || q.bbo.off.updtReq, q.l2.bid.updtReq || q.l2.off.updtReq,
    q.l2.bid.updtReq2 || q.l2.off.updtReq2, q.updtIng)

/-- A half only asks for a refill on a message. -/
theorem updtReq_next {isBuy : Bool} {q : HalfRegs} {i : HalfIn} (h : i.decBook.valid = false) :
    (q.next isBuy i).updtReq = false := by
  have hmsg : q.onMsg isBuy (q.onUpdt i.updt) i.decBook = q.onUpdt i.updt := by
    rw [HalfRegs.onMsg, h, if_neg Bool.false_ne_true]
  have hupdt : (q.onUpdt i.updt).updtReq = false := by
    rw [HalfRegs.onUpdt]
    split_ifs <;> rfl
  rw [← hupdt, ← hmsg]
  rfl

section Book

variable {q : BookRegs} {i : BookIn}

theorem flags_next (q : BookRegs) (i : BookIn) : flags (q.next i) =
    ((q.bbo.next (q.bboIn i)).bid.updtReq || (q.bbo.next (q.bboIn i)).off.updtReq,
      (flags q).1, (flags q).2.1,
      if (flags q).2.2.1 then false else if (flags q).1 then true else (flags q).2.2.2) := rfl

theorem updtReq_false (h : q.bboDecBook.valid = false) :
    ((q.bbo.next (q.bboIn i)).bid.updtReq || (q.bbo.next (q.bboIn i)).off.updtReq) = false := by
  have hbid : (q.bboIn i).bid.decBook.valid = false := by
    change (q.bboDecBook.valid && q.bboDecBook.isBuy) = false
    rw [h, Bool.false_and]
  have hoff : (q.bboIn i).off.decBook.valid = false := by
    change (q.bboDecBook.valid && !q.bboDecBook.isBuy) = false
    rw [h, Bool.false_and]
  rw [Bool.or_eq_false_iff]
  exact ⟨updtReq_next hbid, updtReq_next hoff⟩

/-- A refill without a message to the best bid and offer goes on to its next stage. -/
theorem refill_next {r : Refill} (hr : flags q = r.flags) (h : q.bboDecBook.valid = false) :
    flags (q.next i) = (match r with
      | .rest => Refill.rest
      | .asked => .searched
      | .searched => .found
      | .found => .rest).flags := by
  rw [flags_next, updtReq_false h, hr]
  cases r <;> rfl

/-- A message at rest may ask for a refill. -/
theorem refill_asked (hr : flags q = Refill.rest.flags) :
    flags (q.next i) = Refill.rest.flags ∨ flags (q.next i) = Refill.asked.flags := by
  rw [flags_next, hr]
  cases (q.bbo.next (q.bboIn i)).bid.updtReq || (q.bbo.next (q.bboIn i)).off.updtReq
  · exact Or.inl rfl
  · exact Or.inr rfl

/-- The registers of the held order and of the result. -/
theorem held_next (q : BookRegs) (i : BookIn) : (q.next i).decBookUpdt =
    if q.release then { q.lookup with valid := false }
    else if q.updtIng then q.lookup else { q.lookup with valid := false } := rfl

/-- The order table passes on what it is not to look up. -/
theorem lookup_next (q : BookRegs) (i : BookIn) : (q.next i).lookup.valid = i.decBook.valid ∧
    (q.next i).lookup.msgType = i.decBook.msgType ∧
    (q.next i).lookup.hasRep = i.decBook.hasRep := by
  change (q.l3.comb i.decBook).lookup.valid = _ ∧ (q.l3.comb i.decBook).lookup.msgType = _ ∧
    (q.l3.comb i.decBook).lookup.hasRep = _
  have hwrite : ∀ (c : Rtl.L3Comb) w way, c.lookup.valid = i.decBook.valid ∧
      c.lookup.msgType = i.decBook.msgType ∧ c.lookup.hasRep = i.decBook.hasRep →
      (Rtl.L3Regs.write c w way).lookup.valid = i.decBook.valid ∧
        (Rtl.L3Regs.write c w way).lookup.msgType = i.decBook.msgType ∧
        (Rtl.L3Regs.write c w way).lookup.hasRep = i.decBook.hasRep := by
    intro c w way h
    cases way <;> exact h
  unfold Rtl.L3Regs.comb
  split_ifs
  · split
    · exact hwrite _ _ _ ⟨rfl, rfl, rfl⟩
    · exact hwrite _ _ _ ⟨rfl, rfl, rfl⟩
    · exact hwrite _ _ _ ⟨rfl, rfl, rfl⟩
    · exact hwrite _ _ _ ⟨rfl, rfl, rfl⟩
  · exact ⟨rfl, rfl, rfl⟩

theorem answered_lookup_next (q : BookRegs) (i : BookIn) :
    Answered (q.next i).lookup = Answered i.decBook := by
  obtain ⟨hv, -, hrep⟩ := lookup_next q i
  rw [Answered, Answered, hv, hrep]

theorem not_valid_of_updtIng (h : q.updtIng = true) : q.bboDecBook.valid = false := by
  have hrel : q.release = false := by rw [BookRegs.release, h]; simp
  rw [BookRegs.bboDecBook, hrel, h, if_neg Bool.false_ne_true, if_pos rfl]

/-- What goes to the best bid and offer is held or looked up. -/
theorem valid_of_bbo (h : q.bboDecBook.valid = true) :
    q.updtIng = false ∧ (q.decBookUpdt.valid = true ∨
      q.decBookUpdt.valid = false ∧ q.lookup.valid = true) := by
  have hing : q.updtIng = false := by
    by_contra hne
    rw [not_valid_of_updtIng (by simpa using hne)] at h
    cases h
  refine ⟨hing, ?_⟩
  cases hheld : q.decBookUpdt.valid with
  | true => exact Or.inl rfl
  | false =>
    have hrel : q.release = false := by rw [BookRegs.release, hheld, Bool.false_and]
    rw [BookRegs.bboDecBook, hrel, hing, if_neg Bool.false_ne_true, if_neg Bool.false_ne_true] at h
    exact Or.inr ⟨rfl, h⟩

/-- The next held order is looked up during a refill. -/
theorem held_next_valid (h : (q.next i).decBookUpdt.valid = true) :
    q.updtIng = true ∧ q.lookup.valid = true ∧ (q.next i).decBookUpdt = q.lookup := by
  rw [held_next] at h ⊢
  cases hrel : q.release with
  | true =>
    rw [hrel, if_pos rfl] at h
    cases h
  | false =>
    rw [hrel, if_neg Bool.false_ne_true] at h
    cases hing : q.updtIng with
    | true =>
      rw [hing, if_pos rfl] at h
      exact ⟨rfl, h, rfl⟩
    | false =>
      rw [hing, if_neg Bool.false_ne_true] at h
      cases h

end Book

/-! ### The distance of what comes next -/

/-- A cycle of the ITCH parser in which no delete is in its extra stage: what it sends. -/
theorem quiet_next {q : ItchRegs} {i : ItchIn} (hok : LengthOk q i)
    (hdel : q.decBookDel.valid = false) :
    (2 ≤ ahead q → (q.next i).decBook.valid = false) ∧
      (3 ≤ ahead q → (q.next i).decBookDel.valid = false) ∧
      (2 ≤ ctrlAhead q → (q.next i).decCtrl.valid = false) := by
  have hstep := step_of_lengthOk hok
  refine ⟨fun h => ?_, fun h => ?_, fun h => ?_⟩
  · rw [next_decBook, hdel, if_neg Bool.false_ne_true]
    by_contra hne
    have := (hstep.book (by simpa using hne)).1
    omega
  · change (q.comb i).decBookDel.valid = false
    by_contra hne
    have := (hstep.del (by simpa using hne)).1
    omega
  · change (q.comb i).decCtrl.valid = false
    by_contra hne
    have := ctrlAhead_of_ctrl (q := q) (i := i) (by simpa using hne)
    omega

/-- The next order is far away, or it is the other half of a replace. -/
def Far (n : ℕ) (d : DecBook) (q : ItchRegs) : Prop :=
  n ≤ ahead q ∨ d.msgType = .delete ∧ d.hasRep = true ∧ Halfway q ∧ n ≤ ahead q + 2

theorem Far.quiet {n : ℕ} {d : DecBook} {q : ItchRegs} {i : ItchIn} (h : Far n d q)
    (hok : LengthOk q i) (hdel : q.decBookDel.valid = false) (h4 : 4 ≤ n) :
    (q.next i).decBook.valid = false ∧ (q.next i).decBookDel.valid = false := by
  obtain ⟨hbook, hdel', -⟩ := quiet_next hok hdel
  rcases h with h | ⟨-, -, hh, h⟩
  · exact ⟨hbook (by omega), hdel' (by omega)⟩
  · have hb := hbook (by omega)
    refine ⟨hb, ?_⟩
    rw [next_decBook, hdel, if_neg Bool.false_ne_true] at hb
    exact ((step_of_lengthOk hok).halfway hh hb).1

theorem Far.next {n : ℕ} {d : DecBook} {q : ItchRegs} {i : ItchIn} (h : Far (n + 1) d q)
    (hok : LengthOk q i) (hdel : q.decBookDel.valid = false) (h3 : 3 ≤ n) (h6 : n ≤ 6) :
    Far n d (q.next i) := by
  have hstep := step_of_lengthOk hok
  have hdown := hstep.down
  rcases h with h' | ⟨htype, hrep, hh, h'⟩
  · left
    omega
  · have hb : (q.comb i).decBook.valid = false := by
      rw [← (Far.quiet (Or.inr ⟨htype, hrep, hh, h'⟩) hok hdel (by omega)).1, next_decBook, hdel,
        if_neg Bool.false_ne_true]
    rcases (hstep.halfway hh hb).2 with hh' | h6'
    · right
      exact ⟨htype, hrep, hh', by omega⟩
    · left
      omega

/-! ### The invariant -/

/-- The orders in the stages behind the ITCH parser keep apart from each other and from the control
messages. -/
structure Stages (q : TopRegs) : Prop where
  spaced : Spaced q.itch
  clear : Clearance q.itch
  lookup : q.book.lookup.valid = true → q.itch.decBook.valid = false ∧
    q.itch.decBookDel.valid = false ∧ q.itch.decCtrl.valid = false ∧ Far 4 q.book.lookup q.itch ∧
    (q.book.lookup.msgType ≠ .delete → 2 ≤ ctrlAhead q.itch)
  held : q.book.decBookUpdt.valid = true → q.book.lookup.valid = false ∧
    q.itch.decBook.valid = false ∧ q.itch.decBookDel.valid = false ∧
    (q.book.decBookUpdt.msgType ≠ .delete → q.itch.decCtrl.valid = false ∧ 3 ≤ ahead q.itch) ∧
    flags q.book = Refill.rest.flags
  result : q.book.bboResVLast = true →
    q.book.lookup.valid = false ∧ q.book.decBookUpdt.valid = false
  refill : flags q.book = Refill.rest.flags ∨
    flags q.book = Refill.asked.flags ∧ q.book.lookup.valid = false ∧
      q.itch.decBook.valid = false ∨
    flags q.book = Refill.searched.flags ∧ q.book.lookup.valid = false ∨
    flags q.book = Refill.found.flags

/-- What the stages rely on in a cycle without an error. -/
structure Fine (q : TopRegs) : Prop where
  lengthOk : LengthOk q.itch q.itchIn
  decUpdt : q.book.errorDecUpdt = false

theorem fine_of_error {q : TopRegs} {i : TopIn} (h : q.errorOut i = false) : Fine q := by
  simp only [TopRegs.errorOut, Bool.or_eq_false_iff] at h
  obtain ⟨⟨⟨-, hip⟩, -⟩, hbook⟩ := h
  have hip' : (q.itch.comb q.itchIn).ipError = false := hip
  simp only [ItchRegs.Comb.ipError, Bool.or_eq_false_iff] at hip'
  simp only [BookRegs.error, Bool.or_eq_false_iff] at hbook
  exact ⟨⟨hip'.1.1.1.1.1.1.2, hip'.1.1.1.1.1.1.1⟩, hbook.2⟩

section Step

variable {q : TopRegs} {i : TopIn}

/-- A held order that is released is a replace. -/
theorem Fine.replace (hf : Fine q) (hheld : q.book.decBookUpdt.valid = true)
    (hing : q.book.updtIng = false) : q.book.decBookUpdt.msgType ≠ .delete := by
  have herr := hf.decUpdt
  rw [BookRegs.errorDecUpdt, BookRegs.release, hheld, hing] at herr
  intro htype
  rw [htype] at herr
  simp at herr

theorem Stages.updtIng_of_held (hs : Stages q) (hheld : q.book.decBookUpdt.valid = true) :
    q.book.updtIng = false := by
  have hflags := (hs.held hheld).2.2.2.2
  exact congrArg (fun f => f.2.2.2) hflags

/-- **What goes to the best bid and offer is followed by nothing for a while.** -/
theorem Stages.dispatched (hs : Stages q) (hf : Fine q) (h : q.book.bboDecBook.valid = true) :
    q.itch.decBook.valid = false ∧ (q.itch.next q.itchIn).decBook.valid = false ∧
      flags q.book = Refill.rest.flags := by
  obtain ⟨hing, hheld | ⟨-, hlook⟩⟩ := valid_of_bbo h
  · obtain ⟨-, hb, hd, hrest, hflags⟩ := hs.held hheld
    have h3 := (hrest (hf.replace hheld hing)).2
    exact ⟨hb, (quiet_next hf.lengthOk hd).1 (by omega), hflags⟩
  · obtain ⟨hb, hd, -, hfar, -⟩ := hs.lookup hlook
    refine ⟨hb, (hfar.quiet hf.lengthOk hd le_rfl).1, ?_⟩
    rcases hs.refill with h | ⟨-, hl, -⟩ | ⟨-, hl⟩ | h
    · exact h
    · rw [hl] at hlook
      cases hlook
    · rw [hl] at hlook
      cases hlook
    · have hing' : q.book.updtIng = true := congrArg (fun f => f.2.2.2) h
      rw [hing] at hing'
      cases hing'

/-- **A cycle keeps the stages.** -/
theorem Stages.next (hs : Stages q) (hf : Fine q) : Stages (q.next i) := by
  have hok := hf.lengthOk
  obtain ⟨hlv, hlt, hlr⟩ := lookup_next q.book (q.bookIn i)
  have hshown : (q.bookIn i).decBook = q.itch.decBook := rfl
  rw [hshown] at hlv hlt hlr
  refine ⟨hs.spaced.next hok, hs.clear.next hs.spaced hok, fun h => ?_, fun h => ?_, fun h => ?_, ?_⟩
  · -- an order that was shown is looked up
    have hbook : q.itch.decBook.valid = true := hlv.symm.trans h
    have hdel : q.itch.decBookDel.valid = false := by
      by_contra hne
      rw [(hs.spaced.del (by simpa using hne)).1] at hbook
      cases hbook
    have hfar : Far 5 q.itch.decBook q.itch := by
      rcases hs.spaced.book hbook with h5 | ⟨htype, hrep, hh, h3⟩
      · exact Or.inl h5
      · exact Or.inr ⟨htype, hrep, hh, by omega⟩
    obtain ⟨h2, h3⟩ := hs.clear.book hbook
    obtain ⟨hb, hd⟩ := hfar.quiet hok hdel (by decide)
    have hnext := hfar.next hok hdel (by decide) (by decide)
    have hdown := ctrlAhead_down hok
    have hfar' : Far 4 (q.book.next (q.bookIn i)).lookup (q.itch.next q.itchIn) := by
      unfold Far at hnext ⊢
      rwa [hlt, hlr]
    refine ⟨hb, hd, (quiet_next hok hdel).2.2 h2, hfar', fun hne => ?_⟩
    have h3' := h3 fun he => hne (hlt.trans he)
    change 2 ≤ ctrlAhead (q.itch.next q.itchIn)
    omega
  · -- an order that was looked up is held
    obtain ⟨hing, hlook, heq⟩ := held_next_valid h
    obtain ⟨hb, hd, -, hfar, hctrl⟩ := hs.lookup hlook
    obtain ⟨hb', hd'⟩ := hfar.quiet hok hd le_rfl
    refine ⟨hlv.trans hb, hb', hd', fun hne => ?_, ?_⟩
    · have hne' : q.book.lookup.msgType ≠ .delete := by
        rw [← heq]
        exact hne
      refine ⟨(quiet_next hok hd).2.2 (hctrl hne'), ?_⟩
      have hdown := (step_of_lengthOk hok).down
      rcases hfar with h4 | ⟨htype, -⟩
      · change 3 ≤ ahead (q.itch.next q.itchIn)
        omega
      · exact absurd htype hne'
    · -- the refill is in its last stage
      rcases hs.refill with hr | ⟨-, hl, -⟩ | ⟨-, hl⟩ | hr
      · have hing' : q.book.updtIng = false := congrArg (fun f => f.2.2.2) hr
        rw [hing'] at hing
        cases hing
      · rw [hl] at hlook
        cases hlook
      · rw [hl] at hlook
        cases hlook
      · exact refill_next (r := .found) hr (not_valid_of_updtIng hing)
  · -- an order that went to the best bid and offer has its result
    have hv : q.book.bboDecBook.valid = true := by
      have h' : Answered q.book.bboDecBook = true := h
      rw [Answered, Bool.and_eq_true] at h'
      exact h'.1
    refine ⟨hlv.trans (hs.dispatched hf hv).1, ?_⟩
    change (q.book.next (q.bookIn i)).decBookUpdt.valid = false
    by_contra hne
    have hing := (held_next_valid (by simpa using hne)).1
    rw [(valid_of_bbo hv).1] at hing
    cases hing
  · cases hv : q.book.bboDecBook.valid with
    | true =>
      obtain ⟨hb, hb', hr⟩ := hs.dispatched hf hv
      rcases refill_asked hr with h | h
      · exact Or.inl h
      · exact Or.inr (Or.inl ⟨h, hlv.trans hb, hb'⟩)
    | false =>
      rcases hs.refill with hr | ⟨hr, -, hb⟩ | ⟨hr, -⟩ | hr
      · exact Or.inl (refill_next (r := .rest) hr hv)
      · exact Or.inr (Or.inr (Or.inl ⟨refill_next (r := .asked) hr hv, hlv.trans hb⟩))
      · exact Or.inr (Or.inr (Or.inr (refill_next (r := .searched) hr hv)))
      · exact Or.inl (refill_next (r := .found) hr hv)

end Step

end ItchOrderBook.Gating
