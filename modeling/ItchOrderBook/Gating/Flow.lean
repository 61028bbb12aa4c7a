import ItchOrderBook.Gating.Stages

/-!
# Which stock state masks a result

The output stage masks a result by `stock_active_o` in the cycle in which the book has it
(`masks`). An order in the stages before that is due to be masked by the stock state of now, since no
control message comes between (`due`). So the masks of a run and what is due at its end are what was
due at its start and the gates of the messages that the ITCH parser has shown (`masks_run`).
-/

namespace ItchOrderBook.Gating

open Decode (Decoded emitted)
open Rtl (TopIn TopRegs top)

/-- The stock state that masks the result in this cycle, if there is one. -/
def mask (q : TopRegs) : List Bool :=
  if q.book.bboResVLast then [q.control.stockActive] else []

/-- The stock state that is to mask the result of the order in the stages of the book, if there is
one. -/
def due (q : TopRegs) : List Bool :=
  if q.book.bboResVLast || Answered q.book.decBookUpdt || Answered q.book.lookup then
    [q.control.stockActive]
  else []

/-- The registers of `top` with any view of them as the output. -/
def view {ο : Type} (f : TopRegs → ο) : Circuit TopRegs TopIn ο := ⟨TopRegs.next, fun q _ => f q⟩

/-- The masks of a run. -/
def masks (q : TopRegs) (cycles : List TopIn) : List Bool := ((view mask).trace q cycles).flatten

/-- The messages that the ITCH parser shows in a run. -/
def shown (q : TopRegs) (cycles : List TopIn) : List Decoded :=
  ((view fun q => emitted q.itchOut).trace q cycles).flatten

/-- The cycles have no error. -/
def ErrorFree (q : TopRegs) (cycles : List TopIn) : Prop := ∀ o ∈ top.trace q cycles, o.error = false

theorem errorFree_cons {q : TopRegs} {i : TopIn} {cycles : List TopIn} :
    ErrorFree q (i :: cycles) ↔ q.errorOut i = false ∧ ErrorFree (q.next i) cycles := by
  unfold ErrorFree
  rw [Circuit.trace_cons, List.forall_mem_cons]
  rfl

theorem not_answered {d : Rtl.DecBook} (h : d.valid = false) : Answered d = false := by
  rw [Answered, h, Bool.false_and]

section Step

variable {q : TopRegs} {i : TopIn}

theorem control_next (hi : i.initV = false) :
    (q.next i).control = (emitted q.itchOut).foldl after q.control := by
  rw [foldl_after_emitted]
  exact next_eq_foldl q.control hi

/-- While no control message and no order is shown, nothing becomes due, and the stock state stays. -/
theorem emitted_of_quiet (hctrl : q.itch.decCtrl.valid = false) (hbook : q.itch.decBook.valid = false) :
    emitted q.itchOut = [] := by
  change Decode.ofCtrl q.itch.decCtrl ++ Decode.ofBook q.itch.decBook = []
  rw [Decode.ofCtrl_of_not_valid hctrl, Decode.ofBook_of_not_valid hbook]
  rfl

/-- What goes to the best bid and offer has its result in the next cycle. -/
theorem due_of_dispatched (h : Answered q.book.bboDecBook = true) :
    due (q.next i) = [(q.next i).control.stockActive] := by
  have hres : (q.next i).book.bboResVLast = true := h
  rw [due, hres, Bool.true_or, Bool.true_or, if_pos rfl]

/-- If nothing goes to the best bid and offer and nothing is held, only the order shown now is
due next. -/
theorem due_of_idle (hbbo : Answered q.book.bboDecBook = false)
    (hheld : Answered (q.next i).book.decBookUpdt = false) :
    due (q.next i) = if Answered q.itch.decBook then [(q.next i).control.stockActive] else [] := by
  have hres : (q.next i).book.bboResVLast = false := hbbo
  have hlook : Answered (q.next i).book.lookup = Answered q.itch.decBook :=
    answered_lookup_next q.book (q.bookIn i)
  rw [due, hres, hheld, hlook, Bool.false_or, Bool.false_or]

theorem held_not_answered (h : Answered q.book.lookup = false) :
    Answered (q.next i).book.decBookUpdt = false := by
  change Answered (q.book.next (q.bookIn i)).decBookUpdt = false
  by_contra hne
  have hans : Answered (q.book.next (q.bookIn i)).decBookUpdt = true := by simpa using hne
  have hv : (q.book.next (q.bookIn i)).decBookUpdt.valid = true := by
    rw [Answered, Bool.and_eq_true] at hans
    exact hans.1
  rw [(held_next_valid hv).2.2, h] at hans
  cases hans

/-- **One cycle.** What was due and what is shown are what is masked now and what is due next. -/
theorem due_next (hs : Stages q) (hf : Fine q) (hi : i.initV = false) :
    due q ++ gates q.control (emitted q.itchOut) = mask q ++ due (q.next i) := by
  have hactive := control_next (q := q) hi
  have hgates := gates_emitted q.control q.itchOut
  rw [← foldl_after_emitted, ← hactive] at hgates
  change gates q.control (emitted q.itchOut) = if Answered q.itch.decBook then _ else [] at hgates
  cases hres : q.book.bboResVLast with
  | true =>
    -- the result is there, and no other order is in the stages
    obtain ⟨hl, hh⟩ := hs.result hres
    have hbbo : Answered q.book.bboDecBook = false := by
      apply not_answered
      by_contra hne
      rcases (valid_of_bbo (by simpa using hne)).2 with h | ⟨-, h⟩
      · rw [hh] at h
        cases h
      · rw [hl] at h
        cases h
    rw [due_of_idle hbbo (held_not_answered (not_answered hl)), ← hgates, due, mask, hres, Bool.true_or,
      Bool.true_or]
  | false =>
    rw [mask, hres, if_neg Bool.false_ne_true, List.nil_append]
    cases hheld : q.book.decBookUpdt.valid with
    | true =>
      -- a held order goes on in this cycle
      obtain ⟨hl, hb, -, hrest, -⟩ := hs.held hheld
      have hing := hs.updtIng_of_held hheld
      have hnil := emitted_of_quiet (hrest (hf.replace hheld hing)).1 hb
      have hbbo : q.book.bboDecBook = q.book.decBookUpdt := by
        rw [Rtl.BookRegs.bboDecBook, Rtl.BookRegs.release, hheld, hing]
        rfl
      rw [hnil, List.foldl_nil] at hactive
      rw [hnil, gates, List.append_nil, due, hres, Bool.false_or, not_answered hl, Bool.or_false]
      cases hans : Answered q.book.decBookUpdt with
      | true =>
        rw [if_pos rfl, due_of_dispatched (by rw [hbbo, hans]), hactive]
      | false =>
        rw [if_neg Bool.false_ne_true, due_of_idle (by rw [hbbo, hans])
          (held_not_answered (not_answered hl)), not_answered hb, if_neg Bool.false_ne_true]
    | false =>
      have hrel : q.book.release = false := by rw [Rtl.BookRegs.release, hheld, Bool.false_and]
      rw [due, hres, not_answered hheld, Bool.false_or, Bool.false_or]
      cases hlook : Answered q.book.lookup with
      | true =>
        -- an order that is looked up goes on or is held
        have hlv : q.book.lookup.valid = true := by
          rw [Answered, Bool.and_eq_true] at hlook
          exact hlook.1
        obtain ⟨hb, -, hc, -⟩ := hs.lookup hlv
        have hnil := emitted_of_quiet hc hb
        rw [hnil, List.foldl_nil] at hactive
        rw [hnil, gates, List.append_nil, if_pos rfl, ← hactive]
        cases hing : q.book.updtIng with
        | true =>
          have hnext : (q.next i).book.decBookUpdt = q.book.lookup := by
            change (q.book.next (q.bookIn i)).decBookUpdt = _
            rw [held_next, hrel, hing]
            rfl
          rw [due, hnext, hlook, Bool.or_true, Bool.true_or, if_pos rfl]
        | false =>
          have hbbo : q.book.bboDecBook = q.book.lookup := by
            rw [Rtl.BookRegs.bboDecBook, hrel, hing]
            rfl
          rw [due_of_dispatched (by rw [hbbo, hlook])]
      | false =>
        have hbbo : Answered q.book.bboDecBook = false := by
          rw [Rtl.BookRegs.bboDecBook, hrel, if_neg Bool.false_ne_true]
          split_ifs
          · rfl
          · exact hlook
        rw [if_neg Bool.false_ne_true, List.nil_append, hgates, due_of_idle hbbo
          (held_not_answered hlook)]

end Step

/-- **The masks of a run.** -/
theorem masks_run {q : TopRegs} (hs : Stages q) {cycles : List TopIn} (herr : ErrorFree q cycles)
    (hinit : ∀ i ∈ cycles, i.initV = false) :
    due q ++ gates q.control (shown q cycles) = masks q cycles ++ due (top.run q cycles) := by
  induction cycles generalizing q with
  | nil => rw [shown, masks, Circuit.trace_nil, Circuit.trace_nil]; simp [gates]
  | cons i cycles ih =>
    obtain ⟨h0, herr⟩ := errorFree_cons.1 herr
    obtain ⟨hi, hinit⟩ := List.forall_mem_cons.1 hinit
    have hf := fine_of_error h0
    have ih := ih (hs.next hf (i := i)) herr hinit
    rw [shown, Circuit.trace_cons, List.flatten_cons, masks, Circuit.trace_cons, List.flatten_cons]
    change due q ++ gates q.control (emitted q.itchOut ++ shown (q.next i) cycles) =
      mask q ++ masks (q.next i) cycles ++ due (top.run (q.next i) cycles)
    rw [gates_append, ← control_next hi, ← List.append_assoc, due_next hs hf hi, List.append_assoc, ih,
      List.append_assoc]

end ItchOrderBook.Gating
