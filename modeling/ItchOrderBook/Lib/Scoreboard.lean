import Mathlib.Data.List.Infix
import ItchOrderBook.Lib.Clocked

/-!
# A testbench with a scoreboard

A testbench drives the inputs of a circuit. Once in every cycle a monitor looks at the outputs, and takes
what it sees from the front of a queue of expected results; anything else ends the simulation. If the
circuit gives no alarm, and its results are the first ones of those that the testbench has expected so far
(`Agrees`), then the monitor never complains, and at any time the queue holds the expected results that have
not been seen (`Tracks`). If all of them come within `n` cycles, a wait with more than `n` turns ends with
an empty queue (`Tracks.await`).
-/

namespace ItchOrderBook

/-- A simulation in a cycle: the registers, the inputs as they are driven, the expected results, and
whether the monitor has looked at the outputs. -/
structure Bench (σ ι α : Type*) where
  regs : σ
  inputs : ι
  expected : List α
  sampled : Bool

namespace Bench

variable {σ ι ο α ε : Type*}

section Phases

variable (c : Circuit σ ι ο) (monitor : ο → List α → Except ε (List α)) (timeout : ε)

/-- To the end of the cycle, when the outputs are stable. -/
def readOnly (b : Bench σ ι α) : Except ε (Bench σ ι α) :=
  if b.sampled then .ok b
  else
    match monitor (c.out b.regs b.inputs) b.expected with
    | .error e => .error e
    | .ok expected => .ok { b with expected, sampled := true }

/-- To the next clock edge. -/
def risingEdge (b : Bench σ ι α) : Except ε (Bench σ ι α) :=
  match readOnly c monitor b with
  | .error e => .error e
  | .ok b => .ok { b with regs := c.next b.regs b.inputs, sampled := false }

/-- The inputs are driven, each to the next clock edge. -/
def drive : List ι → Bench σ ι α → Except ε (Bench σ ι α)
  | [], b => .ok b
  | i :: is, b =>
    match risingEdge c monitor { b with inputs := i } with
    | .error e => .error e
    | .ok b => drive is b

/-- The end of the next cycle. -/
def nextReadOnly (b : Bench σ ι α) : Except ε (Bench σ ι α) :=
  match risingEdge c monitor b with
  | .error e => .error e
  | .ok b => readOnly c monitor b

/-- The wait for an empty queue, for at most `left` turns. -/
def await : ℕ → Bench σ ι α → Except ε (Bench σ ι α)
  | 0, _ => .error timeout
  | left + 1, b =>
    if b.expected.isEmpty then .ok b
    else
      match nextReadOnly c monitor b with
      | .error e => .error e
      | .ok b => await left b

end Phases

/-! ### A circuit that does what is expected -/

/-- In the cycles there is no alarm, and the results are the first ones of `exp`. -/
structure Agrees (c : Circuit σ ι ο) (alarm : ο → Bool) (view : ο → Option α) (s : σ) (is : List ι)
    (exp : List α) : Prop where
  quiet : ∀ o ∈ c.trace s is, alarm o = false
  results : (c.trace s is).filterMap view <+: exp

/-- The cycles whose outputs the monitor has seen, if `past` are those that are over. -/
def seen (b : Bench σ ι α) (past : List ι) : List ι := if b.sampled then past ++ [b.inputs] else past

/-- The cycles `past` are over, and of `exp` the results that have not been seen are in the queue. -/
structure Tracks (c : Circuit σ ι ο) (view : ο → Option α) (s : σ) (past : List ι) (b : Bench σ ι α)
    (exp : List α) : Prop where
  regs : b.regs = c.run s past
  queue : (c.trace s (b.seen past)).filterMap view ++ b.expected = exp

variable {c : Circuit σ ι ο} {monitor : ο → List α → Except ε (List α)} {alarm : ο → Bool}
  {view : ο → Option α} {s : σ} {past is js : List ι} {b : Bench σ ι α} {exp : List α} {i : ι}

theorem Agrees.left (h : Agrees c alarm view s (is ++ js) exp) : Agrees c alarm view s is exp := by
  refine ⟨fun o ho => h.quiet o ?_, List.IsPrefix.trans ?_ h.results⟩
  · rw [Circuit.trace_append]
    exact List.mem_append_left _ ho
  · rw [Circuit.trace_append, List.filterMap_append]
    exact List.prefix_append _ _

/-- More is expected when the queue is empty. -/
theorem Tracks.expect (h : Tracks c view s past b exp) (hb : b.expected = []) (more : List α) :
    Tracks c view s past { b with expected := more } (exp ++ more) := by
  have hqueue := h.queue
  rw [hb, List.append_nil] at hqueue
  refine ⟨h.regs, ?_⟩
  rw [← hqueue]
  rfl

/-- The inputs are driven at a clock edge. -/
theorem Tracks.inputs (h : Tracks c view s past b exp) (hb : b.sampled = false) (i : ι) :
    Tracks c view s past { b with inputs := i } exp := by
  have hqueue := h.queue
  rw [seen, hb, if_neg Bool.false_ne_true] at hqueue
  refine ⟨h.regs, ?_⟩
  rw [seen, hb, if_neg Bool.false_ne_true]
  exact hqueue

/-- Once all results have come, the queue is empty. -/
theorem Tracks.expected_nil (h : Tracks c view s past b exp)
    (hall : (c.trace s past).filterMap view = exp) : b.expected = [] := by
  have hlen := congrArg List.length (h.queue.trans hall.symm)
  rw [List.length_append] at hlen
  have hle : ((c.trace s past).filterMap view).length ≤ ((c.trace s (b.seen past)).filterMap view).length := by
    rw [seen]
    split_ifs
    · rw [Circuit.trace_append, List.filterMap_append, List.length_append]
      exact Nat.le_add_right _ _
    · exact le_rfl
  exact List.length_eq_zero_iff.1 (by omega)

section Monitor

-- the monitor takes what it expects
variable (hmonitor : ∀ o rest, alarm o = false → monitor o ((view o).toList ++ rest) = .ok rest)

include hmonitor

/-- **The monitor does not complain.** -/
theorem Tracks.readOnly (h : Tracks c view s past b exp)
    (hok : Agrees c alarm view s (past ++ [b.inputs]) exp) :
    ∃ b', b.readOnly c monitor = .ok b' ∧ Tracks c view s past b' exp ∧ b'.sampled = true ∧
      b'.inputs = b.inputs := by
  rw [Bench.readOnly]
  cases hb : b.sampled with
  | true => exact ⟨b, rfl, h, hb, rfl⟩
  | false =>
    obtain ⟨hregs, hqueue⟩ := h
    rw [seen, hb, if_neg Bool.false_ne_true] at hqueue
    have hquiet := hok.quiet (c.out b.regs b.inputs) (by
      rw [Circuit.trace_append, hregs]
      exact List.mem_append_right _ (List.mem_singleton.2 rfl))
    have hresults := hok.results
    rw [Circuit.trace_append, List.filterMap_append, ← hqueue, List.prefix_append_right_inj, ← hregs]
      at hresults
    obtain ⟨rest, hrest⟩ := hresults
    have hview : (c.trace b.regs [b.inputs]).filterMap view = (view (c.out b.regs b.inputs)).toList := by
      rw [Circuit.trace_cons, Circuit.trace_nil, List.filterMap_cons]
      cases view (c.out b.regs b.inputs) <;> rfl
    rw [hview] at hrest
    rw [if_neg Bool.false_ne_true, ← hrest, hmonitor _ _ hquiet]
    refine ⟨_, rfl, ⟨hregs, ?_⟩, rfl, rfl⟩
    rw [seen, if_pos rfl, Circuit.trace_append, List.filterMap_append, ← hregs, hview, List.append_assoc,
      hrest, hqueue]

theorem Tracks.risingEdge (h : Tracks c view s past b exp)
    (hok : Agrees c alarm view s (past ++ [b.inputs]) exp) :
    ∃ b', b.risingEdge c monitor = .ok b' ∧ Tracks c view s (past ++ [b.inputs]) b' exp ∧
      b'.sampled = false ∧ b'.inputs = b.inputs := by
  obtain ⟨b', hb', ⟨hregs, hqueue⟩, hsampled, hinputs⟩ := h.readOnly hmonitor hok
  rw [seen, hsampled, if_pos rfl, hinputs] at hqueue
  rw [Bench.risingEdge, hb']
  refine ⟨_, rfl, ⟨?_, hqueue⟩, rfl, hinputs⟩
  rw [Circuit.run_append, ← hregs, hinputs]
  rfl

theorem Tracks.drive (h : Tracks c view s past b exp) (hb : b.sampled = false)
    (hok : Agrees c alarm view s (past ++ is) exp) :
    ∃ b', b.drive c monitor is = .ok b' ∧ Tracks c view s (past ++ is) b' exp ∧ b'.sampled = false := by
  induction is generalizing past b with
  | nil =>
    rw [List.append_nil]
    exact ⟨b, rfl, h, hb⟩
  | cons i is ih =>
    rw [List.append_cons] at hok ⊢
    obtain ⟨b', hb', htracks, hsampled, -⟩ := (h.inputs hb i).risingEdge hmonitor hok.left
    obtain ⟨b'', hb'', hdone⟩ := ih htracks hsampled hok
    refine ⟨b'', ?_, hdone⟩
    rw [Bench.drive, hb']
    exact hb''

theorem Tracks.nextReadOnly (h : Tracks c view s past b exp)
    (hok : Agrees c alarm view s (past ++ [b.inputs] ++ [b.inputs]) exp) :
    ∃ b', b.nextReadOnly c monitor = .ok b' ∧ Tracks c view s (past ++ [b.inputs]) b' exp ∧
      b'.inputs = b.inputs := by
  obtain ⟨b', hb', htracks, -, hinputs⟩ := h.risingEdge hmonitor hok.left
  rw [← hinputs] at hok htracks
  obtain ⟨b'', hb'', htracks', -, hinputs'⟩ := htracks.readOnly hmonitor hok
  rw [Bench.nextReadOnly, hb', ← hinputs]
  exact ⟨b'', hb'', htracks', hinputs'⟩

/-- **The wait ends.** -/
theorem Tracks.await (timeout : ε) {n left : ℕ} (h : Tracks c view s past b exp)
    (hok : ∀ k, Agrees c alarm view s (past ++ List.replicate k b.inputs) exp)
    (hall : (c.trace s (past ++ List.replicate n b.inputs)).filterMap view = exp) (hleft : n < left) :
    ∃ k b', b.await c monitor timeout left = .ok b' ∧
      Tracks c view s (past ++ List.replicate k b.inputs) b' exp ∧ b'.expected = [] ∧
      b'.inputs = b.inputs := by
  induction n generalizing left past b with
  | zero =>
    obtain ⟨left, rfl⟩ := Nat.exists_eq_add_of_lt hleft
    rw [List.replicate_zero, List.append_nil] at hall
    have hb := h.expected_nil hall
    refine ⟨0, b, ?_, ?_, hb, rfl⟩
    · rw [Bench.await, hb]
      rfl
    · rw [List.replicate_zero, List.append_nil]
      exact h
  | succ n ih =>
    obtain ⟨left, rfl⟩ := Nat.exists_eq_succ_of_ne_zero (Nat.ne_zero_of_lt hleft)
    by_cases hb : b.expected = []
    · refine ⟨0, b, ?_, ?_, hb, rfl⟩
      · rw [Bench.await, hb]
        rfl
      · rw [List.replicate_zero, List.append_nil]
        exact h
    · have hshift : ∀ k, past ++ List.replicate (k + 1) b.inputs =
          past ++ [b.inputs] ++ List.replicate k b.inputs := fun k => by
        rw [List.replicate_succ, List.append_cons]
      have htwo := hok 2
      rw [hshift] at htwo
      obtain ⟨b', hb', htracks, hinputs⟩ := h.nextReadOnly hmonitor htwo
      rw [hshift, ← hinputs] at hall
      rw [← hinputs] at htracks
      have hok' : ∀ k, Agrees c alarm view s (past ++ [b'.inputs] ++ List.replicate k b'.inputs) exp := by
        intro k
        rw [hinputs, ← hshift]
        exact hok (k + 1)
      obtain ⟨k, b'', hb'', hdone⟩ := ih htracks hok' hall (Nat.lt_of_succ_lt_succ hleft)
      refine ⟨k + 1, b'', ?_, ?_⟩
      · have hne : ¬ b.expected.isEmpty = true := fun he => hb (List.isEmpty_iff.1 he)
        rw [Bench.await, if_neg hne, hb']
        exact hb''
      · rw [hinputs] at hdone
        rw [hshift]
        exact hdone

end Monitor

end Bench

end ItchOrderBook
