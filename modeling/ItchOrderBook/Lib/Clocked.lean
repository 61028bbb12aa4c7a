import Mathlib.Data.List.Basic
import Mathlib.Data.Nat.Notation
import Mathlib.Algebra.Order.Ring.Int

/-!
# Clocked circuits

A circuit has registers `σ`, inputs `ι` and outputs `ο`; an output may depend on the inputs of its
cycle. `run` and `trace` follow a circuit over the cycles of a list, `state` over a stream.

Some cycles of an input are idle. A circuit whose idle cycles change nothing but its output
registers is a circuit on the rest of its state, its *core*, which sees the busy cycles only
(`Paced`): its run is a run of the core over the busy cycles, and its trace is the trace of the
core with silence woven in. Outputs that may be an error are put together by `collect`.
-/

namespace ItchOrderBook

/-- A clocked circuit: the registers after a cycle, and the outputs in it. -/
structure Circuit (σ ι ο : Type*) where
  next : σ → ι → σ
  out : σ → ι → ο

namespace Circuit

variable {σ κ ι ο : Type*} (c : Circuit σ ι ο)

/-- The registers after some cycles. -/
def run (s : σ) (is : List ι) : σ := is.foldl c.next s

/-- The outputs in some cycles. -/
def trace : σ → List ι → List ο
  | _, [] => []
  | s, i :: is => c.out s i :: trace (c.next s i) is

/-- The registers at the start of cycle `t` of a stream of inputs. -/
def state (s : σ) (u : ℕ → ι) : ℕ → σ
  | 0 => s
  | t + 1 => c.next (state s u t) (u t)

/-- A stream from a later cycle on. -/
theorem state_add (s : σ) (u : ℕ → ι) (a b : ℕ) :
    c.state s u (a + b) = c.state (c.state s u a) (fun t => u (a + t)) b := by
  induction b with
  | zero => rfl
  | succ b ih => rw [← Nat.add_assoc, state, state, ih]

@[simp] theorem run_nil (s : σ) : c.run s [] = s := rfl

@[simp] theorem run_cons (s : σ) (i : ι) (is : List ι) :
    c.run s (i :: is) = c.run (c.next s i) is := rfl

@[simp] theorem run_append (s : σ) (is js : List ι) :
    c.run s (is ++ js) = c.run (c.run s is) js := List.foldl_append

@[simp] theorem trace_nil (s : σ) : c.trace s [] = [] := rfl

@[simp] theorem trace_cons (s : σ) (i : ι) (is : List ι) :
    c.trace s (i :: is) = c.out s i :: c.trace (c.next s i) is := rfl

@[simp] theorem trace_append (s : σ) (is js : List ι) :
    c.trace s (is ++ js) = c.trace s is ++ c.trace (c.run s is) js := by
  induction is generalizing s with
  | nil => rfl
  | cons i is ih => simp [ih]

@[simp] theorem length_trace (s : σ) (is : List ι) : (c.trace s is).length = is.length := by
  induction is generalizing s with
  | nil => rfl
  | cons i is ih => simp [ih]

/-- A run over the first cycles of a stream. -/
theorem run_range (s : σ) (u : ℕ → ι) (m : ℕ) : c.run s ((List.range m).map u) = c.state s u m := by
  induction m with
  | zero => rfl
  | succ m ih =>
    rw [List.range_succ, List.map_append, run_append, ih]
    rfl

/-- The outputs in the first cycles of a stream. -/
theorem trace_range (s : σ) (u : ℕ → ι) (m : ℕ) :
    c.trace s ((List.range m).map u) = (List.range m).map fun t => c.out (c.state s u t) (u t) := by
  induction m with
  | zero => rfl
  | succ m ih =>
    rw [List.range_succ, List.map_append, trace_append, ih, run_range, List.map_append]
    rfl

theorem trace_getElem? (s : σ) (is : List ι) (t : ℕ) :
    (c.trace s is)[t]? = is[t]?.map fun i => c.out (c.run s (is.take t)) i := by
  induction is generalizing s t with
  | nil => rfl
  | cons i is ih =>
    cases t with
    | zero => rfl
    | succ t => exact ih (c.next s i) t

/-- The outputs after a cycle. -/
theorem trace_after {s : σ} {is : List ι} {t : ℕ} {i : ι} (h : is[t]? = some i) (k : ℕ) :
    (c.trace s is)[t + (k + 1)]? =
      (c.trace (c.next (c.run s (is.take t)) i) (is.drop (t + 1)))[k]? := by
  induction is generalizing s t with
  | nil => cases h
  | cons i' is ih =>
    cases t with
    | zero =>
      obtain rfl : i' = i := Option.some.inj h
      rw [Nat.zero_add]
      rfl
    | succ t =>
      rw [Nat.succ_add]
      exact ih h

theorem run_take_succ {s : σ} {is : List ι} {t : ℕ} {i : ι} (h : is[t]? = some i) :
    c.run s (is.take (t + 1)) = c.next (c.run s (is.take t)) i := by
  rw [List.take_add_one, h, run_append]
  rfl

/-! ### Properties of every cycle of a run -/

/-- `P` holds in every cycle, of the registers and the inputs in it. -/
def Along (P : σ → ι → Prop) (s : σ) (is : List ι) : Prop :=
  ∀ pre i post, is = pre ++ i :: post → P (c.run s pre) i

variable {c} {P Q A : σ → ι → Prop} {s : σ} {i : ι} {is : List ι}

theorem along_nil : c.Along P s [] := fun _ _ _ h => by simp at h

theorem along_cons : c.Along P s (i :: is) ↔ P s i ∧ c.Along P (c.next s i) is := by
  constructor
  · intro h
    exact ⟨h [] i is rfl, fun pre j post hsplit => h (i :: pre) j post (by rw [hsplit]; rfl)⟩
  · rintro ⟨hi, hs⟩ pre j post hsplit
    cases pre with
    | nil =>
      obtain ⟨rfl, -⟩ := List.cons.inj hsplit
      exact hi
    | cons i' pre =>
      obtain ⟨rfl, hrest⟩ := List.cons.inj hsplit
      exact hs pre j post hrest

/-- What holds in every cycle holds in those from some cycle on, and before it. -/
theorem Along.append {js : List ι} (h : c.Along P s (is ++ js)) :
    c.Along P s is ∧ c.Along P (c.run s is) js := by
  constructor
  · rintro pre i post rfl
    exact h pre i (post ++ js) (by simp)
  · rintro pre i post rfl
    have := h (is ++ pre) i post (by simp)
    rwa [run_append] at this

/-- What holds in every cycle holds in those from cycle `t` on. -/
theorem Along.drop (h : c.Along P s is) (t : ℕ) :
    c.Along P s (is.take t) ∧ c.Along P (c.run s (is.take t)) (is.drop t) := by
  rw [← List.take_append_drop t is] at h
  exact h.append

/-- The cycle `t` of a run. -/
theorem Along.at (h : c.Along P s is) {t : ℕ} (hi : is[t]? = some i) :
    P (c.run s (is.take t)) i := by
  obtain ⟨ht, rfl⟩ := List.getElem?_eq_some_iff.1 hi
  exact h (is.take t) is[t] (is.drop (t + 1)) (by rw [List.getElem_cons_drop, List.take_append_drop])

theorem along_of_forall (h : ∀ i ∈ is, ∀ s, P s i) : c.Along P s is :=
  fun pre i post hsplit => h i (by simp [hsplit]) _

theorem Along.and (h : c.Along P s is) (h' : c.Along Q s is) :
    c.Along (fun s i => P s i ∧ Q s i) s is :=
  fun pre i post hsplit => ⟨h pre i post hsplit, h' pre i post hsplit⟩

/-- **The exact condition for a property of runs.** If, under an invariant, a cycle with `Q` has `P`
and keeps the invariant, and a cycle without `Q` does not have `P`, then the runs with `P` in every
cycle are those with `Q` in every cycle. -/
theorem along_iff (Inv : σ → Prop)
    (hstep : ∀ s i, Inv s → A s i → Q s i → P s i ∧ Inv (c.next s i))
    (hfail : ∀ s i, Inv s → A s i → ¬ Q s i → ¬ P s i) (hs : Inv s) (ha : c.Along A s is) :
    c.Along P s is ↔ c.Along Q s is := by
  induction is generalizing s with
  | nil => exact iff_of_true along_nil along_nil
  | cons i is ih =>
    obtain ⟨hi, ha⟩ := along_cons.1 ha
    rw [along_cons, along_cons]
    by_cases hq : Q s i
    · obtain ⟨hp, hs'⟩ := hstep s i hs hi hq
      rw [ih hs' ha]
      exact ⟨fun h => ⟨hq, h.2⟩, fun h => ⟨hp, h.2⟩⟩
    · exact ⟨fun h => absurd h.1 (hfail s i hs hi hq), fun h => absurd h.1 hq⟩

end Circuit

/-- The outputs of the busy cycles, with `silent` in the idle ones. -/
def weave {ι ο : Type*} (busy : ι → Bool) (silent : ο) : List ι → List ο → List ο
  | [], _ => []
  | i :: is, os =>
    if busy i then
      match os with
      | [] => silent :: weave busy silent is []
      | o :: os => o :: weave busy silent is os
    else silent :: weave busy silent is os

section Weave

variable {ι ο : Type*} {busy : ι → Bool} {silent : ο}

theorem mem_weave {o : ο} (ho : o ≠ silent) {is : List ι} {os : List ο}
    (hlen : os.length = (is.filter busy).length) : o ∈ weave busy silent is os ↔ o ∈ os := by
  induction is generalizing os with
  | nil =>
    rw [List.eq_nil_of_length_eq_zero hlen]
    rfl
  | cons i is ih =>
    by_cases hi : busy i
    · rw [List.filter_cons_of_pos hi] at hlen
      cases os with
      | nil => cases hlen
      | cons o' os => simp [weave, hi, ih (Nat.succ.inj hlen)]
    · rw [List.filter_cons_of_neg hi] at hlen
      simp [weave, hi, ih hlen, ho]

theorem map_weave {ο' : Type*} (f : ο → ο') (is : List ι) (os : List ο) :
    (weave busy silent is os).map f = weave busy (f silent) is (os.map f) := by
  induction is generalizing os with
  | nil => rfl
  | cons i is ih =>
    by_cases hi : busy i
    · cases os <;> simp [weave, hi, ih]
    · simp [weave, hi, ih]

/-- What an output stream without its silence says. -/
theorem filterMap_weave {α : Type*} {f : ο → Option α} (hf : f silent = none) {is : List ι} {os : List ο}
    (hlen : os.length = (is.filter busy).length) :
    (weave busy silent is os).filterMap f = os.filterMap f := by
  induction is generalizing os with
  | nil =>
    rw [List.eq_nil_of_length_eq_zero hlen]
    rfl
  | cons i is ih =>
    by_cases hi : busy i
    · rw [List.filter_cons_of_pos hi] at hlen
      cases os with
      | nil => cases hlen
      | cons o os => simp only [weave, hi, if_true, List.filterMap_cons, ih (Nat.succ.inj hlen)]
    · rw [List.filter_cons_of_neg hi] at hlen
      simp only [weave, hi, Bool.false_eq_true, if_false, List.filterMap_cons, hf, ih hlen]

end Weave

/-- Where `inv` holds, the circuit `c` is the circuit `k` on its core, slowed down by idle cycles. -/
structure Paced {σ κ ι ο : Type*} (c : Circuit σ ι ο) (k : Circuit κ ι ο) (core : σ → κ)
    (busy : ι → Bool) (silent : ο) (inv : σ → Prop) : Prop where
  inv_next : ∀ s i, inv s → inv (c.next s i)
  next_busy : ∀ s i, inv s → busy i → core (c.next s i) = k.next (core s) i
  next_idle : ∀ s i, inv s → ¬ busy i → core (c.next s i) = core s
  out_busy : ∀ s i, inv s → busy i → c.out s i = k.out (core s) i
  out_idle : ∀ s i, inv s → ¬ busy i → c.out s i = silent

namespace Paced

variable {σ κ ι ο : Type*} {c : Circuit σ ι ο} {k : Circuit κ ι ο} {core : σ → κ}
  {busy : ι → Bool} {silent : ο} {inv : σ → Prop}

/-- **The core of a run is a run of the core.** -/
theorem core_run (h : Paced c k core busy silent inv) {s : σ} (hs : inv s) (is : List ι) :
    core (c.run s is) = k.run (core s) (is.filter busy) := by
  induction is generalizing s with
  | nil => rfl
  | cons i is ih =>
    have hs' := h.inv_next s i hs
    by_cases hi : busy i
    · rw [List.filter_cons_of_pos hi, c.run_cons, k.run_cons, ih hs', h.next_busy s i hs hi]
    · rw [List.filter_cons_of_neg hi, c.run_cons, ih hs', h.next_idle s i hs hi]

/-- **The trace is the trace of the core, with silence in the idle cycles.** -/
theorem trace_eq (h : Paced c k core busy silent inv) {s : σ} (hs : inv s) (is : List ι) :
    c.trace s is = weave busy silent is (k.trace (core s) (is.filter busy)) := by
  induction is generalizing s with
  | nil => rfl
  | cons i is ih =>
    have hs' := h.inv_next s i hs
    by_cases hi : busy i
    · rw [List.filter_cons_of_pos hi, c.trace_cons, k.trace_cons, ih hs', h.next_busy s i hs hi,
        h.out_busy s i hs hi]
      simp only [weave, hi, if_true]
    · rw [List.filter_cons_of_neg hi, c.trace_cons, ih hs', h.next_idle s i hs hi,
        h.out_idle s i hs hi]
      simp only [weave, hi, Bool.false_eq_true, if_false]

end Paced

/-! ### Outputs that may be an error -/

section Collect

variable {α : Type*}

/-- The outputs one after the other, unless one of them is an error. -/
def collect : List (Option (List α)) → Option (List α)
  | [] => some []
  | o :: os => o.bind fun a => (collect os).map (a ++ ·)

@[simp] theorem collect_nil : collect ([] : List (Option (List α))) = some [] := rfl

@[simp] theorem collect_cons_none (os : List (Option (List α))) : collect (none :: os) = none := rfl

@[simp] theorem collect_cons_some (a : List α) (os : List (Option (List α))) :
    collect (some a :: os) = (collect os).map (a ++ ·) := rfl

theorem collect_append (os os' : List (Option (List α))) :
    collect (os ++ os') = (collect os).bind fun a => (collect os').map (a ++ ·) := by
  induction os with
  | nil => simp
  | cons o os ih =>
    cases o with
    | none => rfl
    | some a =>
      rw [List.cons_append, collect_cons_some, collect_cons_some, ih]
      cases collect os <;> cases collect os' <;> simp

theorem collect_ne_none {os : List (Option (List α))} :
    collect os ≠ none ↔ ∀ o ∈ os, o ≠ none := by
  induction os with
  | nil => simp
  | cons o os ih =>
    cases o with
    | none => simp
    | some a => simpa using ih

theorem collect_weave {ι : Type*} {busy : ι → Bool} {is : List ι} {os : List (Option (List α))}
    (hlen : os.length = (is.filter busy).length) :
    collect (weave busy (some []) is os) = collect os := by
  induction is generalizing os with
  | nil => rw [List.eq_nil_of_length_eq_zero hlen]; rfl
  | cons i is ih =>
    by_cases hi : busy i
    · rw [List.filter_cons_of_pos hi] at hlen
      cases os with
      | nil => cases hlen
      | cons o os =>
        simp only [weave, hi, if_true]
        cases o with
        | none => rfl
        | some a => rw [collect_cons_some, collect_cons_some, ih (Nat.succ.inj hlen)]
    · rw [List.filter_cons_of_neg hi] at hlen
      simp only [weave, hi, Bool.false_eq_true, if_false, collect_cons_some, ih hlen]
      cases collect os <;> simp

end Collect

end ItchOrderBook
