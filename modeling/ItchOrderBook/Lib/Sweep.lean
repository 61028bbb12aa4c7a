import Mathlib.Data.Set.Function
import Mathlib.Order.Interval.Set.Defs
import Mathlib.Tactic.Common
import Mathlib.Algebra.Order.Ring.Int

/-!
# Sweeps over a memory

A memory that is written at one address after another: what an address holds after the sweep, and
what a memory holds that is not written. The addresses often come from a counter that runs down from
its greatest value (`Countdown`).
-/

namespace ItchOrderBook

variable {α β : Type*} {m : ℕ → α → β} {n N : ℕ}

/-- **After a sweep over different addresses, each of them holds its datum.** -/
theorem sweep_eq [DecidableEq α] (addr : ℕ → α) (data : ℕ → β)
    (hstep : ∀ t, t < N → m (t + 1) = Function.update (m t) (addr t) (data t))
    (hinj : Set.InjOn addr (Set.Iio N)) {t k : ℕ} (ht : t ≤ N) (hk : k < t) :
    m t (addr k) = data k := by
  induction t with
  | zero => exact absurd hk (Nat.not_lt_zero k)
  | succ t ih =>
    rw [hstep t ht]
    by_cases h : k = t
    · rw [h, Function.update_self]
    · -- the later write is at another address
      have hlt : k < t := Nat.lt_of_le_of_ne (Nat.le_of_lt_succ hk) h
      have hne : addr k ≠ addr t := by
        intro he
        exact h (hinj (Set.mem_Iio.2 (hlt.trans ht)) (Set.mem_Iio.2 ht) he)
      rw [Function.update_of_ne hne]
      exact ih (Nat.le_of_succ_le ht) hlt

/-- A memory that is not written keeps its contents. -/
theorem hold_eq (hstep : ∀ t, n ≤ t → t < N → m (t + 1) = m t) {t : ℕ} (hn : n ≤ t) (hN : t ≤ N) :
    m t = m n := by
  induction t, hn using Nat.le_induction with
  | base => rfl
  | succ t hnt ih => rw [hstep t hnt hN, ih (Nat.le_of_succ_le hN)]

/-! ### Counting down -/

/-- A counter that runs down from its greatest value and stays at 0, with a flag that is high until it
has been through all values. -/
structure Countdown {w : ℕ} (busy : ℕ → Bool) (count : ℕ → BitVec w) : Prop where
  busy_zero : busy 0 = true
  count_zero : count 0 = BitVec.allOnes w
  busy_succ : ∀ t, busy (t + 1) = decide (count t ≠ 0)
  count_succ : ∀ t, count (t + 1) = if busy t = true ∧ count t ≠ 0 then count t - 1 else 0

namespace Countdown

variable {w : ℕ} {busy : ℕ → Bool} {count : ℕ → BitVec w}

/-- While the flag is high, each value has its cycle. -/
theorem running (h : Countdown busy count) {t : ℕ} (ht : t < 2 ^ w) :
    busy t = true ∧ (count t).toNat = 2 ^ w - 1 - t := by
  induction t with
  | zero => exact ⟨h.busy_zero, by rw [h.count_zero, BitVec.toNat_allOnes, Nat.sub_zero]⟩
  | succ t ih =>
    obtain ⟨hb, hc⟩ := ih (Nat.lt_of_succ_lt ht)
    have hne : count t ≠ 0 := by
      intro he
      rw [he] at hc
      simp only [BitVec.ofNat_eq_ofNat, BitVec.toNat_ofNat, Nat.zero_mod] at hc
      omega
    refine ⟨by rw [h.busy_succ, decide_eq_true hne], ?_⟩
    have hw : w ≠ 0 := by
      rintro rfl
      rw [Nat.pow_zero] at ht
      omega
    have h1 : 1 % 2 ^ w = 1 := Nat.mod_eq_of_lt (Nat.one_lt_two_pow hw)
    rw [h.count_succ, if_pos ⟨hb, hne⟩, BitVec.toNat_sub, hc, BitVec.ofNat_eq_ofNat,
      BitVec.toNat_ofNat, h1, Nat.mod_eq_sub_mod (by omega), Nat.mod_eq_of_lt (by omega)]
    omega

/-- After one cycle for each value, the flag is low. -/
theorem done (h : Countdown busy count) {t : ℕ} (ht : 2 ^ w ≤ t) : busy t = false ∧ count t = 0 := by
  induction t, ht using Nat.le_induction with
  | base =>
    have hpos := Nat.two_pow_pos w
    obtain ⟨-, hc⟩ := h.running (show 2 ^ w - 1 < 2 ^ w by omega)
    have hz : count (2 ^ w - 1) = 0 := BitVec.eq_of_toNat_eq (by rw [hc, Nat.sub_self]; simp)
    rw [show 2 ^ w = 2 ^ w - 1 + 1 by omega, h.busy_succ, h.count_succ, hz]
    exact ⟨decide_eq_false fun hne => hne rfl, if_neg fun hne => hne.2 rfl⟩
  | succ t _ ih =>
    rw [h.busy_succ, h.count_succ, ih.2]
    exact ⟨decide_eq_false fun hne => hne rfl, if_neg fun hne => hne.2 rfl⟩

theorem busy_iff (h : Countdown busy count) (t : ℕ) : busy t = true ↔ t < 2 ^ w := by
  constructor
  · intro hb
    by_contra hlt
    rw [(h.done (not_lt.1 hlt)).1] at hb
    cases hb
  · exact fun ht => (h.running ht).1

/-- **A memory that is written at the counter's address holds the written datum everywhere.** -/
theorem swept {m : ℕ → BitVec w → β} {b : β} (h : Countdown busy count)
    (hm : ∀ t, t < 2 ^ w → m (t + 1) = Function.update (m t) (count t) b) (a : BitVec w) :
    m (2 ^ w) a = b := by
  have ha := a.isLt
  have hcell := sweep_eq (m := m) count (fun _ => b) hm
    (fun j hj k hk hjk => by
      have := congrArg BitVec.toNat hjk
      rw [Set.mem_Iio] at hj hk
      rw [(h.running hj).2, (h.running hk).2] at this
      omega)
    le_rfl (show 2 ^ w - 1 - a.toNat < 2 ^ w by omega)
  have hcount : count (2 ^ w - 1 - a.toNat) = a := by
    apply BitVec.eq_of_toNat_eq
    rw [(h.running (by omega)).2]
    omega
  rwa [hcount] at hcell

end Countdown

end ItchOrderBook
