import Mathlib.Data.List.Induction
import Mathlib.Data.Nat.Notation
import Mathlib.Tactic.Ring
import Mathlib.Algebra.Order.Ring.Int

/-!
# Big-endian words

A list of `w`-bit digits, most significant first, is a number (`bigEndian`), and so a bit vector
of any width (`bits`). A field of the bit vector is the bit vector of the digits it covers
(`extract_bits`), fields put side by side are the bit vector of their digits (`bits_append`), and a
bit vector wide enough determines the digits (`bits_inj`).
-/

namespace ItchOrderBook

variable {w : ℕ}

/-- The number with the given digits. -/
def bigEndian (l : List (BitVec w)) : ℕ := l.foldl (fun n b => 2 ^ w * n + b.toNat) 0

/-- The number with the given digits, in `n` bits. -/
def bits (n : ℕ) (l : List (BitVec w)) : BitVec n := BitVec.ofNat n (bigEndian l)

@[simp] theorem bigEndian_nil : bigEndian ([] : List (BitVec w)) = 0 := rfl

theorem bigEndian_concat (l : List (BitVec w)) (b : BitVec w) :
    bigEndian (l ++ [b]) = 2 ^ w * bigEndian l + b.toNat := by
  simp [bigEndian]

@[simp] theorem bigEndian_singleton (b : BitVec w) : bigEndian [b] = b.toNat := by
  simp [bigEndian]

theorem bigEndian_append (l m : List (BitVec w)) :
    bigEndian (l ++ m) = bigEndian l * 2 ^ (w * m.length) + bigEndian m := by
  induction m using List.reverseRecOn with
  | nil => simp
  | append_singleton m b ih =>
    rw [← List.append_assoc, bigEndian_concat, bigEndian_concat, ih, List.length_append,
      List.length_singleton]
    ring

theorem bigEndian_lt (l : List (BitVec w)) : bigEndian l < 2 ^ (w * l.length) := by
  induction l using List.reverseRecOn with
  | nil => simp
  | append_singleton l b ih =>
    have hb := b.isLt
    rw [bigEndian_concat, List.length_append, List.length_singleton, Nat.mul_add, Nat.mul_one,
      Nat.pow_add, Nat.mul_comm (2 ^ (w * l.length))]
    calc 2 ^ w * bigEndian l + b.toNat < 2 ^ w * bigEndian l + 2 ^ w := by omega
      _ = 2 ^ w * (bigEndian l + 1) := by ring
      _ ≤ 2 ^ w * 2 ^ (w * l.length) := Nat.mul_le_mul_left _ ih

/-- The digits of a field: what is before it is divided away, what is behind it cut off. -/
theorem bigEndian_field (a m c : List (BitVec w)) :
    bigEndian (a ++ m ++ c) / 2 ^ (w * c.length) % 2 ^ (w * m.length) = bigEndian m := by
  rw [bigEndian_append, Nat.mul_comm, Nat.mul_add_div (Nat.two_pow_pos _),
    Nat.div_eq_of_lt (bigEndian_lt c), Nat.add_zero, bigEndian_append, Nat.mul_comm,
    Nat.mul_add_mod, Nat.mod_eq_of_lt (bigEndian_lt m)]

theorem bigEndian_inj {l m : List (BitVec w)} (hlen : l.length = m.length)
    (h : bigEndian l = bigEndian m) : l = m := by
  induction l using List.reverseRecOn generalizing m with
  | nil => exact (List.eq_nil_of_length_eq_zero hlen.symm).symm
  | append_singleton l b ih =>
    rcases List.eq_nil_or_concat m with rfl | ⟨m, c, rfl⟩
    · simp at hlen
    · rw [List.concat_eq_append] at h hlen ⊢
      rw [bigEndian_concat, bigEndian_concat] at h
      have hmod := congrArg (· % 2 ^ w) h
      have hdiv := congrArg (· / 2 ^ w) h
      simp only [Nat.mul_add_mod, Nat.mod_eq_of_lt b.isLt, Nat.mod_eq_of_lt c.isLt] at hmod
      simp only [Nat.mul_add_div (Nat.two_pow_pos w), Nat.div_eq_of_lt b.isLt,
        Nat.div_eq_of_lt c.isLt, Nat.add_zero] at hdiv
      rw [BitVec.eq_of_toNat_eq hmod, ih (by simpa using hlen) hdiv]

/-- Every number that fits has its digits. -/
theorem exists_bigEndian (n : ℕ) {v : ℕ} (hv : v < 2 ^ (w * n)) :
    ∃ l : List (BitVec w), l.length = n ∧ bigEndian l = v := by
  induction n generalizing v with
  | zero =>
    rw [Nat.mul_zero, Nat.pow_zero, Nat.lt_one_iff] at hv
    exact ⟨[], rfl, hv.symm⟩
  | succ n ih =>
    rw [Nat.mul_add, Nat.mul_one, Nat.pow_add] at hv
    obtain ⟨l, hlen, hl⟩ := ih (Nat.div_lt_of_lt_mul (hv.trans_eq (Nat.mul_comm _ _)))
    refine ⟨l ++ [BitVec.ofNat w v], by simp [hlen], ?_⟩
    rw [bigEndian_concat, hl, BitVec.toNat_ofNat, Nat.div_add_mod]

section Bits

variable {n : ℕ} {l m : List (BitVec w)}

theorem toNat_bits (hn : w * l.length ≤ n) : (bits n l).toNat = bigEndian l := by
  rw [bits, BitVec.toNat_ofNat, Nat.mod_eq_of_lt]
  exact lt_of_lt_of_le (bigEndian_lt l) (Nat.pow_le_pow_right (by omega) hn)

theorem bits_inj (hl : w * l.length ≤ n) (hlen : l.length = m.length) :
    bits n l = bits n m ↔ l = m := by
  refine ⟨fun h => bigEndian_inj hlen ?_, fun h => by rw [h]⟩
  rw [← toNat_bits hl, ← toNat_bits (hlen ▸ hl), h]

/-- **A field of a word has the digits it covers.** -/
theorem extract_bits {s k : ℕ} (a m c : List (BitVec w)) (hn : s + k ≤ n)
    (hs : s = w * c.length) (hk : k = w * m.length) :
    (bits n (a ++ m ++ c)).extractLsb' s k = bits k m := by
  apply BitVec.eq_of_toNat_eq
  rw [BitVec.extractLsb'_toNat, bits, BitVec.toNat_ofNat, toNat_bits (le_of_eq hk.symm),
    Nat.shiftRight_eq_div_pow]
  obtain ⟨e, rfl⟩ := Nat.exists_eq_add_of_le hn
  rw [Nat.add_assoc, Nat.pow_add, Nat.mod_mul_right_div_self, Nat.pow_add, Nat.mod_mul_right_mod,
    hs, hk, bigEndian_field]

/-- A field of a word by the positions of its digits. -/
theorem extract_bits_take {s k : ℕ} {l : List (BitVec w)} {j c : ℕ} (hn : w * l.length ≤ n)
    (hs : s = w * j) (hk : k = w * c) (hj : j + c ≤ l.length) :
    (bits n l).extractLsb' s k = bits k ((l.drop (l.length - j - c)).take c) := by
  have hsplit : l = l.take (l.length - j - c) ++ (l.drop (l.length - j - c)).take c ++
      l.drop (l.length - j) := by
    rw [List.append_assoc, show l.length - j = l.length - j - c + c by omega, ← List.drop_drop,
      show l.length - j - c + c - c = l.length - j - c by omega, List.take_append_drop,
      List.take_append_drop]
  conv_lhs => rw [hsplit]
  refine extract_bits _ _ _ ?_ (by rw [hs, List.length_drop]; congr 1; omega)
    (by rw [hk, List.length_take, List.length_drop]; congr 1; omega)
  rw [hs, hk, ← Nat.mul_add]
  exact le_trans (Nat.mul_le_mul_left w hj) hn

/-- A field of a shifted word is a field of the word. -/
theorem extract_shiftLeft {x : BitVec n} {s k a : ℕ} (ha : a ≤ s) (hs : s + k ≤ n) :
    (x <<< a).extractLsb' s k = x.extractLsb' (s - a) k := by
  apply BitVec.eq_of_getLsbD_eq
  intro i hi
  simp only [BitVec.getLsbD_extractLsb', hi, decide_true, Bool.true_and, BitVec.getLsbD_shiftLeft,
    show s + i < n by omega, show ¬ s + i < a by omega, decide_false, Bool.not_false,
    show s + i - a = s - a + i by omega]

/-- **Fields side by side have their digits one after the other.** -/
theorem bits_append {k : ℕ} (hk : k = w * m.length) :
    bits n l ++ bits k m = bits (n + k) (l ++ m) := by
  apply BitVec.eq_of_toNat_eq
  have hlt : bigEndian m < 2 ^ k := hk ▸ bigEndian_lt m
  rw [BitVec.toNat_append, toNat_bits (le_of_eq hk.symm), bits, bits, BitVec.toNat_ofNat,
    BitVec.toNat_ofNat, ← Nat.shiftLeft_add_eq_or_of_lt hlt, Nat.shiftLeft_eq, bigEndian_append,
    Nat.pow_add, Nat.mul_comm (2 ^ n), ← hk]
  rw [Nat.mod_mul, Nat.mul_comm (bigEndian l), Nat.mul_add_mod, Nat.mod_eq_of_lt hlt,
    Nat.mul_add_div (Nat.two_pow_pos k), Nat.div_eq_of_lt hlt, Nat.add_zero]
  ring

theorem exists_bits {k : ℕ} (hn : n = w * k) (x : BitVec n) :
    ∃ l : List (BitVec w), l.length = k ∧ bits n l = x := by
  subst hn
  obtain ⟨l, hlen, hl⟩ := exists_bigEndian k x.isLt
  exact ⟨l, hlen, by rw [bits, hl, BitVec.ofNat_toNat, BitVec.setWidth_eq]⟩

@[simp] theorem bits_singleton (b : BitVec w) : bits w [b] = b := by
  rw [bits, bigEndian_singleton, BitVec.ofNat_toNat, BitVec.setWidth_eq]

end Bits

end ItchOrderBook
