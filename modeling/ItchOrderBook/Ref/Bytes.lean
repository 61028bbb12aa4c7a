import Mathlib.Data.Nat.Notation
import Mathlib.Data.List.Basic
import Mathlib.Algebra.Order.Ring.Int

/-!
# Byte strings

Python's `bytes` are lists of bytes, its slices clamp to the length, and `int.from_bytes` reads
the most significant byte first, as `int.to_bytes` writes it.
-/

namespace ItchOrderBook.Ref

/-- A byte. -/
abbrev Byte := BitVec 8

/-- `data[i:j]`. -/
def slice (data : List Byte) (i j : ℕ) : List Byte := (data.take j).drop i

/-- `int.from_bytes(data, "big")`. -/
def fromBytes (data : List Byte) : ℕ := data.foldl (fun n b => 256 * n + b.toNat) 0

/-- `int.to_bytes(value, length, "big")` of a value that fits. -/
def toBytes : ℕ → ℕ → List Byte
  | 0, _ => []
  | length + 1, value => toBytes length (value / 256) ++ [BitVec.ofNat 8 value]

/-- `chr(b)` for a byte. -/
def chr (b : Byte) : Char := Char.ofNat b.toNat

theorem length_slice (data : List Byte) (i j : ℕ) :
    (slice data i j).length = min j data.length - i := by
  simp [slice]

theorem slice_eq_take_drop (data : List Byte) (i n : ℕ) :
    slice data i (i + n) = (data.drop i).take n := by
  rw [slice, List.drop_take]
  congr 1
  omega

/-- A slice between two known positions. -/
theorem slice_append {a m c : List Byte} {i j : ℕ} (hi : i = a.length) (hj : j = i + m.length) :
    slice (a ++ m ++ c) i j = m := by
  rw [hj, slice_eq_take_drop, hi, List.append_assoc, List.drop_left, List.take_left]

theorem slice_append_slice (data : List Byte) {i j k : ℕ} (hij : i ≤ j) (hjk : j ≤ k) :
    slice data i j ++ slice data j k = slice data i k := by
  obtain ⟨a, rfl⟩ := Nat.exists_eq_add_of_le hij
  obtain ⟨b, rfl⟩ := Nat.exists_eq_add_of_le hjk
  rw [Nat.add_assoc, slice_eq_take_drop, slice_eq_take_drop, ← Nat.add_assoc, slice_eq_take_drop,
    List.take_add, List.drop_drop]

/-- A slice of a slice. -/
theorem slice_slice (data : List Byte) {i j k l : ℕ} (h : i + l ≤ j) :
    slice (slice data i j) k l = slice data (i + k) (i + l) := by
  simp only [slice, List.drop_take, List.take_take, List.drop_drop]
  congr 1
  omega

theorem fromBytes_append (data : List Byte) (b : Byte) :
    fromBytes (data ++ [b]) = 256 * fromBytes data + b.toNat := by
  simp [fromBytes]

theorem length_toBytes (n v : ℕ) : (toBytes n v).length = n := by
  induction n generalizing v with
  | zero => rfl
  | succ n ih => rw [toBytes, List.length_append, ih, List.length_singleton]

/-- The bytes of a value that fits are read back as the value. -/
theorem fromBytes_toBytes {n v : ℕ} (hv : v < 256 ^ n) : fromBytes (toBytes n v) = v := by
  induction n generalizing v with
  | zero =>
    rw [Nat.pow_zero, Nat.lt_one_iff] at hv
    exact hv.symm
  | succ n ih =>
    rw [Nat.pow_succ] at hv
    have hmod : (BitVec.ofNat 8 v).toNat = v % 256 := BitVec.toNat_ofNat v 8
    rw [toBytes, fromBytes_append, ih (Nat.div_lt_of_lt_mul (by omega)), hmod]
    omega

/-- The bytes of a bit vector are read back as its value. -/
theorem fromBytes_toNat {n w : ℕ} (hw : w = 8 * n) (x : BitVec w) :
    fromBytes (toBytes n x.toNat) = x.toNat := by
  refine fromBytes_toBytes (lt_of_lt_of_eq x.isLt ?_)
  rw [hw, Nat.pow_mul]

end ItchOrderBook.Ref
