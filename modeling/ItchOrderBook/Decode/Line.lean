import ItchOrderBook.Decode.Outputs
import ItchOrderBook.Framing.Beats
import Mathlib.Tactic.IntervalCases

/-!
# The shift register

The parser sees the bytes of a packet through `ip_line`, the last 44 bytes read. Positions are
counted in a list of bytes that starts with what the register held before: after `n` bytes the
register is `Reads S n`, and a field of the shifted line is a slice of `S` (`line_field`).
-/

namespace ItchOrderBook.Decode

open Ref (Byte slice)
open Rtl (DecCtrl DecBook ItchIn ItchOut ItchRegs IpState)
open Framing (word)

/-- The word behind the first `n` bytes of `S`. -/
def wordAt (S : List Byte) (loc : BitVec 16) (n : ℕ) : ItchIn :=
  ⟨true, word (slice S n (n + 4)), n + 4 = S.length, true, loc⟩

/-- The register holds the last 44 of the first `n` bytes of `S`. -/
structure Reads (S : List Byte) (n : ℕ) (q : ItchRegs) : Prop where
  le : 44 ≤ n
  aligned : n % 4 = 0
  line : q.ipLine = bits 352 (slice S (n - 44) n)

section Line

variable {S : List Byte} {n : ℕ} {q : ItchRegs} {loc : BitVec 16}

theorem ipLineD_wordAt (h : Reads S n q) (hn : n + 4 ≤ S.length) :
    q.ipLineD (wordAt S loc n) = bits 352 (slice S (n - 40) (n + 4)) := by
  have h44 := h.le
  have hold : slice S (n - 44) n = slice S (n - 44) (n - 40) ++ slice S (n - 40) n ++ [] := by
    rw [List.append_nil, Ref.slice_append_slice S (by omega) (by omega)]
  have hlen : (slice S (n - 40) n).length = 40 := by
    rw [Ref.length_slice]
    omega
  have hword : (slice S n (n + 4)).length = 4 := by
    rw [Ref.length_slice]
    omega
  have hkept := extract_bits (n := 352) (s := 0) (k := 320) (slice S (n - 44) (n - 40))
    (slice S (n - 40) n) [] (by decide) rfl (by rw [hlen])
  have hnew : slice S (n - 40) (n + 4) = slice S (n - 40) n ++ slice S n (n + 4) :=
    (Ref.slice_append_slice S (by omega) (by omega)).symm
  rw [ItchRegs.ipLineD, wordAt, if_pos rfl, h.line, hold, hkept, hnew]
  exact bits_append (n := 320) (k := 32) (by rw [hword])

/-- The bytes that the line is shifted by. -/
def shift (q : ItchRegs) : ℕ := if q.bytesLeft.toNat % 4 = 0 then 4 else q.bytesLeft.toNat % 4

theorem lineShifted_eq (q : ItchRegs) (i : ItchIn) :
    q.lineShifted i = q.ipLineD i <<< (8 * shift q) := by
  have hlow : (q.bytesLeft.extractLsb' 0 2).toNat = q.bytesLeft.toNat % 4 := by
    rw [BitVec.extractLsb'_toNat, Nat.shiftRight_zero]
  have hlt := Nat.mod_lt q.bytesLeft.toNat (show 4 > 0 by omega)
  rw [ItchRegs.lineShifted, hlow, shift]
  generalize q.bytesLeft.toNat % 4 = r at hlt
  interval_cases r <;> rfl

/-- **A field of the shifted line** is a slice of the bytes read. -/
theorem line_field (h : Reads S n q) (hn : n + 4 ≤ S.length) {s k a : ℕ} (j c : ℕ) (hs : s = 8 * j)
    (hk : k = 8 * c) (hj : shift q ≤ j) (hc : j + c ≤ 44) (ha : a + j + c = n + 4 + shift q) :
    (q.lineShifted (wordAt S loc n)).extractLsb' s k = bits k (slice S a (a + c)) := by
  have h44 := h.le
  have hlen : (slice S (n - 40) (n + 4)).length = 44 := by
    rw [Ref.length_slice]
    omega
  rw [lineShifted_eq, ipLineD_wordAt h hn, hs, hk, extract_shiftLeft (by omega) (by omega),
    ← Nat.mul_sub, extract_bits_take (j := j - shift q) (c := c) (by rw [hlen]) rfl rfl
      (by rw [hlen]; omega), hlen, ← Ref.slice_eq_take_drop, Ref.slice_slice S (by omega)]
  congr 2 <;> omega

end Line

/-! ### What every case leaves alone -/

section Frame

variable {q : ItchRegs} {i : ItchIn}

theorem comb_frame (hi : i.ipDataV = true) (hs : q.state ≠ .idle) :
    (q.comb i).ipLine = q.ipLineD i ∧
    (q.comb i).bytesLeft = (if i.ipDataTlast then 0 else q.bytesLeft - 4) ∧
    (q.comb i).msgAlt = q.msgAlt ∧
    (q.comb i).state = if q.bytesLeft < 5 then .idle else q.state := by
  rw [ItchRegs.comb, if_pos hi]
  have hcount : (q.count i).ipLine = q.ipLineD i ∧
      (q.count i).bytesLeft = (if i.ipDataTlast then 0 else q.bytesLeft - 4) ∧
      (q.count i).msgAlt = q.msgAlt ∧
      (q.count i).state = if q.bytesLeft < 5 then .idle else q.state := ⟨rfl, rfl, rfl, rfl⟩
  generalize q.count i = d at hcount
  generalize (if i.ipDataTlast then 0 else q.bytesLeft - 4) = b at hcount ⊢
  generalize (if q.bytesLeft < 5 then IpState.idle else q.state) = st at hcount ⊢
  cases h : q.state
  case idle => exact absurd h hs
  case sysEvent =>
    simp only [ItchRegs.onSysEvent]
    split_ifs <;> exact hcount
  case directory =>
    simp only [ItchRegs.onDirectory]
    split_ifs <;> exact hcount
  case tradingAction =>
    simp only [ItchRegs.onTradingAction]
    split_ifs <;> exact hcount
  case opHalt =>
    simp only [ItchRegs.onOpHalt]
    split_ifs <;> exact hcount
  case add =>
    simp only [ItchRegs.onAdd]
    split_ifs <;> exact hcount
  case execute =>
    simp only [ItchRegs.onExecute]
    split_ifs <;> exact hcount
  case executeP =>
    simp only [ItchRegs.onExecuteP]
    split_ifs <;> exact hcount
  case delete =>
    simp only [ItchRegs.onDelete]
    split_ifs <;> exact hcount
  case replace =>
    simp only [ItchRegs.onReplace]
    split_ifs <;> exact hcount
  case ignore => exact hcount

theorem comb_ipLine (hi : i.ipDataV = true) : (q.comb i).ipLine = q.ipLineD i := by
  by_cases hs : q.state = .idle
  · simp only [ItchRegs.comb, hi, if_true, hs, ItchRegs.onIdle]
    split <;> rfl
  · exact (comb_frame hi hs).1

end Frame

/-- Reading a word. -/
theorem Reads.next {S : List Byte} {n : ℕ} {q : ItchRegs} {loc : BitVec 16} (h : Reads S n q)
    (hn : n + 4 ≤ S.length) : Reads S (n + 4) (itchCore.next q (wordAt S loc n)) := by
  have h44 := h.le
  have h4 := h.aligned
  refine ⟨by omega, by omega, ?_⟩
  change (q.comb (wordAt S loc n)).ipLine = _
  rw [comb_ipLine rfl, ipLineD_wordAt h hn]
  congr 2

end ItchOrderBook.Decode
