import ItchOrderBook.Framing.Beats
import ItchOrderBook.Framing.Transport

/-!
# The driver of the device

`dut_send_pkt` of `axis_driver.py` sends a packet to the device in big-endian words, the last one padded
with zeros. As that of the reference, it drops `tvalid` at random before a word. Its words carry the packet
(`carries_words`).
-/

namespace ItchOrderBook.Sim

open Framing (Carries keep length_paddedData totalWords_bounds word)
open Ref (Byte paddedData paddingLen slice totalWords)
open Rtl (Axis)

/-- The signals without a word. -/
def noWord : Axis := ⟨false, false, 0xDEADBEEF, 0⟩

/-- `tkeep_value` of a word: the stream goes from left to right. -/
def tkeepValue (byteData : List Byte) (wordIdx : ℕ) : BitVec 4 :=
  if wordIdx = totalWords byteData - 1 ∧ paddingLen byteData > 0 then
    0xF ^^^ BitVec.ofNat 4 ((1 <<< paddingLen byteData) - 1)
  else 0xF

/-- The signals of a word. -/
def wordAxis (byteData : List Byte) (wordIdx : ℕ) : Axis where
  tvalid := true
  tlast := wordIdx = totalWords byteData - 1
  tdata := BitVec.ofNat 32 (Ref.fromBytes (slice (paddedData byteData) (wordIdx * 4) (wordIdx * 4 + 4)))
  tkeep := tkeepValue byteData wordIdx

/-- The words of a packet, with the number of cycles without `tvalid` before each one. -/
def words (byteData : List Byte) (drops : ℕ → ℕ) : List Axis :=
  (List.range (totalWords byteData)).flatMap fun wordIdx =>
    List.replicate (drops wordIdx) noWord ++ [wordAxis byteData wordIdx]

variable {data p rest : List Byte}

/-! ### The first word of a longer packet -/

theorem paddingLen_append (hp : p.length = 4) : paddingLen (p ++ rest) = paddingLen rest := by
  rw [paddingLen, paddingLen, List.length_append, hp, Nat.add_mod_left]

theorem paddedData_append (hp : p.length = 4) : paddedData (p ++ rest) = p ++ paddedData rest := by
  rw [paddedData, paddingLen_append hp, List.append_assoc, ← paddedData]

theorem totalWords_append (hp : p.length = 4) : totalWords (p ++ rest) = totalWords rest + 1 := by
  rw [totalWords, paddedData_append hp, List.length_append, hp, Nat.add_comm, Nat.add_div_right _ (by decide)]
  rfl

theorem wordAxis_zero (hp : p.length = 4) (hrest : rest ≠ []) :
    wordAxis (p ++ rest) 0 = ⟨true, false, word p, 0xF⟩ := by
  obtain ⟨-, -, hpos, -⟩ := totalWords_bounds hrest
  have hlast : ¬ 0 = totalWords (p ++ rest) - 1 := by
    rw [totalWords_append hp]
    omega
  have hslice : slice (paddedData (p ++ rest)) (0 * 4) (0 * 4 + 4) = p := by
    rw [paddedData_append hp, Nat.zero_mul, Nat.zero_add, slice, List.drop_zero, ← hp, List.take_left]
  have htkeep : tkeepValue (p ++ rest) 0 = 0xF := if_neg fun h => hlast h.1
  rw [wordAxis, htkeep, decide_eq_false hlast, hslice]
  rfl

theorem wordAxis_succ (hp : p.length = 4) (hrest : rest ≠ []) (k : ℕ) :
    wordAxis (p ++ rest) (k + 1) = wordAxis rest k := by
  obtain ⟨-, -, hpos, -⟩ := totalWords_bounds hrest
  have hlast : k + 1 = totalWords (p ++ rest) - 1 ↔ k = totalWords rest - 1 := by
    rw [totalWords_append hp]
    omega
  have hslice : slice (paddedData (p ++ rest)) ((k + 1) * 4) ((k + 1) * 4 + 4) =
      slice (paddedData rest) (k * 4) (k * 4 + 4) := by
    have hpos : (k + 1) * 4 = p.length + k * 4 := by omega
    rw [paddedData_append hp, Ref.slice_eq_take_drop, Ref.slice_eq_take_drop, hpos, List.drop_length_add_append]
  have htkeep : tkeepValue (p ++ rest) (k + 1) = tkeepValue rest k := by
    simp only [tkeepValue, hlast, paddingLen_append hp]
  rw [wordAxis, wordAxis, htkeep, hslice, decide_eq_decide.2 hlast]

/-! ### The last word -/

theorem wordAxis_last (hne : data ≠ []) (hlen : data.length ≤ 4) :
    totalWords data = 1 ∧ wordAxis data 0 =
      ⟨true, true, word (data ++ List.replicate (4 - data.length) 0), keep data.length⟩ := by
  obtain ⟨-, -, hpos, hfill⟩ := totalWords_bounds hne
  have hlenpos := List.length_pos_of_ne_nil hne
  have hpad : paddingLen data = 4 - data.length := by
    rw [paddingLen]
    omega
  have htotal : totalWords data = 1 := by omega
  have hslice : slice (paddedData data) (0 * 4) (0 * 4 + 4) = paddedData data := by
    rw [Nat.zero_mul, Nat.zero_add, slice, List.drop_zero, List.take_of_length_le]
    rw [length_paddedData, htotal]
  have htkeep : tkeepValue data 0 = keep data.length := by
    rw [tkeepValue, htotal, hpad]
    interval_cases data.length <;> rfl
  refine ⟨htotal, ?_⟩
  rw [wordAxis, htkeep, hslice, htotal, paddedData, hpad]
  rfl

/-- **The words carry the packet.** -/
theorem carries_words (h : data ≠ []) :
    Carries data ((List.range (totalWords data)).map (wordAxis data)) := by
  induction hn : data.length using Nat.strong_induction_on generalizing data with
  | _ n ih =>
    rcases Nat.lt_or_ge 4 data.length with hlong | hshort
    · obtain ⟨p, rest, hp, hrest, rfl⟩ : ∃ p rest : List Byte, p.length = 4 ∧ rest ≠ [] ∧
          data = p ++ rest := by
        refine ⟨data.take 4, data.drop 4, ?_, ?_, (List.take_append_drop 4 data).symm⟩
        · rw [List.length_take, Nat.min_eq_left hlong.le]
        · rw [ne_eq, List.drop_eq_nil_iff, not_le]
          exact hlong
      rw [List.length_append, hp] at hn
      have htail : (List.range (totalWords rest)).map (wordAxis (p ++ rest) ∘ Nat.succ) =
          (List.range (totalWords rest)).map (wordAxis rest) :=
        List.map_congr_left fun k _ => wordAxis_succ hp hrest k
      rw [totalWords_append hp, List.range_succ_eq_map, List.map_cons, List.map_map, htail,
        wordAxis_zero hp hrest]
      exact .more hp (ih rest.length (by omega) hrest rfl)
    · obtain ⟨htotal, hlast⟩ := wordAxis_last h hshort
      rw [htotal, List.range_one, List.map_singleton, hlast]
      refine .last h ?_
      rw [List.length_replicate]
      omega

/-- The words with the dropped cycles carry the packet. -/
theorem carries_drops (h : data ≠ []) (drops : ℕ → ℕ) :
    Carries data ((words data drops).filter fun axis => axis.tvalid) := by
  have hfilter : (words data drops).filter (fun axis => axis.tvalid) =
      (List.range (totalWords data)).map (wordAxis data) := by
    rw [words, List.filter_flatMap, List.map_eq_flatMap]
    refine List.flatMap_congr fun k _ => ?_
    rw [List.filter_append, List.filter_replicate_of_neg (by decide)]
    rfl
  rw [hfilter]
  exact carries_words h

end ItchOrderBook.Sim
