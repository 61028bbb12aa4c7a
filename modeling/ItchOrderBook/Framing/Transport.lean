import ItchOrderBook.Lib.BigEndian
import ItchOrderBook.Lib.Clocked
import ItchOrderBook.Ref.AxisInterpreter
import Mathlib.Tactic.IntervalCases

/-!
# Packets over the reference AXI stream

The driver cuts a packet into words, and the interpreter puts their bytes together again. Between two
packets its buffer is empty; while a packet is sent it holds the bytes of the words so far
(`run_words`). So every packet is handed on once, with its last word (`trace_sendPackets`).
-/

namespace ItchOrderBook.Framing

open Ref (BusCycle Byte paddedData paddingLen refAxisSendPacket slice tkeepValue totalWords
  wordCycle)

/-- The interpreter, one bus cycle at a time: what it hands to the callback. -/
def axisInterpreter : Circuit (List Byte) BusCycle (Option (List Byte)) where
  next buffer c := (Ref.AxisInterpreter.processBusCycle buffer c true).2
  out buffer c := (Ref.AxisInterpreter.processBusCycle buffer c true).1

/-! ### Words -/

/-- A byte of a little-endian word. -/
theorem extract_little {chunk : List Byte} (hlen : chunk.length = 4) {i : ℕ} (hi : i < chunk.length) :
    (BitVec.ofNat 32 (Ref.fromBytesLittle chunk)).extractLsb' (8 * i) 8 = chunk[i] := by
  have hword : BitVec.ofNat 32 (Ref.fromBytesLittle chunk) = bits 32 chunk.reverse := rfl
  have hsplit : chunk.reverse = (chunk.drop (i + 1)).reverse ++ [chunk[i]] ++
      (chunk.take i).reverse := by
    rw [List.append_assoc, ← List.reverse_singleton, ← List.reverse_append, ← List.reverse_append,
      List.append_assoc, List.singleton_append, List.getElem_cons_drop, List.take_append_drop]
  rw [hword, hsplit]
  refine (extract_bits (k := 8) _ _ _ (by omega) ?_ rfl).trans (bits_singleton _)
  rw [List.length_reverse, List.length_take, hlen]
  omega

/-- The bytes of a word that its `tkeep` selects. -/
theorem kept_eq {chunk : List Byte} (hlen : chunk.length = 4) {n : ℕ} (hn : n ≤ 4) {c : BusCycle}
    (hdata : c.tdata = BitVec.ofNat 32 (Ref.fromBytesLittle chunk))
    (hkeep : ∀ i < 4, c.tkeep.getLsbD i = decide (i < n)) : c.kept = chunk.take n := by
  have hfilter : (List.range 4).filter (fun i => c.tkeep.getLsbD i) = List.range n := by
    have hcongr : (List.range 4).filter (fun i => c.tkeep.getLsbD i) =
        (List.range 4).filter fun i => decide (i < n) :=
      List.filter_congr fun i hi => hkeep i (List.mem_range.1 hi)
    rw [hcongr]
    interval_cases n <;> rfl
  rw [BusCycle.kept, hfilter, hdata]
  apply List.ext_getElem
  · rw [List.length_map, List.length_range, List.length_take, hlen]
    omega
  · intro i hi hi'
    rw [List.length_map, List.length_range] at hi
    rw [List.getElem_map, List.getElem_range, extract_little hlen (by omega), List.getElem_take]

section Packet

variable {data : List Byte}

/-- The padded packet fills its words. -/
theorem length_paddedData (data : List Byte) : (paddedData data).length = 4 * totalWords data := by
  have h : (paddedData data).length = data.length + (4 - data.length % 4) % 4 := by
    rw [paddedData, List.length_append, List.length_replicate, paddingLen]
  rw [totalWords, h]
  omega

theorem totalWords_bounds (hdata : data ≠ []) :
    4 * (totalWords data - 1) < data.length ∧ data.length ≤ 4 * totalWords data ∧
      0 < totalWords data ∧ 4 * totalWords data = data.length + paddingLen data := by
  have hpos := List.length_pos_of_ne_nil hdata
  have h := length_paddedData data
  rw [paddedData, List.length_append, List.length_replicate] at h
  have hpad : paddingLen data = (4 - data.length % 4) % 4 := rfl
  omega

/-- The bytes of a word of the packet. -/
theorem kept_wordCycle (hdata : data ≠ []) {k : ℕ} (hk : k < totalWords data) :
    (wordCycle data k).kept = (data.drop (4 * k)).take 4 := by
  obtain ⟨h1, h2, h3, h4⟩ := totalWords_bounds hdata
  have hpad : paddingLen data < 4 := Nat.mod_lt _ (by decide)
  have hchunk : (slice (paddedData data) (k * 4) (k * 4 + 4)).length = 4 := by
    rw [Ref.length_slice, length_paddedData]
    omega
  have htake : ∀ n, k * 4 + n ≤ data.length → n ≤ 4 →
      (slice (paddedData data) (k * 4) (k * 4 + 4)).take n = (data.drop (4 * k)).take n := by
    intro n hn hn4
    rw [Ref.slice_eq_take_drop, List.take_take, Nat.min_eq_left hn4, paddedData,
      List.drop_append_of_le_length (by omega), List.take_append_of_le_length, Nat.mul_comm]
    rw [List.length_drop]
    omega
  by_cases hlast : k = totalWords data - 1 ∧ paddingLen data > 0
  · -- the padded word
    have hkeep : tkeepValue data k = BitVec.ofNat 4 ((1 <<< (4 - paddingLen data)) - 1) := if_pos hlast
    rw [kept_eq hchunk (show 4 - paddingLen data ≤ 4 by omega) rfl, htake _ (by omega) (by omega)]
    · rw [List.take_of_length_le, List.take_of_length_le]
      · rw [List.length_drop]
        omega
      · rw [List.length_drop]
        omega
    · intro i hi
      have hval : (wordCycle data k).tkeep = tkeepValue data k := rfl
      rw [hval, hkeep]
      have hlo := hlast.2
      interval_cases paddingLen data <;> interval_cases i <;> rfl
  · have hkeep : tkeepValue data k = 0xF := if_neg hlast
    rw [kept_eq hchunk (le_refl 4) rfl, htake 4 (by omega) le_rfl]
    intro i hi
    have hval : (wordCycle data k).tkeep = tkeepValue data k := rfl
    rw [hval, hkeep]
    interval_cases i <;> rfl

/-! ### The words of a packet -/

/-- The cycles of a word, with the cycles before it in which `tvalid` is dropped. -/
def wordCycles (data : List Byte) (drops : ℕ → ℕ) (k : ℕ) : List BusCycle :=
  List.replicate (drops k) ⟨0, false, false, tkeepValue data k⟩ ++ [wordCycle data k]

variable (buffer : List Byte) (drops : ℕ → ℕ)

/-- Cycles without `tvalid` are not seen. -/
theorem run_idle (n : ℕ) (keep : BitVec 4) :
    axisInterpreter.run buffer (List.replicate n ⟨0, false, false, keep⟩) = buffer ∧
      axisInterpreter.trace buffer (List.replicate n ⟨0, false, false, keep⟩) =
        List.replicate n none := by
  induction n with
  | zero => exact ⟨rfl, rfl⟩
  | succ n ih =>
    rw [List.replicate_succ, List.replicate_succ, Circuit.run_cons, Circuit.trace_cons]
    exact ⟨ih.1, congrArg (none :: ·) ih.2⟩

/-- One word: its bytes are added to the buffer, or the packet is handed on. -/
theorem run_word (data : List Byte) (k : ℕ) :
    axisInterpreter.run buffer (wordCycles data drops k) =
        (if k = totalWords data - 1 then [] else buffer ++ (wordCycle data k).kept) ∧
      axisInterpreter.trace buffer (wordCycles data drops k) = List.replicate (drops k) none ++
        [if k = totalWords data - 1 then some (buffer ++ (wordCycle data k).kept) else none] := by
  obtain ⟨hrun, htrace⟩ := run_idle buffer (drops k) (tkeepValue data k)
  rw [wordCycles, Circuit.run_append, Circuit.trace_append, hrun, htrace]
  have hnext : axisInterpreter.next buffer (wordCycle data k) =
      (Ref.AxisInterpreter.processBusCycle buffer (wordCycle data k) true).2 := rfl
  have hout : axisInterpreter.out buffer (wordCycle data k) =
      (Ref.AxisInterpreter.processBusCycle buffer (wordCycle data k) true).1 := rfl
  have hstep : Ref.AxisInterpreter.processBusCycle buffer (wordCycle data k) true =
      if decide (k = totalWords data - 1) then (some (buffer ++ (wordCycle data k).kept), [])
      else (none, buffer ++ (wordCycle data k).kept) := rfl
  rw [Circuit.run_cons, Circuit.run_nil, Circuit.trace_cons, Circuit.trace_nil, hnext, hout, hstep]
  by_cases hk : k = totalWords data - 1
  · rw [decide_eq_true hk, if_pos rfl, if_pos hk, if_pos hk]
    exact ⟨rfl, rfl⟩
  · rw [decide_eq_false hk, if_neg Bool.false_ne_true, if_neg hk, if_neg hk]
    exact ⟨rfl, rfl⟩

/-- **The buffer while a packet is sent.** Up to its last word it holds the bytes of the words so far. -/
theorem run_words (hdata : data ≠ []) {k : ℕ} (hk : k < totalWords data) :
    axisInterpreter.run [] ((List.range k).flatMap (wordCycles data drops)) = data.take (4 * k) ∧
      axisInterpreter.trace [] ((List.range k).flatMap (wordCycles data drops)) =
        List.replicate ((List.range k).flatMap (wordCycles data drops)).length none := by
  induction k with
  | zero => exact ⟨rfl, rfl⟩
  | succ k ih =>
    obtain ⟨hrun, htrace⟩ := ih (Nat.lt_of_succ_lt hk)
    obtain ⟨hword, hwtrace⟩ := run_word (data.take (4 * k)) drops data k
    have hlast : k ≠ totalWords data - 1 := by omega
    rw [if_neg hlast, kept_wordCycle hdata (Nat.lt_of_succ_lt hk), ← List.take_add] at hword
    rw [if_neg hlast] at hwtrace
    rw [List.range_succ, List.flatMap_append, List.flatMap_singleton, Circuit.run_append,
      Circuit.trace_append, hrun, htrace, hword, hwtrace]
    refine ⟨rfl, ?_⟩
    rw [← List.replicate_succ', List.replicate_append_replicate, List.length_append]
    congr 2
    rw [wordCycles, List.length_append, List.length_replicate, List.length_singleton]

/-- **One packet** is handed on with its last word, and leaves the buffer empty. -/
theorem run_packet (hdata : data ≠ []) (drops : ℕ → ℕ) :
    axisInterpreter.run [] (refAxisSendPacket data drops) = [] ∧
      axisInterpreter.trace [] (refAxisSendPacket data drops) =
        List.replicate ((refAxisSendPacket data drops).length - 1) none ++ [some data] := by
  obtain ⟨h1, h2, h3, -⟩ := totalWords_bounds hdata
  obtain ⟨k, hk⟩ : ∃ k, totalWords data = k + 1 := ⟨totalWords data - 1, by omega⟩
  have hsend : refAxisSendPacket data drops =
      (List.range k).flatMap (wordCycles data drops) ++ wordCycles data drops k := by
    rw [refAxisSendPacket, hk, List.range_succ, List.flatMap_append, List.flatMap_singleton]
    rfl
  obtain ⟨hrun, htrace⟩ := run_words drops hdata (show k < totalWords data by omega)
  obtain ⟨hword, hwtrace⟩ := run_word (data.take (4 * k)) drops data k
  have hlast : k = totalWords data - 1 := by omega
  have hbytes : data.take (4 * k) ++ (wordCycle data k).kept = data := by
    rw [kept_wordCycle hdata (by omega), ← List.take_add, List.take_of_length_le (by omega)]
  rw [if_pos hlast] at hword
  rw [if_pos hlast, hbytes] at hwtrace
  rw [hsend, Circuit.run_append, Circuit.trace_append, hrun, htrace, hword, hwtrace]
  refine ⟨rfl, ?_⟩
  rw [← List.append_assoc, List.replicate_append_replicate]
  congr 2
  rw [List.length_append, wordCycles, List.length_append, List.length_replicate,
    List.length_singleton]
  omega

end Packet

/-- **The transport is lossless.** Packets are sent one after another, each with its own pattern of dropped
cycles: the interpreter calls its callback once for each, on the last word, with the bytes of the packet. -/
theorem trace_sendPackets {packets : List (List Byte × (ℕ → ℕ))} (h : ∀ p ∈ packets, p.1 ≠ []) :
    axisInterpreter.trace [] (packets.flatMap fun p => refAxisSendPacket p.1 p.2) =
      packets.flatMap fun p =>
        List.replicate ((refAxisSendPacket p.1 p.2).length - 1) none ++ [some p.1] := by
  induction packets with
  | nil => rfl
  | cons p packets ih =>
    obtain ⟨hp, hrest⟩ := List.forall_mem_cons.1 h
    obtain ⟨hrun, htrace⟩ := run_packet hp p.2
    rw [List.flatMap_cons, List.flatMap_cons, Circuit.trace_append, hrun, htrace, ih hrest]

theorem trace_sendPackets_two :
    axisInterpreter.trace [] ([([1, 2, 3, 4, 5], fun _ => 1), ([6, 7], fun _ => 0)].flatMap
      fun p : List Byte × (ℕ → ℕ) => refAxisSendPacket p.1 p.2) =
    [none, none, none, some [1, 2, 3, 4, 5], some [6, 7]] :=
  trace_sendPackets (by simp)

end ItchOrderBook.Framing
