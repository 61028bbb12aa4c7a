import ItchOrderBook.Lib.Sweep
import ItchOrderBook.Rtl.L3OrderTable

/-!
# The bypass of the line memory

A write to `l3_sdpram_wrapper` reaches the memory one cycle after it is issued, and a line is read in
two cycles. In the first of them the memory gives the line without the write that it takes in the same
cycle, and this is the write that the bypass adds (`doutb_eq`). So a line that is read has all writes
issued before the read, and words that are put into lines read in this way are never lost
(`bypass_complete`).
-/

namespace ItchOrderBook.OrderTable

open Rtl (L3Line L3RamIn L3RamOut L3RamRegs L3Word l3SdpramWrapper)

section Wrapper

variable (q : L3RamRegs) (u : ℕ → L3RamIn)

/-- The registers of the memory at the start of a cycle; the first one follows a reset. -/
def ramAt (t : ℕ) : L3RamRegs := l3SdpramWrapper.state q.reset u t

/-- The outputs of the memory in a cycle. -/
def ramOutAt (t : ℕ) : L3RamOut := l3SdpramWrapper.out (ramAt q u t) (u t)

/-- The line that a write puts in place: the given line with the word in its way. -/
def lineWritten (i : L3RamIn) : L3Line := Function.update i.line i.wordIdx i.writeWord

/-- The lines as the writes issued before a cycle leave them. The writes that the sweep overrides,
those issued before its last cycle, have no effect. -/
def written : ℕ → BitVec 11 → L3Line
  | 0 => fun _ _ => .zero
  | t + 1 =>
    if (u t).wea = true ∧ 2047 ≤ t then Function.update (written t) (u t).addra (lineWritten (u t))
    else written t

/-- The lines as the word updates issued before a cycle leave them. -/
def updated : ℕ → BitVec 11 → L3Line
  | 0 => fun _ _ => .zero
  | t + 1 =>
    if (u t).wea then
      Function.update (updated t) (u t).addra
        (Function.update (updated t (u t).addra) (u t).wordIdx (u t).writeWord)
    else updated t

/-- The counter of the sweep. -/
theorem ram_countdown : Countdown (fun t => (ramAt q u t).rstInProgress) (fun t => (ramAt q u t).count) where
  busy_zero := rfl
  count_zero := rfl
  busy_succ _ := rfl
  count_succ _ := rfl

theorem rstDone_iff (t : ℕ) : (ramOutAt q u t).rstDone = true ↔ 2048 ≤ t := by
  have hdone : (ramOutAt q u t).rstDone = !(ramAt q u t).rstInProgress := rfl
  have hbusy : (ramAt q u t).rstInProgress = true ↔ t < 2048 := (ram_countdown q u).busy_iff t
  rw [hdone, Bool.not_eq_true', ← Bool.not_eq_true, hbusy, not_lt]

/-- The write that is under way in a cycle after the sweep is the one issued in the cycle before. -/
theorem mem_succ (t : ℕ) : (ramAt q u (t + 1)).ram.mem =
    if (ramAt q u t).rstInProgress then
      Function.update (ramAt q u t).ram.mem (ramAt q u t).count fun _ => .zero
    else if (ramAt q u t).wea then
      Function.update (ramAt q u t).ram.mem (ramAt q u t).addra (ramAt q u t).dinaMod
    else (ramAt q u t).ram.mem := by
  have hnext : (ramAt q u (t + 1)).ram.mem =
      if (if (ramAt q u t).rstInProgress then true else (ramAt q u t).wea) then
        Function.update (ramAt q u t).ram.mem
          (if (ramAt q u t).rstInProgress then (ramAt q u t).count else (ramAt q u t).addra)
          (ramAt q u t).dinaNext
      else (ramAt q u t).ram.mem := rfl
  rw [hnext, L3RamRegs.dinaNext]
  cases (ramAt q u t).rstInProgress <;> rfl

/-- **The sweep** clears every line. -/
theorem mem_swept : (ramAt q u 2048).ram.mem = fun _ _ => .zero := by
  funext a
  refine (ram_countdown q u).swept (m := fun t => (ramAt q u t).ram.mem) (fun t ht => ?_) a
  have hbusy : (ramAt q u t).rstInProgress = true := ((ram_countdown q u).running ht).1
  rw [mem_succ, hbusy, if_pos rfl]

theorem written_swept {t : ℕ} (ht : t ≤ 2047) : written u t = fun _ _ => .zero := by
  induction t with
  | zero => rfl
  | succ t ih =>
    rw [written, if_neg fun h => by omega]
    exact ih (Nat.le_of_succ_le ht)

/-- The memory is one write behind. -/
theorem mem_eq {t : ℕ} (ht : 2047 ≤ t) : (ramAt q u (t + 1)).ram.mem = written u t := by
  induction t, ht using Nat.le_induction with
  | base =>
    rw [written_swept u le_rfl]
    exact mem_swept q u
  | succ t ht ih =>
    have hidle : (ramAt q u (t + 1)).rstInProgress = false :=
      ((ram_countdown q u).done (show 2048 ≤ t + 1 by omega)).1
    have hwea : (ramAt q u (t + 1)).wea = (u t).wea := rfl
    have hline : (ramAt q u (t + 1)).dinaMod = lineWritten (u t) := rfl
    rw [mem_succ, hidle, if_neg Bool.false_ne_true, ih, hline, hwea, written]
    simp only [ht, and_true]
    rfl

/-- **A read** gives, two cycles later, the line with all writes issued before it. -/
theorem doutb_eq {R : ℕ} (hR : 2048 ≤ R) :
    (ramOutAt q u (R + 2)).doutb = written u R (u R).addrb := by
  obtain ⟨t, rfl⟩ : ∃ t, R = t + 1 := ⟨R - 1, by omega⟩
  have hidle : (ramAt q u (t + 1)).rstInProgress = false := ((ram_countdown q u).done hR).1
  -- the bypass gives the write issued in the cycle before the read, the memory all those before it
  have hread : (ramOutAt q u (t + 1 + 2)).doutb =
      if (u (t + 1)).addrb = (u t).addra ∧ (u t).wea = true then (ramAt q u (t + 1)).dinaNext
      else (ramAt q u (t + 1)).ram.mem (u (t + 1)).addrb := rfl
  have hline : (ramAt q u (t + 1)).dinaNext = lineWritten (u t) := by
    rw [L3RamRegs.dinaNext, hidle]
    rfl
  rw [hread, hline, mem_eq q u (by omega), written]
  by_cases hw : (u t).wea = true
  · rw [if_pos (show (u t).wea = true ∧ 2047 ≤ t from ⟨hw, by omega⟩)]
    by_cases ha : (u (t + 1)).addrb = (u t).addra
    · rw [if_pos ⟨ha, hw⟩, ha, Function.update_self]
    · rw [if_neg fun h => ha h.1, Function.update_of_ne ha]
  · rw [if_neg fun h => hw h.2, if_neg fun h => hw h.1]

/-- Words are put into lines that were read: the writes are at least three cycles apart, and the line of a
write is the one on the output, read for its address two cycles before, after the sweep. -/
structure ReadModifyWrite : Prop where
  apart : ∀ t t', (u t).wea = true → (u t').wea = true → t < t' → t + 3 ≤ t'
  read : ∀ t, (u t).wea = true → ∃ R, t = R + 2 ∧ (ramOutAt q u R).rstDone = true ∧
    (u R).addrb = (u t).addra ∧ (u t).line = (ramOutAt q u t).doutb

variable {q u}

/-- No word update is lost. -/
theorem ReadModifyWrite.written_eq (h : ReadModifyWrite q u) (t : ℕ) : written u t = updated u t := by
  induction t with
  | zero => rfl
  | succ t ih =>
    rw [written, updated]
    by_cases hw : (u t).wea = true
    · obtain ⟨R, rfl, hdone, haddr, hline⟩ := h.read t hw
      have hR := (rstDone_iff q u R).1 hdone
      rw [if_pos (show (u (R + 2)).wea = true ∧ 2047 ≤ R + 2 from ⟨hw, by omega⟩), if_pos hw, ← ih]
      -- nothing is issued between the read and the write
      have hquiet : ∀ k, R ≤ k → k < R + 2 → (u k).wea ≠ true := by
        intro k hle hlt hk
        have := h.apart k (R + 2) hk hw hlt
        omega
      have hsame : written u (R + 2) = written u R := by
        rw [written, if_neg fun hk => hquiet (R + 1) (by omega) (by omega) hk.1,
          written, if_neg fun hk => hquiet R le_rfl (by omega) hk.1]
      rw [lineWritten, hline, doutb_eq q u hR, haddr, hsame]
    · rw [if_neg fun hk => hw hk.1, if_neg hw, ih]

end Wrapper

/-- **The bypass loses no update.** In every run of the memory after its sweep, the line on the output is
the line at the address of two cycles before as left by the writes issued before that cycle. If moreover
words are put into lines read in this way, by writes at least three cycles apart, then the lines are
always those of all word updates issued: in the memory one cycle later, and in every read. -/
theorem bypass_complete (q : L3RamRegs) (u : ℕ → L3RamIn) :
    (∀ R, (ramOutAt q u R).rstDone = true →
      (ramOutAt q u (R + 2)).doutb = written u R (u R).addrb) ∧
    (ReadModifyWrite q u → ∀ R, (ramOutAt q u R).rstDone = true →
      (ramOutAt q u (R + 2)).doutb = updated u R (u R).addrb ∧
      (ramAt q u (R + 1)).ram.mem = updated u R) := by
  refine ⟨fun R hR => doutb_eq q u ((rstDone_iff q u R).1 hR), fun h R hR => ?_⟩
  have hdone := (rstDone_iff q u R).1 hR
  rw [← h.written_eq]
  exact ⟨doutb_eq q u hdone, mem_eq q u (by omega)⟩

/-- The two words that are written. -/
def firstWord : L3Word := ⟨true, 9, true, 10, 100100⟩

def secondWord : L3Word := ⟨true, 2057, false, 20, 100150⟩

/-- The line with the first word. -/
def firstLine : L3Line := Function.update (fun _ => .zero) (Rtl.wayAt 3) firstWord

/-- Line 1 is read all the time. A word is written to it, and three cycles later, into what has been read
in the cycle after the first write, a second one. -/
def twoWords (t : ℕ) : L3RamIn :=
  if t < 2053 then ⟨decide (t = 2050), 1, fun _ => .zero, Rtl.wayAt 3, firstWord, 1⟩
  else ⟨decide (t = 2053), 1, firstLine, Rtl.wayAt 5, secondWord, 1⟩

theorem twoWords_wea {t : ℕ} : (twoWords t).wea = true ↔ t = 2050 ∨ t = 2053 := by
  rw [twoWords]
  split_ifs with ht
  · exact decide_eq_true_iff.trans ⟨Or.inl, fun h => by omega⟩
  · exact decide_eq_true_iff.trans ⟨Or.inr, fun h => by omega⟩

theorem twoWords_addrb (t : ℕ) : (twoWords t).addrb = 1 := by
  rw [twoWords]
  split_ifs <;> rfl

theorem written_first {t : ℕ} (ht : t ≤ 2050) : written twoWords t = fun _ _ => .zero := by
  induction t with
  | zero => rfl
  | succ t ih =>
    have hwea : ¬ (twoWords t).wea = true := fun h => by
      have := twoWords_wea.1 h
      omega
    rw [written, if_neg fun h => hwea h.1]
    exact ih (by omega)

theorem written_second : written twoWords 2051 = Function.update (fun _ _ => .zero) 1 firstLine := by
  have hwrite : (twoWords 2050).wea = true ∧ 2047 ≤ 2050 := ⟨twoWords_wea.2 (Or.inl rfl), by omega⟩
  rw [written, if_pos hwrite, written_first le_rfl]
  rfl

theorem twoWords_modify (q : L3RamRegs) : ReadModifyWrite q twoWords where
  apart t t' ht ht' hlt := by
    rw [twoWords_wea] at ht ht'
    omega
  read t ht := by
    obtain rfl | rfl := twoWords_wea.1 ht
    · refine ⟨2048, rfl, (rstDone_iff q twoWords 2048).2 le_rfl, rfl, ?_⟩
      rw [doutb_eq q twoWords le_rfl, written_first (by omega)]
      rfl
    · -- the first word is still on its way into the memory
      refine ⟨2051, rfl, (rstDone_iff q twoWords 2051).2 (by omega), rfl, ?_⟩
      rw [doutb_eq q twoWords (by omega), written_second, twoWords_addrb, Function.update_self]
      rfl

/-- Registers before the reset. -/
def zeroRam : L3RamRegs where
  ram := ⟨fun _ _ => .zero, fun _ => .zero⟩
  wea := false
  addra := 0
  line _ := .zero
  wordIdx := Rtl.wayAt 0
  word := .zero
  addrb := 0
  wea2 := false
  addra2 := 0
  dina _ := .zero
  doutb _ := .zero
  rstInProgress := false
  count := 0

/-- Both words are in the line that is read in the cycle after the second write. -/
theorem bypass_complete_twoWords :
    (ramOutAt zeroRam twoWords 2056).doutb =
      Function.update firstLine (Rtl.wayAt 5) secondWord := by
  have hdone := (rstDone_iff zeroRam twoWords 2054).2 (by omega)
  have hmodify := twoWords_modify zeroRam
  rw [((bypass_complete zeroRam twoWords).2 hmodify 2054 hdone).1, updated,
    if_pos (twoWords_wea.2 (Or.inr rfl)), twoWords_addrb]
  have hquiet : ∀ t, 2051 ≤ t → t < 2053 → ¬ (twoWords t).wea = true := by
    intro t hle hlt h
    have := twoWords_wea.1 h
    omega
  have hfirst : updated twoWords 2053 = Function.update (fun _ _ => .zero) 1 firstLine := by
    rw [updated, if_neg (hquiet 2052 (by omega) (by omega)), updated,
      if_neg (hquiet 2051 le_rfl (by omega)), ← hmodify.written_eq, written_second]
  rw [hfirst]
  rfl

end ItchOrderBook.OrderTable
