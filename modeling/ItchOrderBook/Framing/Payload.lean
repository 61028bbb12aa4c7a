import ItchOrderBook.Framing.Beats
import Mathlib.Tactic.IntervalCases

/-!
# The message counter of the RTL

In the state `MSG` the parser only sees words. What ties its registers to the payload is a list of
bytes that starts one byte before the next word: `bytes_left_q` is the position of the next length
field in it, and `msg_left_q` the number of length fields still to come. The extra byte is what
makes the position non-negative when the length field straddles two words.

From such a state the parser raises no error in the beats of the payload if the bytes from that
position on are the remaining messages (`msg_quiet`), and only then (`msg_framed`). It then presents
each word (`msg_end`). Only the low byte of a length field is counted; who relies on the parser for framing
must know the length fields from elsewhere (`Seen`, `LengthsOk`).
-/

namespace ItchOrderBook.Framing

open Ref Rtl

theorem fromBytes_eq (data : List Byte) : fromBytes data = bigEndian data := rfl

/-! ### Walking over length fields -/

/-- `data` is `n` length-prefixed messages. -/
def Fits (n : ℕ) (data : List Byte) : Prop := ∃ msgs, Framed n data msgs

/-- The length fields that the reference parser reads are all between 4 and 254. -/
def LengthsOk : ℕ → List Byte → Prop
  | 0, _ => True
  | n + 1, data =>
    2 ≤ data.length → (4 ≤ lengthField data ∧ lengthField data ≤ 254) ∧
      (2 + lengthField data ≤ data.length → LengthsOk n (data.drop (2 + lengthField data)))

instance LengthsOk.decidable : ∀ n data, Decidable (LengthsOk n data)
  | 0, _ => isTrue trivial
  | n + 1, data =>
    haveI := LengthsOk.decidable n (data.drop (2 + lengthField data))
    inferInstanceAs (Decidable (_ → _ ∧ (_ → _)))

theorem fits_zero {data : List Byte} : Fits 0 data ↔ data = [] := by
  constructor
  · rintro ⟨msgs, h⟩
    exact (framed_zero.1 h).2
  · rintro rfl
    exact ⟨[], framed_zero.2 ⟨rfl, rfl⟩⟩

theorem fits_succ {n : ℕ} {data : List Byte} :
    Fits (n + 1) data ↔
      2 + lengthField data ≤ data.length ∧ Fits n (data.drop (2 + lengthField data)) := by
  constructor
  · rintro ⟨msgs, h⟩
    obtain ⟨hlen, rest, -, hfr⟩ := framed_succ.1 h
    exact ⟨hlen, rest, hfr⟩
  · rintro ⟨hlen, rest, hfr⟩
    exact ⟨_, framed_succ.2 ⟨hlen, rest, rfl, hfr⟩⟩

/-- A length field below 256 is its second byte. -/
theorem lengthField_eq {data : List Byte} {hi lo : Byte} {rest : List Byte}
    (hdata : data = hi :: lo :: rest) (h : lengthField data ≤ 255) :
    lengthField data = lo.toNat := by
  have hlo := lo.isLt
  have hval : lengthField data = 256 * hi.toNat + lo.toNat := by simp [lengthField, hdata, fromBytes]
  omega

/-! ### The registers on a word of the payload -/

/-- The four bytes of a word. -/
theorem extract_word (b0 b1 b2 b3 : Byte) :
    (word [b0, b1, b2, b3]).extractLsb' 24 8 = b0 ∧
    (word [b0, b1, b2, b3]).extractLsb' 16 8 = b1 ∧
    (word [b0, b1, b2, b3]).extractLsb' 8 8 = b2 ∧
    (word [b0, b1, b2, b3]).extractLsb' 0 8 = b3 := by
  refine ⟨?_, ?_, ?_, ?_⟩
  · exact (extract_bits (s := 24) (k := 8) [] [b0] [b1, b2, b3] (by decide) rfl rfl).trans
      (bits_singleton b0)
  · exact (extract_bits (s := 16) (k := 8) [b0] [b1] [b2, b3] (by decide) rfl rfl).trans
      (bits_singleton b1)
  · exact (extract_bits (s := 8) (k := 8) [b0, b1] [b2] [b3] (by decide) rfl rfl).trans
      (bits_singleton b2)
  · exact (extract_bits (s := 0) (k := 8) [b0, b1, b2] [b3] [] (by decide) rfl rfl).trans
      (bits_singleton b3)

/-- The counter after a length field: the position of the next one, four bytes further on. -/
theorem nextBytesLeft_eq {bl : BitVec 8} {prev : Byte} {p rest : List Byte} {len : ℕ}
    (hp : p.length = 4) (hbl : bl.toNat < 4)
    (hlen : lengthField ((prev :: (p ++ rest)).drop bl.toNat) = len) (h4 : 4 ≤ len) (h254 : len ≤ 254) :
    (MoldRegs.nextBytesLeft bl (word p)).toNat = bl.toNat + len - 2 := by
  obtain ⟨b0, b1, b2, b3, rfl⟩ : ∃ b0 b1 b2 b3, p = [b0, b1, b2, b3] := by
    match p, hp with
    | [b0, b1, b2, b3], _ => exact ⟨b0, b1, b2, b3, rfl⟩
  obtain ⟨h0, h1, h2, h3⟩ := extract_word b0 b1 b2 b3
  have hlow : (bl.extractLsb' 0 2).toNat = bl.toNat := by
    rw [BitVec.extractLsb'_toNat, Nat.shiftRight_zero]
    omega
  have hcases : bl.toNat = 0 ∨ bl.toNat = 1 ∨ bl.toNat = 2 ∨ bl.toNat = 3 := by omega
  -- the length is the byte behind position `bl`
  rcases hcases with hb | hb | hb | hb <;> rw [hb] at hlen <;>
    rw [MoldRegs.nextBytesLeft, hlow, hb] <;>
    have hval := hlen.symm.trans (lengthField_eq rfl (hlen.trans_le (by omega)))
  · change (BitVec.extractLsb' 24 8 (word [b0, b1, b2, b3]) - 2).toNat = _
    rw [h0, BitVec.toNat_sub, ← hval, show (2 : BitVec 8).toNat = 2 from rfl]
    omega
  · change (BitVec.extractLsb' 16 8 (word [b0, b1, b2, b3]) - 1).toNat = _
    rw [h1, BitVec.toNat_sub, ← hval, show (1 : BitVec 8).toNat = 1 from rfl]
    omega
  · change (BitVec.extractLsb' 8 8 (word [b0, b1, b2, b3])).toNat = _
    rw [h2, ← hval]
    omega
  · change (BitVec.extractLsb' 0 8 (word [b0, b1, b2, b3]) + 1).toNat = _
    rw [h3, BitVec.toNat_add, ← hval, show (1 : BitVec 8).toNat = 1 from rfl]
    omega

/-- `tkeep` of the last word is as expected when the packet ends where its messages do. -/
theorem keep_eq_iff {bl : BitVec 8} {n : ℕ} (hn : 1 ≤ n) (hn' : n ≤ 4) (hbl : bl.toNat < 6) :
    keep n = BitVec.ofBool (bl > 1) ++ BitVec.ofBool (bl > 2) ++ BitVec.ofBool (bl > 3) ++
        BitVec.ofBool (bl > 4) ↔ n + 1 = bl.toNat := by
  obtain ⟨v, hv, hlt⟩ : ∃ v, bl = BitVec.ofNat 8 v ∧ v < 6 := ⟨bl.toNat, by simp, hbl⟩
  subst hv
  revert n
  interval_cases v <;> intro n hn hn' <;> interval_cases n <;> decide

/-! ### The payload -/

/-- No error in these cycles. -/
def Quiet (os : List MoldOut) : Prop := ∀ o ∈ os, o.1 = false

@[simp] theorem quiet_nil : Quiet [] := by simp [Quiet]

@[simp] theorem quiet_cons {o : MoldOut} {os : List MoldOut} :
    Quiet (o :: os) ↔ o.1 = false ∧ Quiet os := by
  simp [Quiet]

@[simp] theorem quiet_append {os os' : List MoldOut} :
    Quiet (os ++ os') ↔ Quiet os ∧ Quiet os' := by
  simp only [Quiet, List.forall_mem_append]

/-- Errors are those of the core. -/
theorem quiet_trace_iff (q : MoldRegs) (cycles : List Axis) :
    Quiet (moldudp64Parser.trace q cycles) ↔
      Quiet (moldCore.trace (core q) (cycles.filter fun axis => axis.tvalid)) := by
  rw [moldudp64Parser_paced.trace_eq trivial]
  constructor
  · intro h o ho
    by_contra hne
    exact hne (h o ((mem_weave (fun he => hne (by rw [he])) (Circuit.length_trace ..)).2 ho))
  · intro h o ho
    by_contra hne
    exact hne (h o ((mem_weave (fun he => hne (by rw [he])) (Circuit.length_trace ..)).1 ho))

section Msg

variable {q : MoldRegs} {axis : Axis} {tlast : Bool} {tdata : BitVec 32} {tkeep : BitVec 4}

/-- In `MSG` every word is presented. -/
theorem out_msg (hq : q.state = .msg) :
    moldCore.out q axis = (q.npError axis, some (axis.tdata, axis.tlast)) := by
  simp only [moldCore, MoldRegs.comb, hq, MoldRegs.onMsg]
  split_ifs <;> rfl

/-- The word after which the packet must end. -/
theorem npError_last (hq : q.state = .msg) (hb : q.bytesLeft < 6) (hm : q.msgLeft = 0) :
    q.npError ⟨true, tlast, tdata, tkeep⟩ = false ↔ tlast = true ∧
      tkeep = BitVec.ofBool (q.bytesLeft > 1) ++ BitVec.ofBool (q.bytesLeft > 2) ++
        BitVec.ofBool (q.bytesLeft > 3) ++ BitVec.ofBool (q.bytesLeft > 4) := by
  have hif : q.bytesLeft < 6 ∧ q.msgLeft = 0 := ⟨hb, hm⟩
  simp only [MoldRegs.npError, MoldRegs.comb, hq, MoldRegs.onMsg, Bool.true_and, if_pos hif,
    Bool.or_false, Bool.or_eq_false_iff, bne_eq_false_iff_eq]
  exact ⟨fun h => ⟨h.2.symm, h.1⟩, fun h => ⟨h.2, h.1.symm⟩⟩

theorem next_last (hq : q.state = .msg) (hb : q.bytesLeft < 6) (hm : q.msgLeft = 0) :
    moldCore.next q axis = core { q with bytesLeft := 1, msgLeft := 0, state := .idle } := by
  have hif : q.bytesLeft < 6 ∧ q.msgLeft = 0 := ⟨hb, hm⟩
  simp only [moldCore, MoldRegs.comb, hq, MoldRegs.onMsg, if_pos hif]
  rw [← hm]
  rfl

/-- Any other word must be full and not the last one. -/
theorem npError_more (hq : q.state = .msg) (h : ¬ (q.bytesLeft < 6 ∧ q.msgLeft = 0)) :
    q.npError ⟨true, tlast, tdata, tkeep⟩ = false ↔ tlast = false ∧ tkeep = 0xF := by
  simp only [MoldRegs.npError, MoldRegs.comb, hq, MoldRegs.onMsg, Bool.true_and, if_neg h]
  split_ifs <;>
    simp only [Bool.or_false, Bool.or_eq_false_iff, bne_eq_false_iff_eq] <;>
    exact ⟨fun h => ⟨h.2.symm, h.1⟩, fun h => ⟨h.2, h.1.symm⟩⟩

theorem next_length (hq : q.state = .msg) (hb : q.bytesLeft < 4) (hm : q.msgLeft ≠ 0) :
    moldCore.next q axis = core { q with
      msgLeft := q.msgLeft - 1, bytesLeft := MoldRegs.nextBytesLeft q.bytesLeft axis.tdata } := by
  have h1 : ¬ (q.bytesLeft < 6 ∧ q.msgLeft = 0) := fun h => hm h.2
  have h2 : q.bytesLeft < 4 ∧ q.msgLeft > 0 := ⟨hb, by
    rw [gt_iff_lt, BitVec.lt_def]
    exact Nat.pos_of_ne_zero (fun h => hm (BitVec.eq_of_toNat_eq h))⟩
  simp only [moldCore, MoldRegs.comb, hq, MoldRegs.onMsg, if_neg h1, if_pos h2]
  rw [← hq]
  rfl

theorem next_body (hq : q.state = .msg) (h1 : ¬ (q.bytesLeft < 6 ∧ q.msgLeft = 0))
    (h2 : ¬ q.bytesLeft < 4) :
    moldCore.next q axis = core { q with bytesLeft := q.bytesLeft - 4 } := by
  simp only [moldCore, MoldRegs.comb, hq, MoldRegs.onMsg, if_neg h1, h2, false_and, if_false]
  rw [← hq]
  rfl

theorem next_more (axis : Axis) (hq : q.state = .msg) (h : ¬ (q.bytesLeft < 6 ∧ q.msgLeft = 0)) :
    ∃ msgLeft bytesLeft, moldCore.next q axis = core { q with msgLeft, bytesLeft } := by
  by_cases h4 : q.bytesLeft < 4
  · have hm : q.msgLeft ≠ 0 := fun hm => h ⟨by bv_omega, hm⟩
    exact ⟨_, _, next_length hq h4 hm⟩
  · exact ⟨_, _, next_body hq h h4⟩

end Msg

theorem msgLeft_step {msgLeft : BitVec 16} (hm : msgLeft ≠ 0) :
    ∃ m, msgLeft.toNat = m + 1 ∧ (msgLeft - 1).toNat = m := by
  have hpos : msgLeft.toNat ≠ 0 := fun h => hm (BitVec.eq_of_toNat_eq h)
  have hlt := msgLeft.isLt
  obtain ⟨m, hm'⟩ := Nat.exists_eq_succ_of_ne_zero hpos
  refine ⟨m, hm', ?_⟩
  rw [BitVec.toNat_sub, hm', show (1 : BitVec 16).toNat = 1 from rfl]
  omega

/-- The registers behind a word without a length field. -/
theorem body_step {b : BitVec 8} (hb : ¬ b < 4) : (b - 4).toNat = b.toNat - 4 ∧ 4 ≤ b.toNat := by
  have hb' : 4 ≤ b.toNat := not_lt.1 fun h => hb (BitVec.lt_def.2 h)
  have hlt := b.isLt
  rw [BitVec.toNat_sub, show (4 : BitVec 8).toNat = 4 from rfl]
  omega

/-- The last byte of a word and what is behind it. -/
theorem exists_word {p : List Byte} (hlen : p.length = 4) (prev : Byte) (rest : List Byte) :
    ∃ (front : List Byte) (b : Byte), front.length = 4 ∧
      prev :: (p ++ rest) = front ++ (b :: rest) ∧
      (∀ k, (front ++ (b :: rest)).drop (k + 4) = (b :: rest).drop k) ∧
      (front ++ (b :: rest)).length = rest.length + 5 := by
  obtain ⟨b0, b1, b2, b3, rfl⟩ : ∃ b0 b1 b2 b3, p = [b0, b1, b2, b3] := by
    match p, hlen with
    | [b0, b1, b2, b3], _ => exact ⟨b0, b1, b2, b3, rfl⟩
  exact ⟨[prev, b0, b1, b2], b3, rfl, rfl, fun k => rfl, rfl⟩

/-- **What the payload leaves behind.** Without an error, every word of it is presented. -/
theorem msg_end {payload : List Byte} {bs : List Axis} (hc : Carries payload bs) {q : MoldRegs}
    (hq : q.state = .msg) (hquiet : Quiet (moldCore.trace q bs)) :
    (moldCore.trace q bs).map Prod.snd = bs.map (fun axis => some (axis.tdata, axis.tlast)) ∧
      moldCore.run q bs = core { q with bytesLeft := 1, msgLeft := 0, state := .idle } := by
  induction hc generalizing q with
  | @last p pad hp hlen =>
    rw [Circuit.trace_cons, Circuit.trace_nil, quiet_cons, out_msg hq] at hquiet
    rw [Circuit.trace_cons, Circuit.trace_nil, out_msg hq, Circuit.run_cons]
    by_cases h : q.bytesLeft < 6 ∧ q.msgLeft = 0
    · rw [next_last hq h.1 h.2]
      exact ⟨rfl, rfl⟩
    · exact absurd ((npError_more hq h).1 hquiet.1).1 (by decide)
  | @more p rest bs hlen hrest ih =>
    rw [Circuit.trace_cons, quiet_cons, out_msg hq] at hquiet
    rw [Circuit.trace_cons, out_msg hq, Circuit.run_cons, List.map_cons, List.map_cons,
      List.cons.injEq]
    by_cases h : q.bytesLeft < 6 ∧ q.msgLeft = 0
    · exact absurd ((npError_last hq h.1 h.2).1 hquiet.1).1 (by decide)
    · obtain ⟨m', b', hnext⟩ := next_more ⟨true, false, word p, 0xF⟩ hq h
      rw [hnext] at hquiet ⊢
      obtain ⟨hwords, hrun⟩ := ih (q := core { q with msgLeft := m', bytesLeft := b' }) hq hquiet.2
      exact ⟨⟨rfl, hwords⟩, hrun⟩

/-- The messages from position `b` on, as far as a reader sees them that looks at a message in the
first word behind its start: their length fields are between 4 and 254, and the complete ones are
as `P` says. -/
def Seen (P : List Byte → Prop) : ℕ → List Byte → ℕ → Prop
  | 0, _, _ => True
  | n + 1, data, b => (b + 2) / 4 * 4 + 1 < data.length → b + 3 ≤ data.length →
    (4 ≤ lengthField (data.drop b) ∧ lengthField (data.drop b) ≤ 254) ∧
      (b + 2 + lengthField (data.drop b) ≤ data.length →
        P ((data.drop b).take (2 + lengthField (data.drop b))) ∧
          Seen P n data (b + 2 + lengthField (data.drop b)))

/-- One word further on. -/
theorem Seen.shift {P : List Byte → Prop} {n : ℕ} {front data : List Byte}
    (hfront : front.length = 4) {b : ℕ} :
    Seen P n (front ++ data) (b + 4) ↔ Seen P n data b := by
  induction n generalizing b with
  | zero => exact Iff.rfl
  | succ n ih =>
    have hdrop : (front ++ data).drop (b + 4) = data.drop b := by
      rw [Nat.add_comm, ← hfront, ← List.drop_drop, List.drop_left]
    rw [Seen, Seen, hdrop, List.length_append, hfront,
      show b + 4 + 2 + lengthField (data.drop b) = b + 2 + lengthField (data.drop b) + 4 by omega, ih,
      show (b + 4 + 2) / 4 * 4 + 1 < 4 + data.length ↔ (b + 2) / 4 * 4 + 1 < data.length by omega,
      show b + 4 + 3 ≤ 4 + data.length ↔ b + 3 ≤ data.length by omega,
      show b + 2 + lengthField (data.drop b) + 4 ≤ 4 + data.length ↔
        b + 2 + lengthField (data.drop b) ≤ data.length by omega]

/-- Behind the end nothing is seen. -/
theorem seen_of_length_le {P : List Byte → Prop} {n : ℕ} {data : List Byte} {b : ℕ}
    (h : data.length < b + 3) : Seen P n data b := by
  cases n with
  | zero => trivial
  | succ n =>
    intro _ h'
    omega

theorem seen_of_lengthsOk {n : ℕ} {data : List Byte} {b : ℕ} (h : LengthsOk n (data.drop b)) :
    Seen (fun _ => True) n data b := by
  induction n generalizing b with
  | zero => trivial
  | succ n ih =>
    intro _ h3
    rw [LengthsOk, List.length_drop, List.drop_drop] at h
    obtain ⟨hlen, hnext⟩ := h (by omega)
    refine ⟨hlen, fun hle => ⟨trivial, ih ?_⟩⟩
    rw [Nat.add_assoc]
    exact hnext (by omega)

/-- **An accepted payload is framed**, if its length fields are those of the messages. -/
theorem msg_framed {P : List Byte → Prop} {payload : List Byte} {bs : List Axis}
    (hc : Carries payload bs) {q : MoldRegs} (prev : Byte) (hq : q.state = .msg)
    (hquiet : Quiet (moldCore.trace q bs))
    (hs : Seen P q.msgLeft.toNat (prev :: payload) q.bytesLeft.toNat) :
    q.bytesLeft.toNat ≤ payload.length + 1 ∧ ∃ msgs,
      Framed q.msgLeft.toNat ((prev :: payload).drop q.bytesLeft.toNat) msgs ∧ ∀ m ∈ msgs, P m := by
  induction hc generalizing q prev with
  | @last p pad hp hlen =>
    have hpos := List.length_pos_of_ne_nil hp
    rw [Circuit.trace_cons, Circuit.trace_nil, quiet_cons, out_msg hq] at hquiet
    by_cases h : q.bytesLeft < 6 ∧ q.msgLeft = 0
    · have hb : q.bytesLeft.toNat < 6 := BitVec.lt_def.1 h.1
      have hend := (keep_eq_iff hpos (by omega) hb).1 ((npError_last hq h.1 h.2).1 hquiet.1).2
      refine ⟨by omega, [], framed_nil.2 ⟨BitVec.toNat_eq.1 h.2, ?_⟩, by simp⟩
      exact List.drop_eq_nil_iff.2 (by rw [List.length_cons]; omega)
    · exact absurd ((npError_more hq h).1 hquiet.1).1 (by decide)
  | @more p rest bs hlen hrest ih =>
    have hpos := hrest.length_pos
    obtain ⟨front, b, hfront, hdata, hdrop, htotal⟩ := exists_word hlen prev rest
    rw [Circuit.trace_cons, quiet_cons, out_msg hq] at hquiet
    by_cases h : q.bytesLeft < 6 ∧ q.msgLeft = 0
    · exact absurd ((npError_last hq h.1 h.2).1 hquiet.1).1 (by decide)
    by_cases h4 : q.bytesLeft < 4
    · have hm : q.msgLeft ≠ 0 := fun hm => h ⟨by bv_omega, hm⟩
      have hb : q.bytesLeft.toNat < 4 := BitVec.lt_def.1 h4
      rw [next_length hq h4 hm] at hquiet
      obtain ⟨len, hfield⟩ : ∃ len, lengthField ((prev :: (p ++ rest)).drop q.bytesLeft.toNat) = len :=
        ⟨_, rfl⟩
      obtain ⟨m, hm', hml⟩ := msgLeft_step hm
      rw [hm', Seen, hfield, hdata, htotal] at hs
      obtain ⟨⟨hlo, hhi⟩, hnext⟩ := hs (by omega) (by omega)
      have hbl := nextBytesLeft_eq hlen hb hfield hlo hhi
      have hend : q.bytesLeft.toNat + 2 + len = q.bytesLeft.toNat + len - 2 + 4 := by omega
      rw [hend, Seen.shift hfront] at hnext
      have hih := ih (q := core { q with
        msgLeft := q.msgLeft - 1, bytesLeft := MoldRegs.nextBytesLeft q.bytesLeft (word p) })
        b hq hquiet.2
      simp only [core, hbl, hml] at hih
      obtain ⟨hle, msgs, hfr, hP⟩ := hih (by
        by_cases hin : q.bytesLeft.toNat + len - 2 + 4 ≤ rest.length + 5
        · exact (hnext hin).2
        · apply seen_of_length_le
          rw [List.length_cons]
          omega)
      obtain ⟨hfirst, -⟩ := hnext (by omega)
      rw [← hdrop, ← hend, Nat.add_assoc, ← List.drop_drop, ← hdata, ← hfield] at hfr
      have hroom : 2 + lengthField ((prev :: (p ++ rest)).drop q.bytesLeft.toNat) ≤
          ((prev :: (p ++ rest)).drop q.bytesLeft.toNat).length := by
        rw [hfield, List.length_drop, hdata, htotal]
        omega
      refine ⟨by rw [List.length_append]; omega, _, hm' ▸ framed_succ.2 ⟨hroom, _, rfl, hfr⟩, ?_⟩
      intro x hx
      rcases List.mem_cons.1 hx with rfl | hx
      · rw [hfield, hdata]
        exact hfirst
      · exact hP x hx
    · obtain ⟨hbl, hb⟩ := body_step h4
      rw [next_body hq h h4] at hquiet
      have hih := ih (q := core { q with bytesLeft := q.bytesLeft - 4 }) b hq hquiet.2
      simp only [core, hbl] at hih
      have hb4 : q.bytesLeft.toNat = q.bytesLeft.toNat - 4 + 4 := by omega
      rw [hdata, hb4, Seen.shift hfront] at hs
      obtain ⟨hle, msgs, hfr, hP⟩ := hih hs
      refine ⟨by rw [List.length_append]; omega, msgs, ?_, hP⟩
      rwa [hdata, hb4, hdrop]

/-- **A framed payload is accepted**, if no message is too short or too long for the counter. -/
theorem msg_quiet {payload : List Byte} {bs : List Axis} (hc : Carries payload bs) {q : MoldRegs}
    (prev : Byte) (hq : q.state = .msg) (hle : q.bytesLeft.toNat ≤ payload.length + 1)
    (hl : LengthsOk q.msgLeft.toNat ((prev :: payload).drop q.bytesLeft.toNat))
    (hfit : Fits q.msgLeft.toNat ((prev :: payload).drop q.bytesLeft.toNat)) :
    Quiet (moldCore.trace q bs) := by
  induction hc generalizing q prev with
  | @last p pad hp hlen =>
    have hpos := List.length_pos_of_ne_nil hp
    rw [Circuit.trace_cons, Circuit.trace_nil, quiet_cons, out_msg hq]
    refine ⟨?_, quiet_nil⟩
    cases hm : q.msgLeft.toNat with
    | zero =>
      rw [hm, fits_zero, List.drop_eq_nil_iff, List.length_cons] at hfit
      have hb : q.bytesLeft.toNat < 6 := by omega
      rw [npError_last hq (BitVec.lt_def.2 hb) (BitVec.eq_of_toNat_eq hm)]
      exact ⟨rfl, (keep_eq_iff hpos (by omega) hb).2 (by omega)⟩
    | succ m =>
      -- no room for a length field and the shortest body behind it
      rw [hm] at hl hfit
      have hroom := (fits_succ.1 hfit).1
      have h4 := (hl (by omega)).1.1
      rw [List.length_drop, List.length_cons] at hroom
      omega
  | @more p rest bs hlen hrest ih =>
    have hpos := hrest.length_pos
    obtain ⟨front, b, hfront, hdata, hdrop, htotal⟩ := exists_word hlen prev rest
    rw [List.length_append, hlen] at hle
    have h : ¬ (q.bytesLeft < 6 ∧ q.msgLeft = 0) := by
      rintro ⟨hb, hm⟩
      have hb : q.bytesLeft.toNat < 6 := BitVec.lt_def.1 hb
      rw [hm] at hfit
      have hnil := List.drop_eq_nil_iff.1 (fits_zero.1 hfit)
      rw [hdata, htotal] at hnil
      omega
    rw [Circuit.trace_cons, quiet_cons, out_msg hq]
    refine ⟨(npError_more hq h).2 ⟨rfl, rfl⟩, ?_⟩
    by_cases h4 : q.bytesLeft < 4
    · have hm : q.msgLeft ≠ 0 := fun hm => h ⟨by bv_omega, hm⟩
      have hb : q.bytesLeft.toNat < 4 := BitVec.lt_def.1 h4
      obtain ⟨len, hfield⟩ : ∃ len, lengthField ((prev :: (p ++ rest)).drop q.bytesLeft.toNat) = len :=
        ⟨_, rfl⟩
      obtain ⟨m, hm', hml⟩ := msgLeft_step hm
      rw [hm', LengthsOk, hfield] at hl
      rw [hm', fits_succ, hfield] at hfit
      have hlend : ((prev :: (p ++ rest)).drop q.bytesLeft.toNat).length =
          rest.length + 5 - q.bytesLeft.toNat := by rw [List.length_drop, hdata, htotal]
      rw [hlend] at hl hfit
      obtain ⟨⟨hlo, hhi⟩, hl⟩ := hl (by omega)
      obtain ⟨hroom, hfit⟩ := hfit
      have hbl := nextBytesLeft_eq hlen hb hfield hlo hhi
      have hnext : ((prev :: (p ++ rest)).drop q.bytesLeft.toNat).drop (2 + len) =
          (b :: rest).drop (q.bytesLeft.toNat + len - 2) := by
        rw [List.drop_drop, hdata, ← hdrop]
        congr 1
        omega
      rw [hnext] at hl hfit
      rw [next_length hq h4 hm]
      apply ih (q := core { q with
        msgLeft := q.msgLeft - 1, bytesLeft := MoldRegs.nextBytesLeft q.bytesLeft (word p) }) b hq
      · simp only [core, hbl]
        omega
      · simp only [core, hbl, hml]
        exact hl hroom
      · simp only [core, hbl, hml]
        exact hfit
    · obtain ⟨hbl, hb⟩ := body_step h4
      have hb4 : q.bytesLeft.toNat = q.bytesLeft.toNat - 4 + 4 := by omega
      rw [hdata, hb4, hdrop] at hl hfit
      rw [next_body hq h h4]
      apply ih (q := core { q with bytesLeft := q.bytesLeft - 4 }) b hq
      · simp only [core, hbl]
        omega
      · simp only [core, hbl]
        exact hl
      · simp only [core, hbl]
        exact hfit

end ItchOrderBook.Framing
