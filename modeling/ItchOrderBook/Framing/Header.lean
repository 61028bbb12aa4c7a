import ItchOrderBook.Framing.Payload

/-!
# The header states of the RTL

What one word of the header does, state by state: where the next state and `compare_q` come from
after a match and after a mismatch, and when there is no error. `header_run` follows the five words
of a header that is as expected. A packet that ends within its header is an error
(`not_quiet_of_short`).
-/

namespace ItchOrderBook.Framing

open Ref Rtl

/-! ### One word -/

section Word

variable {q : MoldRegs} (axis : Axis) {tlast : Bool} {tdata : BitVec 32} {tkeep : BitVec 4}

/-- A word is its two halves. -/
theorem halves_eq {x y : BitVec 32} :
    x = y ↔ x.extractLsb' 16 16 = y.extractLsb' 16 16 ∧ x.extractLsb' 0 16 = y.extractLsb' 0 16 := by
  refine ⟨fun h => by rw [h]; exact ⟨rfl, rfl⟩, fun ⟨hhi, hlo⟩ => ?_⟩
  apply BitVec.eq_of_toNat_eq
  have hhi := congrArg BitVec.toNat hhi
  have hlo := congrArg BitVec.toNat hlo
  rw [BitVec.extractLsb'_toNat, BitVec.extractLsb'_toNat, Nat.shiftRight_eq_div_pow,
    Nat.shiftRight_eq_div_pow] at hhi hlo
  have := x.isLt
  have := y.isLt
  omega

/-- The header comparison of a state. -/
def Matches (q : MoldRegs) (tdata : BitVec 32) : Prop :=
  match q.state with
  | .idle | .session1 | .session2 => q.firstPktFlag = true ∨ q.compare = tdata
  | .seqNum1 => q.compare = tdata
  | .seqNum2 => q.compare.extractLsb' 16 16 = tdata.extractLsb' 16 16
  | .msg => True

/-- In the first four states a word must match, be full and not be the last one. -/
theorem npError_header (hq : q.state ≠ .seqNum2) (hq' : q.state ≠ .msg) :
    q.npError ⟨true, tlast, tdata, tkeep⟩ = false ↔
      Matches q tdata ∧ tlast = false ∧ tkeep = 0xF := by
  cases hs : q.state <;> rw [hs] at hq hq' <;>
    simp only [MoldRegs.npError, MoldRegs.comb, hs, Matches, Bool.true_and]
  · cases hf : q.firstPktFlag <;> by_cases hc : q.compare = tdata <;>
      simp [MoldRegs.onIdle, hf, hc, and_comm]
  · cases hf : q.firstPktFlag <;> by_cases hc : q.compare = tdata <;>
      simp [MoldRegs.onSession1, hf, hc, and_comm]
  · cases hf : q.firstPktFlag
    · rw [halves_eq]
      by_cases hhi : q.compare.extractLsb' 16 16 = tdata.extractLsb' 16 16 <;>
        by_cases hlo : q.compare.extractLsb' 0 16 = tdata.extractLsb' 0 16 <;>
        simp [MoldRegs.onSession2, hf, hhi, hlo, and_comm]
    · simp [MoldRegs.onSession2, hf, and_comm]
  · by_cases hc : q.compare = tdata <;> simp [MoldRegs.onSeqNum1, hc, and_comm]
  · exact absurd rfl hq
  · exact absurd rfl hq'

/-- The last word of the header is the last one of a packet without messages. -/
theorem npError_seqNum2 (hq : q.state = .seqNum2) :
    q.npError ⟨true, tlast, tdata, tkeep⟩ = false ↔
      Matches q tdata ∧ (tlast = true ↔ tdata.extractLsb' 0 16 = 0) ∧ tkeep = 0xF := by
  simp only [MoldRegs.npError, MoldRegs.comb, hq, Matches, MoldRegs.onSeqNum2, Bool.true_and]
  split_ifs with h0 <;>
    by_cases hc : q.compare.extractLsb' 16 16 = tdata.extractLsb' 16 16 <;>
    cases tlast <;> simp only [hc, h0, true_and, ne_eq, not_true, not_false_eq_true,
      decide_true, decide_false] <;> simp

/-- Only the words of the payload are presented. -/
theorem out_header (hq : q.state ≠ .msg) : moldCore.out q axis = (q.npError axis, none) := by
  cases hs : q.state <;> rw [hs] at hq <;> simp only [moldCore, MoldRegs.comb, hs]
  · simp only [MoldRegs.onIdle]
    split_ifs <;> rfl
  · simp only [MoldRegs.onSession1]
    split_ifs <;> rfl
  · simp only [MoldRegs.onSession2]
    split_ifs <;> rfl
  · rfl
  · simp only [MoldRegs.onSeqNum2]
    split_ifs <;> rfl
  · exact absurd rfl hq

theorem next_idle_first (hq : q.state = .idle) (hf : q.firstPktFlag = true) :
    moldCore.next q axis = core { q with
      sessionId := axis.tdata ++ q.sessionId.extractLsb' 0 48, state := .session1 } := by
  simp only [moldCore, MoldRegs.comb, hq, MoldRegs.onIdle, hf, if_true]
  rw [← hf]
  rfl

theorem next_idle_hit (hq : q.state = .idle) (hf : q.firstPktFlag = false)
    (h : q.compare = axis.tdata) :
    moldCore.next q axis = core { q with
      compare := q.sessionId.extractLsb' 16 32, state := .session1 } := by
  simp only [moldCore, MoldRegs.comb, hq, MoldRegs.onIdle, hf, Bool.false_eq_true, if_false, ne_eq, h,
    not_true]
  rw [← hf]
  rfl

theorem next_idle_miss (hq : q.state = .idle) (hf : q.firstPktFlag = false)
    (h : q.compare ≠ axis.tdata) : moldCore.next q axis = core q := by
  simp only [moldCore, MoldRegs.comb, hq, MoldRegs.onIdle, hf, Bool.false_eq_true, if_false, ne_eq, h,
    not_false_eq_true, if_true]
  rw [← hq]
  rfl

theorem next_session1_first (hq : q.state = .session1) (hf : q.firstPktFlag = true) :
    moldCore.next q axis = core { q with
      sessionId := q.sessionId.extractLsb' 48 32 ++ axis.tdata ++ q.sessionId.extractLsb' 0 16
      state := .session2 } := by
  simp only [moldCore, MoldRegs.comb, hq, MoldRegs.onSession1, hf, if_true]
  rw [← hf]
  rfl

theorem next_session1_hit (hq : q.state = .session1) (hf : q.firstPktFlag = false)
    (h : q.compare = axis.tdata) :
    moldCore.next q axis = core { q with
      compare := q.sessionId.extractLsb' 0 16 ++ q.seqExpect.extractLsb' 48 16
      state := .session2 } := by
  simp only [moldCore, MoldRegs.comb, hq, MoldRegs.onSession1, hf, Bool.false_eq_true, if_false, ne_eq,
    h, not_true]
  rw [← hf]
  rfl

/-- A mismatch falls back to `IDLE` and leaves `compare_q` as it is. -/
theorem next_session1_miss (hq : q.state = .session1) (hf : q.firstPktFlag = false)
    (h : q.compare ≠ axis.tdata) : moldCore.next q axis = core { q with state := .idle } := by
  simp only [moldCore, MoldRegs.comb, hq, MoldRegs.onSession1, hf, Bool.false_eq_true, if_false, ne_eq,
    h, not_false_eq_true, if_true]
  rw [← hf]
  rfl

theorem next_session2_first (hq : q.state = .session2) (hf : q.firstPktFlag = true) :
    moldCore.next q axis = core { q with
      sessionId := q.sessionId.extractLsb' 16 64 ++ axis.tdata.extractLsb' 16 16
      compare := q.seqExpect.extractLsb' 16 32
      state := .seqNum1 } := by
  simp only [moldCore, MoldRegs.comb, hq, MoldRegs.onSession2, hf, if_true]
  rw [← hf]
  rfl

theorem next_session2_hit (hq : q.state = .session2) (hf : q.firstPktFlag = false)
    (h : q.compare = axis.tdata) :
    moldCore.next q axis = core { q with
      compare := q.seqExpect.extractLsb' 16 32, state := .seqNum1 } := by
  simp only [moldCore, MoldRegs.comb, hq, MoldRegs.onSession2, hf, Bool.false_eq_true, if_false, ne_eq,
    h, not_true]
  rw [← hf]
  rfl

/-- A mismatch in either half falls back to `IDLE` and leaves `compare_q` as it is. -/
theorem next_session2_miss (hq : q.state = .session2) (hf : q.firstPktFlag = false)
    (h : q.compare ≠ axis.tdata) : moldCore.next q axis = core { q with state := .idle } := by
  have hhalf : MoldRegs.onSession2 q axis =
      if q.compare.extractLsb' 16 16 ≠ axis.tdata.extractLsb' 16 16 then
        { d := { q.hold axis with state := .idle }, errorSessionId := true }
      else { d := { q.hold axis with state := .idle }, errorSeq := true } := by
    simp only [MoldRegs.onSession2, hf, Bool.false_eq_true, if_false]
    by_cases hhi : q.compare.extractLsb' 16 16 = axis.tdata.extractLsb' 16 16
    · have hlo : q.compare.extractLsb' 0 16 ≠ axis.tdata.extractLsb' 0 16 :=
        fun hlo => h (halves_eq.2 ⟨hhi, hlo⟩)
      simp only [ne_eq, hhi, not_true, if_false, hlo, not_false_eq_true, if_true]
    · simp only [ne_eq, hhi, not_false_eq_true, if_true]
  simp only [moldCore, MoldRegs.comb, hq, hhalf]
  split_ifs <;> rfl

/-- Whatever the word, the next one is taken as the end of the sequence number. -/
theorem next_seqNum1 (hq : q.state = .seqNum1) :
    moldCore.next q axis = core { q with
      firstPktFlag := false
      compare := q.seqExpect.extractLsb' 0 16 ++ (0 : BitVec 16)
      state := .seqNum2 } := by
  simp only [moldCore, MoldRegs.comb, hq]
  rfl

/-- Whatever the word, its message count is taken. -/
theorem next_seqNum2 (hq : q.state = .seqNum2) :
    moldCore.next q axis =
      let q' := { q with
        compare := q.sessionId.extractLsb' 48 32
        msgLeft := axis.tdata.extractLsb' 0 16
        seqExpect := q.seqExpect + (axis.tdata.extractLsb' 0 16).setWidth 64 }
      if axis.tdata.extractLsb' 0 16 = 0 then core { q' with state := .idle }
      else core { q' with bytesLeft := 1, state := .msg } := by
  simp only [moldCore, MoldRegs.comb, hq, MoldRegs.onSeqNum2]
  split_ifs <;> rfl

end Word

/-! ### A header that is as expected -/

/-- Between packets: `compare_q` is the first word of the session id, if that is known. -/
structure Synced (q : MoldRegs) : Prop where
  idle : q.state = .idle
  compare : q.firstPktFlag = false → q.compare = q.sessionId.extractLsb' 48 32

/-- A beat of four bytes that is not the last one. -/
def beat (tdata : BitVec 32) : Axis := ⟨true, false, tdata, 0xF⟩

/-- The words of a header but the last one. -/
def headerWords (session : BitVec 80) (seq : BitVec 64) : List (BitVec 32) :=
  [session.extractLsb' 48 32, session.extractLsb' 16 32,
    session.extractLsb' 0 16 ++ seq.extractLsb' 48 16, seq.extractLsb' 16 32]

/-- The last word of a header. -/
def lastHeaderWord (seq : BitVec 64) (count : BitVec 16) : BitVec 32 :=
  seq.extractLsb' 0 16 ++ count

/-- The session id put together from its three words. -/
theorem session_assembled (session : BitVec 80) :
    session.extractLsb' 48 32 ++ session.extractLsb' 16 32 ++ session.extractLsb' 0 16 = session := by
  apply BitVec.eq_of_getLsbD_eq
  intro i hi
  simp only [BitVec.getLsbD_append, BitVec.getLsbD_extractLsb']
  by_cases h1 : i < 16
  · simp [h1]
  · by_cases h2 : i - 16 < 32
    · simp [h1, h2, show 16 + (i - 16) = i by omega]
    · simp [h1, h2, show 48 + (i - 16 - 32) = i by omega]
      omega

/-- No error in a header word that matches. -/
theorem out_matches {q : MoldRegs} {w : BitVec 32} (h2 : q.state ≠ .seqNum2) (h1 : q.state ≠ .msg)
    (hm : Matches q w) : moldCore.out q (beat w) = (false, none) := by
  rw [out_header _ h1, beat, (npError_header h2 h1).2 ⟨hm, rfl, rfl⟩]

theorem four_words {q0 q1 q2 q3 q4 : MoldRegs} {w0 w1 w2 w3 : BitVec 32}
    (o0 : moldCore.out q0 (beat w0) = (false, none)) (e0 : moldCore.next q0 (beat w0) = q1)
    (o1 : moldCore.out q1 (beat w1) = (false, none)) (e1 : moldCore.next q1 (beat w1) = q2)
    (o2 : moldCore.out q2 (beat w2) = (false, none)) (e2 : moldCore.next q2 (beat w2) = q3)
    (o3 : moldCore.out q3 (beat w3) = (false, none)) (e3 : moldCore.next q3 (beat w3) = q4) :
    moldCore.trace q0 ([w0, w1, w2, w3].map beat) = List.replicate 4 (false, none) ∧
      moldCore.run q0 ([w0, w1, w2, w3].map beat) = q4 := by
  simp only [List.map_cons, List.map_nil, Circuit.trace_cons, Circuit.run_cons, Circuit.trace_nil,
    Circuit.run_nil, o0, e0, o1, e1, o2, e2, o3, e3]
  exact ⟨rfl, trivial⟩

/-- The registers before the last word of the header. -/
theorem header_words {q : MoldRegs} (hq : Synced q) {session : BitVec 80}
    (hs : q.firstPktFlag = true ∨ q.sessionId = session) :
    moldCore.trace q ((headerWords session q.seqExpect).map beat) = List.replicate 4 (false, none) ∧
      moldCore.run q ((headerWords session q.seqExpect).map beat) = core { q with
        sessionId := session
        firstPktFlag := false
        compare := q.seqExpect.extractLsb' 0 16 ++ (0 : BitVec 16)
        state := .seqNum2 } := by
  have hidle := hq.idle
  cases hf : q.firstPktFlag
  · -- a known session: every word is compared
    obtain rfl : q.sessionId = session := hs.resolve_left (by simp [hf])
    have h0 := hq.compare hf
    exact four_words
      (out_matches (by simp [hidle]) (by simp [hidle]) (by simp [Matches, hidle, h0]))
      (next_idle_hit _ hidle hf h0)
      (out_matches (by simp [core]) (by simp [core]) (by simp [Matches, core]))
      (next_session1_hit _ rfl hf rfl)
      (out_matches (by simp [core]) (by simp [core]) (by simp [Matches, core]))
      (next_session2_hit _ rfl hf rfl)
      (out_matches (by simp [core]) (by simp [core]) (by simp [Matches, core]))
      (next_seqNum1 _ rfl)
  · -- the first packet: its session id is recorded
    have hrun := four_words
      (out_matches (w := session.extractLsb' 48 32) (by simp [hidle]) (by simp [hidle])
        (by simp [Matches, hidle, hf]))
      (next_idle_first _ hidle hf)
      (out_matches (w := session.extractLsb' 16 32) (by simp [core]) (by simp [core])
        (by simp [Matches, core, hf]))
      (next_session1_first _ rfl hf)
      (out_matches (w := session.extractLsb' 0 16 ++ q.seqExpect.extractLsb' 48 16)
        (by simp [core]) (by simp [core]) (by simp [Matches, core, hf]))
      (next_session2_first _ rfl hf)
      (out_matches (w := q.seqExpect.extractLsb' 16 32) (by simp [core]) (by simp [core])
        (by simp [Matches, core]))
      (next_seqNum1 _ rfl)
    refine ⟨hrun.1, hrun.2.trans ?_⟩
    simp only [core, beat, BitVec.extractLsb'_append_eq_left]
    rw [session_assembled]

/-- The registers behind a header that is as expected. -/
def afterHeader (q : MoldRegs) (session : BitVec 80) (count : BitVec 16) : MoldRegs :=
  core { q with
    sessionId := session
    compare := session.extractLsb' 48 32
    seqExpect := q.seqExpect + count.setWidth 64
    msgLeft := count
    bytesLeft := if count = 0 then q.bytesLeft else 1
    firstPktFlag := false
    state := if count = 0 then .idle else .msg }

/-- The beats of a header. -/
def headerBeats (session : BitVec 80) (seq : BitVec 64) (count : BitVec 16) (tlast : Bool) :
    List Axis :=
  (headerWords session seq).map beat ++ [⟨true, tlast, lastHeaderWord seq count, 0xF⟩]

/-- **The header.** One that is as expected raises an error only by ending the packet too early or
too late. -/
theorem header_run {q : MoldRegs} (hq : Synced q) {session : BitVec 80}
    (hs : q.firstPktFlag = true ∨ q.sessionId = session) (count : BitVec 16) (tlast : Bool) :
    (Quiet (moldCore.trace q (headerBeats session q.seqExpect count tlast)) ↔
      (tlast = true ↔ count = 0)) ∧
    (moldCore.trace q (headerBeats session q.seqExpect count tlast)).map Prod.snd =
      List.replicate 5 none ∧
    moldCore.run q (headerBeats session q.seqExpect count tlast) = afterHeader q session count := by
  obtain ⟨htrace, hrun⟩ := header_words hq hs
  obtain ⟨q4, hq4⟩ : ∃ q4, core { q with
    sessionId := session
    firstPktFlag := false
    compare := q.seqExpect.extractLsb' 0 16 ++ (0 : BitVec 16)
    state := .seqNum2 } = q4 := ⟨_, rfl⟩
  have hstate : q4.state = .seqNum2 := hq4 ▸ rfl
  have hlow : (lastHeaderWord q.seqExpect count).extractLsb' 0 16 = count :=
    BitVec.extractLsb'_append_eq_right
  have hhigh : (lastHeaderWord q.seqExpect count).extractLsb' 16 16 = q.seqExpect.extractLsb' 0 16 :=
    BitVec.extractLsb'_append_eq_left
  have hmatch : Matches q4 (lastHeaderWord q.seqExpect count) := by
    simp only [Matches, hstate]
    rw [hhigh, ← hq4]
    exact BitVec.extractLsb'_append_eq_left
  rw [headerBeats, Circuit.trace_append, htrace, Circuit.run_append, hrun, hq4, Circuit.trace_cons,
    Circuit.trace_nil, out_header _ (by simp [hstate])]
  refine ⟨?_, by simp [List.replicate_succ], ?_⟩
  · rw [quiet_append, quiet_cons, npError_seqNum2 hstate, hlow]
    simp only [hmatch, true_and, and_true, quiet_nil]
    exact and_iff_right (by simp [Quiet])
  · rw [Circuit.run_cons, Circuit.run_nil, next_seqNum2 _ hstate, hlow, ← hq4, afterHeader]
    split_ifs <;> rfl

/-! ### A packet that ends in its header -/

/-- The state after a word that raised no error and was not the last one. -/
def succState : NpState → NpState
  | .idle => .session1
  | .session1 => .session2
  | .session2 => .seqNum1
  | .seqNum1 => .seqNum2
  | .seqNum2 => .msg
  | .msg => .msg

theorem state_of_quiet {q : MoldRegs} {w : BitVec 32} (h : q.npError (beat w) = false) :
    (moldCore.next q (beat w)).state = succState q.state := by
  cases hs : q.state
  case idle =>
    have hm := ((npError_header (by simp [hs]) (by simp [hs])).1 h).1
    rw [Matches, hs] at hm
    cases hf : q.firstPktFlag
    · rw [next_idle_hit _ hs hf (hm.resolve_left (by simp [hf]))]
      rfl
    · rw [next_idle_first _ hs hf]
      rfl
  case session1 =>
    have hm := ((npError_header (by simp [hs]) (by simp [hs])).1 h).1
    rw [Matches, hs] at hm
    cases hf : q.firstPktFlag
    · rw [next_session1_hit _ hs hf (hm.resolve_left (by simp [hf]))]
      rfl
    · rw [next_session1_first _ hs hf]
      rfl
  case session2 =>
    have hm := ((npError_header (by simp [hs]) (by simp [hs])).1 h).1
    rw [Matches, hs] at hm
    cases hf : q.firstPktFlag
    · rw [next_session2_hit _ hs hf (hm.resolve_left (by simp [hf]))]
      rfl
    · rw [next_session2_first _ hs hf]
      rfl
  case seqNum1 =>
    rw [next_seqNum1 _ hs]
    rfl
  case seqNum2 =>
    have hm := ((npError_seqNum2 hs).1 h).2.1
    have h0 : (beat w).tdata.extractLsb' 0 16 ≠ 0 := fun h0 => Bool.false_ne_true (hm.2 h0)
    rw [next_seqNum2 _ hs]
    simp only [h0, if_false]
    rfl
  case msg =>
    by_cases hl : q.bytesLeft < 6 ∧ q.msgLeft = 0
    · exact absurd ((npError_last hs hl.1 hl.2).1 h).1 Bool.false_ne_true
    · by_cases h4 : q.bytesLeft < 4
      · have h6 : q.bytesLeft < 6 := BitVec.lt_def.2 (lt_trans (BitVec.lt_def.1 h4) (by decide))
        have hm : q.msgLeft ≠ 0 := fun hm => hl ⟨h6, hm⟩
        rw [next_length hs h4 hm]
        exact hs
      · rw [next_body hs hl h4]
        exact hs

/-- The words of the header that are still to come. -/
def headerLeft : NpState → ℕ
  | .idle => 5
  | .session1 => 4
  | .session2 => 3
  | .seqNum1 => 2
  | .seqNum2 => 1
  | .msg => 0

/-- `tkeep` of a last word of fewer than four bytes. -/
theorem keep_ne_full {n : ℕ} (hn : n < 4) : keep n ≠ 0xF := by
  interval_cases n <;> decide

/-- **A packet that ends in its header is an error**, whatever its words. -/
theorem not_quiet_of_short {pkt : List Byte} {bs : List Axis} (hc : Carries pkt bs) {q : MoldRegs}
    (hlen : pkt.length < 4 * headerLeft q.state) : ¬ Quiet (moldCore.trace q bs) := by
  induction hc generalizing q with
  | @last p pad hp hpad =>
    intro hquiet
    have hno := (quiet_cons.1 hquiet).1
    have hmsg : q.state ≠ .msg := fun hs => by
      rw [hs] at hlen
      exact Nat.not_lt_zero _ hlen
    by_cases hs : q.state = .seqNum2
    · -- the word is the right one to end a packet, but not full
      rw [hs] at hlen
      exact keep_ne_full hlen ((npError_seqNum2 hs).1 hno).2.2
    · exact Bool.noConfusion ((npError_header hs hmsg).1 hno).2.1
  | @more p rest bs hp _ ih =>
    intro hquiet
    obtain ⟨hno, hrest⟩ := quiet_cons.1 hquiet
    refine ih ?_ hrest
    have hstate : (moldCore.next q ⟨true, false, word p, 0xF⟩).state = succState q.state :=
      state_of_quiet hno
    rw [hstate]
    rw [List.length_append, hp] at hlen
    cases hs : q.state <;> rw [hs] at hlen <;> simp only [succState, headerLeft] at hlen ⊢ <;> omega

end ItchOrderBook.Framing
