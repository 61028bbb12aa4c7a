import ItchOrderBook.Framing.Agreement

/-!
# Packets with a wrong header

What the RTL does with a packet whose session id or sequence number is not the expected one. After
a mismatch it is back in `IDLE` in the middle of the packet, with `compare_q` as it was, and takes
the next word for the first one of a header; a mismatch in the sequence number from its third byte
on is reported but not acted on; and a first packet fixes the session id whatever its number.

`Harmless` says which words leave no trace on a parser that waits for a packet, and `dropped_iff`
that these are exactly the packets that are dropped.
-/

namespace ItchOrderBook.Framing

open Ref Rtl

/-! ### What is asked -/

/-- The packet has another session id than the recorded one, or another number than the expected
one. -/
def BadHeader (q : MoldRegs) (pkt : List Byte) : Prop :=
  (q.firstPktFlag = false ∧ sessionBits pkt ≠ q.sessionId) ∨ seqBits pkt ≠ q.seqExpect

/-- A packet that is as the parser expects it, with messages of at most 254 bytes. -/
structure Correct (q : MoldRegs) (pkt : List Byte) : Prop where
  length : 20 ≤ pkt.length
  session : q.firstPktFlag = true ∨ q.sessionId = sessionBits pkt
  seq : q.seqExpect = seqBits pkt
  framed : WellFramed pkt
  lengths : LengthsOk (countOf pkt) (pkt.drop 20)

/-- The packet sent in `cycles` is dropped: there is an error, no word is presented, the expected
number stays, and every correct packet is then accepted as it would have been without it. -/
structure Dropped (q : MoldRegs) (cycles : List Axis) : Prop where
  error : ∃ o ∈ moldudp64Parser.trace q cycles, o.1 = true
  silent : ∀ o ∈ moldudp64Parser.trace q cycles, o.2 = none
  seqExpect : (moldudp64Parser.run q cycles).seqExpect = q.seqExpect
  accepts : ∀ pkt' cycles', Correct q pkt' →
    Carries pkt' (cycles'.filter fun axis => axis.tvalid) →
    moldudp64Parser.trace (moldudp64Parser.run q cycles) cycles' =
      moldudp64Parser.trace q cycles' ∧
    ∀ o ∈ moldudp64Parser.trace q cycles', o.1 = false

/-- The words that a parser in `IDLE` with `compare_q = c` reads without leaving a trace. -/
inductive Harmless (session : BitVec 80) (seq : BitVec 64) : BitVec 32 → List (BitVec 32) → Prop
  /-- At the end the parser must wait for the first word of a header again. -/
  | done : Harmless session seq (session.extractLsb' 48 32) []
  /-- A word that is not the awaited one. -/
  | skip {c w : BitVec 32} {ws : List (BitVec 32)} (hw : w ≠ c) (hws : Harmless session seq c ws) :
    Harmless session seq c (w :: ws)
  /-- A mismatch in the second word: from then on that word is awaited. -/
  | session1 {c w : BitVec 32} {ws : List (BitVec 32)} (hw : w ≠ session.extractLsb' 16 32)
    (hws : Harmless session seq (session.extractLsb' 16 32) ws) :
    Harmless session seq c (c :: w :: ws)
  /-- A mismatch in the third word: from then on that word is awaited. -/
  | session2 {c w : BitVec 32} {ws : List (BitVec 32)}
    (hw : w ≠ session.extractLsb' 0 16 ++ seq.extractLsb' 48 16)
    (hws : Harmless session seq (session.extractLsb' 0 16 ++ seq.extractLsb' 48 16) ws) :
    Harmless session seq c (c :: session.extractLsb' 16 32 :: w :: ws)
  /-- Any sequence number behind the third word, but no messages. -/
  | heartbeat {c w w' : BitVec 32} {ws : List (BitVec 32)} (hw : w'.extractLsb' 0 16 = 0)
    (hws : Harmless session seq (session.extractLsb' 48 32) ws) :
    Harmless session seq c (c :: session.extractLsb' 16 32 ::
      (session.extractLsb' 0 16 ++ seq.extractLsb' 48 16) :: w :: w' :: ws)

/-! ### Reading a header once the session is known -/

/-- The registers of a parser that knows its session, in the state `st` with `compare_q = c`; what
is not named here is free. -/
structure At (session : BitVec 80) (seq : BitVec 64) (st : NpState) (c : BitVec 32)
    (q : MoldRegs) : Prop where
  state : q.state = st
  firstPkt : q.firstPktFlag = false
  sessionId : q.sessionId = session
  seqExpect : q.seqExpect = seq
  compare : q.compare = c

namespace At

variable {session : BitVec 80} {seq : BitVec 64} {c : BitVec 32} {q : MoldRegs} {axis : Axis}

theorem idle_hit (h : At session seq .idle c q) (hw : axis.tdata = c) :
    At session seq .session1 (session.extractLsb' 16 32) (moldCore.next q axis) := by
  rw [next_idle_hit axis h.state h.firstPkt (h.compare.trans hw.symm)]
  exact ⟨rfl, h.firstPkt, h.sessionId, h.seqExpect, by rw [← h.sessionId]; rfl⟩

theorem idle_miss (h : At session seq .idle c q) (hw : axis.tdata ≠ c) :
    At session seq .idle c (moldCore.next q axis) := by
  rw [next_idle_miss axis h.state h.firstPkt (by rw [h.compare]; exact hw.symm)]
  exact ⟨h.state, h.firstPkt, h.sessionId, h.seqExpect, h.compare⟩

theorem session1_hit (h : At session seq .session1 c q) (hw : axis.tdata = c) :
    At session seq .session2 (session.extractLsb' 0 16 ++ seq.extractLsb' 48 16)
      (moldCore.next q axis) := by
  rw [next_session1_hit axis h.state h.firstPkt (h.compare.trans hw.symm)]
  exact ⟨rfl, h.firstPkt, h.sessionId, h.seqExpect, by rw [← h.sessionId, ← h.seqExpect]; rfl⟩

theorem session1_miss (h : At session seq .session1 c q) (hw : axis.tdata ≠ c) :
    At session seq .idle c (moldCore.next q axis) := by
  rw [next_session1_miss axis h.state h.firstPkt (by rw [h.compare]; exact hw.symm)]
  exact ⟨rfl, h.firstPkt, h.sessionId, h.seqExpect, h.compare⟩

theorem session2_hit (h : At session seq .session2 c q) (hw : axis.tdata = c) :
    At session seq .seqNum1 (seq.extractLsb' 16 32) (moldCore.next q axis) := by
  rw [next_session2_hit axis h.state h.firstPkt (h.compare.trans hw.symm)]
  exact ⟨rfl, h.firstPkt, h.sessionId, h.seqExpect, by rw [← h.seqExpect]; rfl⟩

theorem session2_miss (h : At session seq .session2 c q) (hw : axis.tdata ≠ c) :
    At session seq .idle c (moldCore.next q axis) := by
  rw [next_session2_miss axis h.state h.firstPkt (by rw [h.compare]; exact hw.symm)]
  exact ⟨rfl, h.firstPkt, h.sessionId, h.seqExpect, h.compare⟩

theorem seqNum1 (h : At session seq .seqNum1 c q) (axis : Axis) :
    At session seq .seqNum2 (seq.extractLsb' 0 16 ++ (0 : BitVec 16)) (moldCore.next q axis) := by
  rw [next_seqNum1 axis h.state]
  exact ⟨rfl, rfl, h.sessionId, h.seqExpect, by rw [← h.seqExpect]; rfl⟩

theorem seqNum2_empty (h : At session seq .seqNum2 c q) (hw : axis.tdata.extractLsb' 0 16 = 0) :
    At session seq .idle (session.extractLsb' 48 32) (moldCore.next q axis) := by
  rw [next_seqNum2 axis h.state]
  simp only [hw, if_true]
  exact ⟨rfl, h.firstPkt, h.sessionId, (BitVec.add_zero _).trans h.seqExpect,
    by rw [← h.sessionId]; rfl⟩

theorem seqNum2_msg (h : At session seq .seqNum2 c q) (hw : axis.tdata.extractLsb' 0 16 ≠ 0) :
    (moldCore.next q axis).state = .msg := by
  rw [next_seqNum2 axis h.state]
  simp only [hw, if_false]
  rfl

end At

/-- No word is presented. -/
def Silent (os : List MoldOut) : Prop := ∀ o ∈ os, o.2 = none

@[simp] theorem silent_nil : Silent [] := by simp [Silent]

/-- In the header states no word is presented. -/
theorem silent_cons {q : MoldRegs} (hq : q.state ≠ .msg) (axis : Axis) (bs : List Axis) :
    Silent (moldCore.trace q (axis :: bs)) ↔ Silent (moldCore.trace (moldCore.next q axis) bs) := by
  rw [Circuit.trace_cons, Silent, List.forall_mem_cons, out_header _ hq]
  exact and_iff_right rfl

theorem At.silent_cons {session : BitVec 80} {seq : BitVec 64} {st : NpState} {c : BitVec 32}
    {q : MoldRegs} (h : At session seq st c q) (hst : st ≠ .msg) (axis : Axis) (bs : List Axis) :
    Silent (moldCore.trace q (axis :: bs)) ↔ Silent (moldCore.trace (moldCore.next q axis) bs) :=
  Framing.silent_cons (by rw [h.state]; exact hst) axis bs

/-! ### Harmless words leave no trace -/

section Harmless

variable {session : BitVec 80} {seq : BitVec 64}

/-- **Harmless words leave no trace.** -/
theorem harmless_run {c : BitVec 32} {ws : List (BitVec 32)} (h : Harmless session seq c ws)
    {q : MoldRegs} {bs : List Axis} (hq : At session seq .idle c q)
    (hbs : bs.map (fun axis => axis.tdata) = ws) :
    At session seq .idle (session.extractLsb' 48 32) (moldCore.run q bs) ∧
      Silent (moldCore.trace q bs) := by
  induction h generalizing q bs with
  | done =>
    obtain rfl := List.map_eq_nil_iff.1 hbs
    exact ⟨hq, silent_nil⟩
  | skip hw _ ih =>
    obtain ⟨a, bs, rfl, rfl, hbs'⟩ := List.map_eq_cons_iff.1 hbs
    rw [Circuit.run_cons, hq.silent_cons (by decide)]
    exact ih (hq.idle_miss hw) hbs'
  | session1 hw _ ih =>
    obtain ⟨a, bs, rfl, ha, hbs1⟩ := List.map_eq_cons_iff.1 hbs
    obtain ⟨a', bs, rfl, rfl, hbs2⟩ := List.map_eq_cons_iff.1 hbs1
    have hq1 := hq.idle_hit ha
    rw [Circuit.run_cons, Circuit.run_cons, hq.silent_cons (by decide),
      hq1.silent_cons (by decide)]
    exact ih (hq1.session1_miss hw) hbs2
  | session2 hw _ ih =>
    obtain ⟨a, bs, rfl, ha, hbs1⟩ := List.map_eq_cons_iff.1 hbs
    obtain ⟨a', bs, rfl, ha', hbs2⟩ := List.map_eq_cons_iff.1 hbs1
    obtain ⟨a'', bs, rfl, rfl, hbs3⟩ := List.map_eq_cons_iff.1 hbs2
    have hq1 := hq.idle_hit ha
    have hq2 := hq1.session1_hit ha'
    rw [Circuit.run_cons, Circuit.run_cons, Circuit.run_cons, hq.silent_cons (by decide),
      hq1.silent_cons (by decide), hq2.silent_cons (by decide)]
    exact ih (hq2.session2_miss hw) hbs3
  | heartbeat hw _ ih =>
    obtain ⟨a, bs, rfl, ha, hbs1⟩ := List.map_eq_cons_iff.1 hbs
    obtain ⟨a', bs, rfl, ha', hbs2⟩ := List.map_eq_cons_iff.1 hbs1
    obtain ⟨a'', bs, rfl, ha'', hbs3⟩ := List.map_eq_cons_iff.1 hbs2
    obtain ⟨a3, bs, rfl, rfl, hbs4⟩ := List.map_eq_cons_iff.1 hbs3
    obtain ⟨a4, bs, rfl, rfl, hbs5⟩ := List.map_eq_cons_iff.1 hbs4
    have hq1 := hq.idle_hit ha
    have hq2 := hq1.session1_hit ha'
    have hq3 := hq2.session2_hit ha''
    have hq4 := hq3.seqNum1 a3
    rw [Circuit.run_cons, Circuit.run_cons, Circuit.run_cons, Circuit.run_cons, Circuit.run_cons,
      hq.silent_cons (by decide), hq1.silent_cons (by decide), hq2.silent_cons (by decide),
      hq3.silent_cons (by decide), hq4.silent_cons (by decide)]
    exact ih (hq4.seqNum2_empty hw) hbs5

/-- **Words that leave no trace are harmless.** -/
theorem harmless_of_run (n : ℕ) {c : BitVec 32} {q : MoldRegs} {bs : List Axis}
    (hn : bs.length = n) (hq : At session seq .idle c q)
    (hsilent : Silent (moldCore.trace q bs)) (hidle : (moldCore.run q bs).state = .idle)
    (hcompare : (moldCore.run q bs).compare = session.extractLsb' 48 32) :
    Harmless session seq c (bs.map fun axis => axis.tdata) := by
  induction n using Nat.strongRecOn generalizing c q bs with
  | ind n ih =>
    have busy : ∀ {st c q}, At session seq st c q → st ≠ .idle → (moldCore.run q []).state ≠ .idle :=
      fun h hst hidle => hst (h.state.symm.trans hidle)
    -- every branch ends with a parser that waits for a word again, on a shorter list
    rcases bs with _ | ⟨a, bs⟩
    · obtain rfl : c = session.extractLsb' 48 32 := hq.compare.symm.trans hcompare
      exact .done
    rw [hq.silent_cons (by decide)] at hsilent
    rw [Circuit.run_cons] at hidle hcompare
    by_cases ha : a.tdata = c
    swap
    · refine .skip ha (ih _ ?_ rfl (hq.idle_miss ha) hsilent hidle hcompare)
      simp only [List.length_cons] at hn
      omega
    subst ha
    have hq1 := hq.idle_hit rfl
    rcases bs with _ | ⟨a1, bs⟩
    · exact absurd hidle (busy hq1 (by decide))
    rw [hq1.silent_cons (by decide)] at hsilent
    rw [Circuit.run_cons] at hidle hcompare
    by_cases h1 : a1.tdata = session.extractLsb' 16 32
    swap
    · refine .session1 h1 (ih _ ?_ rfl (hq1.session1_miss h1) hsilent hidle hcompare)
      simp only [List.length_cons] at hn
      omega
    have hq2 := hq1.session1_hit h1
    rcases bs with _ | ⟨a2, bs⟩
    · exact absurd hidle (busy hq2 (by decide))
    rw [hq2.silent_cons (by decide)] at hsilent
    rw [Circuit.run_cons] at hidle hcompare
    rw [List.map_cons, List.map_cons, List.map_cons, h1]
    by_cases h2 : a2.tdata = session.extractLsb' 0 16 ++ seq.extractLsb' 48 16
    swap
    · refine .session2 h2 (ih _ ?_ rfl (hq2.session2_miss h2) hsilent hidle hcompare)
      simp only [List.length_cons] at hn
      omega
    have hq3 := hq2.session2_hit h2
    rcases bs with _ | ⟨a3, bs⟩
    · exact absurd hidle (busy hq3 (by decide))
    rw [hq3.silent_cons (by decide)] at hsilent
    rw [Circuit.run_cons] at hidle hcompare
    have hq4 := hq3.seqNum1 a3
    rcases bs with _ | ⟨a4, bs⟩
    · exact absurd hidle (busy hq4 (by decide))
    rw [hq4.silent_cons (by decide)] at hsilent
    rw [Circuit.run_cons] at hidle hcompare
    rw [List.map_cons, List.map_cons, h2]
    by_cases h4 : a4.tdata.extractLsb' 0 16 = 0
    · refine .heartbeat h4 (ih _ ?_ rfl (hq4.seqNum2_empty h4) hsilent hidle hcompare)
      simp only [List.length_cons] at hn
      omega
    · -- messages are announced: the next word would be presented
      have hmsg := hq4.seqNum2_msg h4
      rcases bs with _ | ⟨a5, bs⟩
      · exact absurd (hmsg.symm.trans hidle) (by decide)
      · have hout := hsilent _ List.mem_cons_self
        rw [out_msg hmsg] at hout
        cases hout

end Harmless

/-! ### A wrong header is reported -/

theorem quiet_beat {q : MoldRegs} {w : BitVec 32} {bs : List Axis} :
    Quiet (moldCore.trace q (beat w :: bs)) ↔
      q.npError (beat w) = false ∧ Quiet (moldCore.trace (moldCore.next q (beat w)) bs) := by
  rw [Circuit.trace_cons, quiet_cons]
  rfl

theorem At.quiet_beat {session : BitVec 80} {seq : BitVec 64} {st : NpState} {c : BitVec 32}
    {q : MoldRegs} (h : At session seq st c q) (h2 : st ≠ .seqNum2) (h1 : st ≠ .msg)
    {w : BitVec 32} {bs : List Axis} (hquiet : Quiet (moldCore.trace q (beat w :: bs))) :
    w = c ∧ Quiet (moldCore.trace (moldCore.next q (beat w)) bs) := by
  obtain ⟨herr, hrest⟩ := Framing.quiet_beat.1 hquiet
  refine ⟨?_, hrest⟩
  rw [beat, npError_header (by rw [h.state]; exact h2) (by rw [h.state]; exact h1), Matches,
    h.state, h.firstPkt, h.compare] at herr
  cases st
  case seqNum2 => exact absurd rfl h2
  case msg => exact absurd rfl h1
  case seqNum1 => exact herr.1.symm
  all_goals exact (herr.1.resolve_left Bool.false_ne_true).symm

theorem append_inj {n m : ℕ} {x x' : BitVec n} {y y' : BitVec m} (h : x ++ y = x' ++ y') :
    x = x' ∧ y = y' := by
  constructor
  · rw [← BitVec.extractLsb'_append_eq_left (a := x) (b := y), h,
      BitVec.extractLsb'_append_eq_left]
  · rw [← BitVec.extractLsb'_append_eq_right (a := x) (b := y), h,
      BitVec.extractLsb'_append_eq_right]

/-- The sequence number put together from its three parts. -/
theorem seq_assembled (seq : BitVec 64) :
    seq.extractLsb' 48 16 ++ seq.extractLsb' 16 32 ++ seq.extractLsb' 0 16 = seq := by
  apply BitVec.eq_of_getLsbD_eq
  intro i hi
  simp only [BitVec.getLsbD_append, BitVec.getLsbD_extractLsb']
  by_cases h1 : i < 16
  · simp [h1]
  · by_cases h2 : i - 16 < 32
    · simp [h1, h2, show 16 + (i - 16) = i by omega]
    · simp [h1, h2, show 48 + (i - 16 - 32) = i by omega]
      omega

/-- A header without an error is the expected one. -/
theorem header_of_quiet {session session' : BitVec 80} {seq seq' : BitVec 64} {q : MoldRegs}
    (hq : At session seq .idle (session.extractLsb' 48 32) q) {count : BitVec 16} {tlast : Bool}
    (hquiet : Quiet (moldCore.trace q (headerBeats session' seq' count tlast))) :
    session' = session ∧ seq' = seq := by
  obtain ⟨h0, hquiet⟩ := hq.quiet_beat (by decide) (by decide) hquiet
  have hq1 : At session seq _ _ (moldCore.next _ (beat _)) := hq.idle_hit h0
  obtain ⟨h1, hquiet⟩ := hq1.quiet_beat (by decide) (by decide) hquiet
  have hq2 : At session seq _ _ (moldCore.next _ (beat _)) := hq1.session1_hit h1
  obtain ⟨h2, hquiet⟩ := hq2.quiet_beat (by decide) (by decide) hquiet
  have hq3 : At session seq _ _ (moldCore.next _ (beat _)) := hq2.session2_hit h2
  obtain ⟨h3, hquiet⟩ := hq3.quiet_beat (by decide) (by decide) hquiet
  have hq4 := hq3.seqNum1 (beat (seq'.extractLsb' 16 32))
  have h4 := (quiet_cons.1 hquiet).1
  rw [out_header _ (by rw [hq4.state]; decide), npError_seqNum2 hq4.state, Matches, hq4.state,
    hq4.compare] at h4
  obtain ⟨hlow, hhigh⟩ := append_inj h2
  have hlast : seq'.extractLsb' 0 16 = seq.extractLsb' 0 16 := by
    rw [← BitVec.extractLsb'_append_eq_left (a := seq'.extractLsb' 0 16) (b := count)]
    exact h4.1.symm.trans BitVec.extractLsb'_append_eq_left
  constructor
  · rw [← session_assembled session', h0, h1, hlow, session_assembled]
  · rw [← seq_assembled seq', hhigh, h3, hlast, seq_assembled]

/-! ### Registers that do not matter -/

/-- The registers agree but for those that are written before they are read. -/
structure Alike (q q' : MoldRegs) : Prop where
  state : q.state = q'.state
  firstPkt : q.firstPktFlag = q'.firstPktFlag
  sessionId : q.sessionId = q'.sessionId
  seqExpect : q.seqExpect = q'.seqExpect
  compare : q.compare = q'.compare
  payload : q.state = .msg → q.msgLeft = q'.msgLeft ∧ q.bytesLeft = q'.bytesLeft

theorem alike_step {q q' : MoldRegs} (h : Alike q q') (axis : Axis) :
    moldudp64Parser.out q axis = moldudp64Parser.out q' axis ∧
      Alike (moldudp64Parser.next q axis) (moldudp64Parser.next q' axis) := by
  obtain ⟨session, compare, seq, msgLeft, bytesLeft, first, v, data, last, st⟩ := q
  obtain ⟨session', compare', seq', msgLeft', bytesLeft', first', v', data', last', st'⟩ := q'
  obtain ⟨h1, h2, h3, h4, h5, h6⟩ := h
  dsimp only at h1 h2 h3 h4 h5 h6
  subst h1 h2 h3 h4 h5
  cases hv : axis.tvalid
  · simp only [moldudp64Parser, MoldRegs.next, MoldRegs.npError, hv]
    exact ⟨rfl, ⟨rfl, rfl, rfl, rfl, rfl, h6⟩⟩
  · simp only [moldudp64Parser, MoldRegs.next, MoldRegs.npError, hv, if_true, Bool.true_and,
      MoldRegs.comb]
    cases st
    case idle =>
      simp only [MoldRegs.onIdle]
      split_ifs <;> exact ⟨rfl, ⟨rfl, rfl, rfl, rfl, rfl, fun h => by cases h⟩⟩
    case session1 =>
      simp only [MoldRegs.onSession1]
      split_ifs <;> exact ⟨rfl, ⟨rfl, rfl, rfl, rfl, rfl, fun h => by cases h⟩⟩
    case session2 =>
      simp only [MoldRegs.onSession2]
      split_ifs <;> exact ⟨rfl, ⟨rfl, rfl, rfl, rfl, rfl, fun h => by cases h⟩⟩
    case seqNum1 => exact ⟨rfl, ⟨rfl, rfl, rfl, rfl, rfl, fun h => by cases h⟩⟩
    case seqNum2 =>
      simp only [MoldRegs.onSeqNum2]
      split_ifs
      · exact ⟨rfl, ⟨rfl, rfl, rfl, rfl, rfl, fun h => by cases h⟩⟩
      · exact ⟨rfl, ⟨rfl, rfl, rfl, rfl, rfl, fun _ => ⟨rfl, rfl⟩⟩⟩
    case msg =>
      obtain ⟨rfl, rfl⟩ := h6 rfl
      exact ⟨rfl, ⟨rfl, rfl, rfl, rfl, rfl, fun _ => ⟨rfl, rfl⟩⟩⟩

/-- Registers that agree where it matters have the same trace. -/
theorem alike_trace {q q' : MoldRegs} (h : Alike q q') (cycles : List Axis) :
    moldudp64Parser.trace q cycles = moldudp64Parser.trace q' cycles := by
  induction cycles generalizing q q' with
  | nil => rfl
  | cons axis cycles ih =>
    obtain ⟨hout, hnext⟩ := alike_step h axis
    rw [Circuit.trace_cons, Circuit.trace_cons, hout, ih hnext]

/-! ### What acceptance says about the registers -/

/-- A word of the payload cannot both end the packet and not end it. -/
theorem msg_not_both {q : MoldRegs} (hq : q.state = .msg) {w w' : BitVec 32} {k k' : BitVec 4}
    (h : q.npError ⟨true, true, w, k⟩ = false) (h' : q.npError ⟨true, false, w', k'⟩ = false) :
    False := by
  by_cases hl : q.bytesLeft < 6 ∧ q.msgLeft = 0
  · exact absurd ((npError_last hq hl.1 hl.2).1 h').1 Bool.false_ne_true
  · exact absurd ((npError_more hq hl).1 h).1 (by decide)

/-- A parser that accepts both an empty packet and one with a message under this header waits for
its first word. -/
theorem idle_of_accepts {session : BitVec 80} {seq : BitVec 64} {q : MoldRegs} {count : BitVec 16}
    (hempty : Quiet (moldCore.trace q (headerBeats session seq 0 true)))
    (hmsg : Quiet (moldCore.trace q (headerBeats session seq count false))) :
    q.state = .idle ∧ (q.firstPktFlag = true ∨ q.compare = session.extractLsb' 48 32) := by
  obtain ⟨e0, hempty⟩ := quiet_beat.1 hempty
  obtain ⟨e1, hempty⟩ := quiet_beat.1 hempty
  obtain ⟨e2, hempty⟩ := quiet_beat.1 hempty
  obtain ⟨e3, hempty⟩ := quiet_beat.1 hempty
  obtain ⟨-, hmsg⟩ := quiet_beat.1 hmsg
  obtain ⟨-, hmsg⟩ := quiet_beat.1 hmsg
  obtain ⟨-, hmsg⟩ := quiet_beat.1 hmsg
  obtain ⟨-, hmsg⟩ := quiet_beat.1 hmsg
  have hstate := state_of_quiet e3
  rw [state_of_quiet e2, state_of_quiet e1, state_of_quiet e0] at hstate
  have hempty := (quiet_cons.1 hempty).1
  have hmsg := (quiet_cons.1 hmsg).1
  by_cases hidle : q.state = .idle
  · refine ⟨hidle, ?_⟩
    have hm := ((npError_header (by simp [hidle]) (by simp [hidle])).1 e0).1
    rwa [Matches, hidle] at hm
  · -- from any other state the fifth word is one of the payload, and cannot end a packet with and
    -- without a message behind the header
    exfalso
    replace hstate := hstate.trans
      (show succState (succState (succState (succState q.state))) = .msg by
        cases hs : q.state <;> first | rfl | exact absurd hs hidle)
    rw [out_msg hstate] at hempty hmsg
    exact msg_not_both hstate hempty hmsg

/-- There is a packet for every header, and for every payload behind it. -/
theorem exists_pkt (session : BitVec 80) (seq : BitVec 64) (count payload : List Byte)
    (hcount : count.length = 2) : ∃ pkt : List Byte, 20 ≤ pkt.length ∧ sessionBits pkt = session ∧
      seqBits pkt = seq ∧ countBits pkt = bits 16 count ∧ pkt.drop 20 = payload := by
  obtain ⟨p, hp, hsession⟩ := exists_bits (w := 8) (k := 10) rfl session
  obtain ⟨r, hr, hseq⟩ := exists_bits (w := 8) (k := 8) rfl seq
  refine ⟨[] ++ p ++ (r ++ count ++ payload), by simp [hp, hr, hcount]; omega, ?_, ?_, ?_, ?_⟩
  · rw [sessionBits, sessionOf, ← hsession]
    exact congrArg _ (slice_append rfl (by simp [hp]))
  · rw [seqBits, ← hseq, show [] ++ p ++ (r ++ count ++ payload) = p ++ r ++ (count ++ payload) by simp,
      slice_append hp.symm (by simp [hr])]
  · rw [countBits, show [] ++ p ++ (r ++ count ++ payload) = (p ++ r) ++ count ++ payload by simp,
      slice_append (by simp [hp, hr]) (by simp [hcount])]
  · rw [show [] ++ p ++ (r ++ count ++ payload) = (p ++ r ++ count) ++ payload by simp]
    exact List.drop_left' (by simp [hp, hr, hcount])

/-- Correct packets with this header exist, without and with a message. -/
theorem exists_correct {q : MoldRegs} {session : BitVec 80}
    (hs : q.firstPktFlag = true ∨ q.sessionId = session) (count payload : List Byte)
    (hcount : count.length = 2) (hfits : Fits (fromBytes count) payload)
    (hlens : LengthsOk (fromBytes count) payload) :
    ∃ pkt bs, Correct q pkt ∧ Carries pkt (headerBeats session q.seqExpect (bits 16 count)
      (payload = []) ++ bs) := by
  obtain ⟨pkt, hlen, h1, h2, h3, h4⟩ := exists_pkt session q.seqExpect count payload hcount
  have hne : pkt ≠ [] := fun h => by simp [h] at hlen
  obtain ⟨bs, hbs, -⟩ := carries_header hlen (carries_beats hne)
  have hc : countOf pkt = fromBytes count := by
    rw [← toNat_countBits hlen, h3, toNat_bits (by simp [hcount]), fromBytes_eq]
  refine ⟨pkt, bs, ⟨hlen, h1.symm ▸ hs, h2.symm, ?_, ?_⟩, ?_⟩
  · rw [wellFramed_iff, hc, h4]
    exact hfits
  · rw [hc, h4]
    exact hlens
  · rw [h1, h2, h3, h4] at hbs
    rw [← hbs]
    exact carries_beats hne

/-- **Acceptance pins the state.** A parser that reports no error in any correct packet waits for
the first word of one. -/
theorem idle_of_correct {q q' : MoldRegs} (session : BitVec 80)
    (hs : q.firstPktFlag = true ∨ q.sessionId = session)
    (h : ∀ pkt bs, Correct q pkt → Carries pkt bs → Quiet (moldudp64Parser.trace q' bs)) :
    q'.state = .idle ∧ (q'.firstPktFlag = true ∨ q'.compare = session.extractLsb' 48 32) := by
  have accepts : ∀ count payload : List Byte, count.length = 2 → Fits (fromBytes count) payload →
      LengthsOk (fromBytes count) payload → Quiet (moldCore.trace (core q')
        (headerBeats session q.seqExpect (bits 16 count) (payload = []))) := by
    intro count payload hcount hfits hlens
    obtain ⟨pkt, bs, hcorrect, hc⟩ := exists_correct hs count payload hcount hfits hlens
    have hquiet := h pkt _ hcorrect hc
    rw [quiet_trace_iff, hc.filter_tvalid, Circuit.trace_append, quiet_append] at hquiet
    exact hquiet.1
  refine idle_of_accepts (q := core q') (accepts [0, 0] [] rfl (fits_zero.2 rfl) trivial)
    (accepts [0, 1] [0, 4, 1, 2, 3, 4] rfl ?_ (by decide))
  exact ⟨[[0, 4, 1, 2, 3, 4]], rfl, by simp [IsMsg, fromBytes], rfl⟩

/-! ### The first packet -/

theorem next_firstPkt {q : MoldRegs} (h : q.firstPktFlag = false) (axis : Axis) :
    (moldCore.next q axis).firstPktFlag = false := by
  cases hs : q.state
  · by_cases hc : q.compare = axis.tdata
    · rw [next_idle_hit _ hs h hc]; exact h
    · rw [next_idle_miss _ hs h hc]; exact h
  · by_cases hc : q.compare = axis.tdata
    · rw [next_session1_hit _ hs h hc]; exact h
    · rw [next_session1_miss _ hs h hc]; exact h
  · by_cases hc : q.compare = axis.tdata
    · rw [next_session2_hit _ hs h hc]; exact h
    · rw [next_session2_miss _ hs h hc]; exact h
  · rw [next_seqNum1 _ hs]; rfl
  · rw [next_seqNum2 _ hs]
    dsimp only
    split_ifs <;> exact h
  · by_cases hl : q.bytesLeft < 6 ∧ q.msgLeft = 0
    · rw [next_last hs hl.1 hl.2]; exact h
    · by_cases h4 : q.bytesLeft < 4
      · rw [next_length hs h4 fun hm => hl
          ⟨BitVec.lt_def.2 (lt_trans (BitVec.lt_def.1 h4) (by decide)), hm⟩]
        exact h
      · rw [next_body hs hl h4]; exact h

theorem run_firstPkt {q : MoldRegs} (h : q.firstPktFlag = false) (bs : List Axis) :
    (moldCore.run q bs).firstPktFlag = false := by
  induction bs generalizing q with
  | nil => exact h
  | cons a bs ih => exact ih (next_firstPkt h a)

/-- A header, whatever it holds, ends the search for the first packet. -/
theorem run_header_firstPkt {q : MoldRegs} (hs : q.state = .idle) (session : BitVec 80)
    (seq : BitVec 64) (count : BitVec 16) (tlast : Bool) (bs : List Axis) :
    (moldCore.run q (headerBeats session seq count tlast ++ bs)).firstPktFlag = false := by
  obtain ⟨a0, a1, a2, a3, bs, hbs⟩ : ∃ a0 a1 a2 a3 bs',
      headerBeats session seq count tlast ++ bs = a0 :: a1 :: a2 :: a3 :: bs' :=
    ⟨_, _, _, _, _, rfl⟩
  rw [hbs]
  cases hf : q.firstPktFlag
  · exact run_firstPkt hf _
  · simp only [Circuit.run_cons]
    have h1 : (moldCore.next q a0).state = .session1 ∧
        (moldCore.next q a0).firstPktFlag = true := by
      rw [next_idle_first a0 hs hf]
      exact ⟨rfl, hf⟩
    generalize moldCore.next q a0 = q1 at h1
    have h2 : (moldCore.next q1 a1).state = .session2 ∧
        (moldCore.next q1 a1).firstPktFlag = true := by
      rw [next_session1_first a1 h1.1 h1.2]
      exact ⟨rfl, h1.2⟩
    generalize moldCore.next q1 a1 = q2 at h2
    have h3 : (moldCore.next q2 a2).state = .seqNum1 := by
      rw [next_session2_first a2 h2.1 h2.2]
      rfl
    generalize moldCore.next q2 a2 = q3 at h3
    apply run_firstPkt
    rw [next_seqNum1 a3 h3]
    rfl

/-! ### When a packet with a wrong header is dropped -/

/-- Words are presented by the core. -/
theorem silent_trace_iff (q : MoldRegs) (cycles : List Axis) :
    Silent (moldudp64Parser.trace q cycles) ↔
      Silent (moldCore.trace (core q) (cycles.filter fun axis => axis.tvalid)) := by
  rw [moldudp64Parser_paced.trace_eq trivial]
  constructor
  · intro h o ho
    by_contra hne
    exact hne (h o ((mem_weave (fun he => hne (by rw [he])) (Circuit.length_trace ..)).2 ho))
  · intro h o ho
    by_contra hne
    exact hne (h o ((mem_weave (fun he => hne (by rw [he])) (Circuit.length_trace ..)).1 ho))

section Dropped

variable {q : MoldRegs} {pkt : List Byte} {cycles : List Axis}

theorem correct_quiet (hq : Synced q) (h : Correct q pkt)
    (hc : Carries pkt (cycles.filter fun axis => axis.tvalid)) :
    Quiet (moldudp64Parser.trace q cycles) := by
  rw [quiet_trace_iff]
  exact (packet_run (q := core q) ⟨hq.idle, hq.compare⟩ h.session h.seq h.length h.lengths hc).2
    h.framed

/-- A packet with a wrong header is always reported once the session is known. -/
theorem badHeader_error (hlen : 20 ≤ pkt.length) (hbad : BadHeader q pkt)
    (hc : Carries pkt (cycles.filter fun axis => axis.tvalid))
    (hq : At q.sessionId q.seqExpect .idle (q.sessionId.extractLsb' 48 32) (core q)) :
    ∃ o ∈ moldudp64Parser.trace q cycles, o.1 = true := by
  by_contra hno
  have hquiet : Quiet (moldudp64Parser.trace q cycles) := fun o ho =>
    Bool.eq_false_iff.2 fun h => hno ⟨o, ho, h⟩
  obtain ⟨bs, hbs, -⟩ := carries_header hlen hc
  rw [quiet_trace_iff, hbs, Circuit.trace_append, quiet_append] at hquiet
  obtain ⟨hsession, hseq⟩ := header_of_quiet hq hquiet.1
  rcases hbad with ⟨-, h⟩ | h
  · exact h hsession
  · exact h hseq

theorem dropped_of_harmless (hlen : 20 ≤ pkt.length) (hbad : BadHeader q pkt)
    (hc : Carries pkt (cycles.filter fun axis => axis.tvalid)) (hf : q.firstPktFlag = false)
    (hidle : q.state = .idle) (hcompare : q.compare = q.sessionId.extractLsb' 48 32)
    (h : Harmless q.sessionId q.seqExpect (q.sessionId.extractLsb' 48 32)
      ((cycles.filter fun axis => axis.tvalid).map fun axis => axis.tdata)) : Dropped q cycles := by
  have hat : At q.sessionId q.seqExpect .idle (q.sessionId.extractLsb' 48 32) (core q) :=
    ⟨hidle, hf, rfl, rfl, hcompare⟩
  obtain ⟨hrun, hsilent⟩ := harmless_run h hat rfl
  rw [← moldudp64Parser_paced.core_run trivial] at hrun
  refine ⟨badHeader_error hlen hbad hc hat, (silent_trace_iff q cycles).2 hsilent, hrun.seqExpect,
    fun pkt' cycles' hcorrect hc' => ⟨alike_trace ?_ cycles', ?_⟩⟩
  · exact ⟨hrun.state.trans hidle.symm, hrun.firstPkt.trans hf.symm, hrun.sessionId, hrun.seqExpect,
      hrun.compare.trans hcompare.symm, fun h => absurd (hrun.state.symm.trans h) (by decide)⟩
  · exact correct_quiet ⟨hidle, fun _ => hcompare⟩ hcorrect hc'

theorem harmless_of_dropped (hlen : 20 ≤ pkt.length)
    (hc : Carries pkt (cycles.filter fun axis => axis.tvalid)) (h : Dropped q cycles) :
    q.firstPktFlag = false ∧ q.state = .idle ∧ q.compare = q.sessionId.extractLsb' 48 32 ∧
      Harmless q.sessionId q.seqExpect (q.sessionId.extractLsb' 48 32)
        ((cycles.filter fun axis => axis.tvalid).map fun axis => axis.tdata) := by
  obtain ⟨q', hq'⟩ : ∃ q', moldudp64Parser.run q cycles = q' := ⟨_, rfl⟩
  have hcore : core q' = moldCore.run (core q) (cycles.filter fun axis => axis.tvalid) := by
    rw [← hq', moldudp64Parser_paced.core_run trivial]
  have hquiet : ∀ pkt' bs, Correct q pkt' → Carries pkt' bs →
      Quiet (moldudp64Parser.trace q bs) ∧ Quiet (moldudp64Parser.trace q' bs) := by
    intro pkt' bs hcorrect hc'
    obtain ⟨heq, hno⟩ := h.accepts pkt' bs hcorrect (by rwa [hc'.filter_tvalid])
    rw [hq'] at heq
    exact ⟨hno, heq ▸ hno⟩
  have hidle : ∀ session, q.firstPktFlag = true ∨ q.sessionId = session →
      (q.state = .idle ∧ (q.firstPktFlag = true ∨ q.compare = session.extractLsb' 48 32)) ∧
      (q'.state = .idle ∧ (q'.firstPktFlag = true ∨ q'.compare = session.extractLsb' 48 32)) :=
    fun session hs => ⟨idle_of_correct session hs fun pkt' bs h1 h2 => (hquiet pkt' bs h1 h2).1,
      idle_of_correct session hs fun pkt' bs h1 h2 => (hquiet pkt' bs h1 h2).2⟩
  cases hf : q.firstPktFlag
  · obtain ⟨⟨hq, hcompare⟩, hq1, hcompare1⟩ := hidle _ (Or.inr rfl)
    have hcompare := hcompare.resolve_left (by simp [hf])
    have hf1 : q'.firstPktFlag = false := by
      have hrun := run_firstPkt (q := core q) hf (cycles.filter fun axis => axis.tvalid)
      rwa [← hcore] at hrun
    have hcompare1 := hcompare1.resolve_left (by simp [hf1])
    refine ⟨rfl, hq, hcompare, harmless_of_run _ rfl (q := core q) ⟨hq, hf, rfl, rfl, hcompare⟩
      ((silent_trace_iff q cycles).1 h.silent) ?_ ?_⟩
    · rw [← hcore]
      exact hq1
    · rw [← hcore]
      exact hcompare1
  · -- the first packet fixes the session: a correct packet of another one is refused afterwards
    exfalso
    have hf1 : q'.firstPktFlag = false := by
      obtain ⟨bs, hbs, -⟩ := carries_header hlen hc
      rw [hbs] at hcore
      exact (congrArg MoldRegs.firstPktFlag hcore).trans
        (run_header_firstPkt (q := core q) (hidle 0 (Or.inl hf)).1.1 _ _ _ _ bs)
    have h0 := (hidle 0 (Or.inl hf)).2.2.resolve_left (by simp [hf1])
    have h1 := (hidle (BitVec.allOnes 80) (Or.inl hf)).2.2.resolve_left (by simp [hf1])
    exact absurd (h0.symm.trans h1) (by decide)

/-- **Dropped packets.** A packet with a wrong header is dropped if and only if the session is
known, the parser waits for the first word of a header, and the words of the packet are harmless. -/
theorem dropped_iff (hlen : 20 ≤ pkt.length) (hbad : BadHeader q pkt)
    (hc : Carries pkt (cycles.filter fun axis => axis.tvalid)) :
    Dropped q cycles ↔
      q.firstPktFlag = false ∧ q.state = .idle ∧ q.compare = q.sessionId.extractLsb' 48 32 ∧
        Harmless q.sessionId q.seqExpect (q.sessionId.extractLsb' 48 32)
          ((cycles.filter fun axis => axis.tvalid).map fun axis => axis.tdata) :=
  ⟨harmless_of_dropped hlen hc, fun ⟨hf, hidle, hcompare, h⟩ =>
    dropped_of_harmless hlen hbad hc hf hidle hcompare h⟩

/-- A packet of another session without messages. -/
def strayPkt : List Byte :=
  [79, 84, 72, 69, 82, 84, 76, 65, 83, 84, 0, 0, 0, 0, 0, 0, 0, 2, 0, 0]

theorem strayPkt_dropped :
    Dropped (moldudp64Parser.run powerUp (beats firstPkt)) (beats strayPkt) := by
  refine (dropped_iff (show 20 ≤ strayPkt.length by decide) (Or.inl (by decide))
    (carries_beats (by decide))).2 ⟨by decide, by decide, by decide, ?_⟩
  exact .skip (by decide) (.skip (by decide) (.skip (by decide) (.skip (by decide)
    (.skip (by decide) .done))))

/-- A packet with the number 5 where 2 is expected, with one message. -/
def latePkt : List Byte :=
  [84, 69, 83, 84, 95, 84, 76, 65, 83, 84, 0, 0, 0, 0, 0, 0, 0, 5, 0, 1, 0, 4, 1, 2, 3, 4]

/-- After a good first packet, one with a wrong number is counted and its words are presented. -/
theorem latePkt_not_dropped :
    let q := moldudp64Parser.run powerUp (beats firstPkt)
    BadHeader q latePkt ∧ Carries latePkt (beats latePkt) ∧
      (moldudp64Parser.run q (beats latePkt)).seqExpect ≠ q.seqExpect ∧
      ¬ Dropped q (beats latePkt) :=
  ⟨Or.inr (by decide), carries_beats (by decide), by decide,
    fun h => absurd h.seqExpect (by decide)⟩

end Dropped

end ItchOrderBook.Framing
