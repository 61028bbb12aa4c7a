import ItchOrderBook.Framing.Header

/-!
# The RTL framing is the reference framing

From a synchronised state that agrees with the reference parser, a packet with the expected header
raises an error if and only if the reference parser refuses it. Otherwise the words behind the
header are presented, and the two parsers agree again (`framing_agrees`).
-/

namespace ItchOrderBook.Framing

open Ref Rtl

/-- The registers hold what the reference parser holds. -/
structure Tracks (s : MoldUDP64Parser) (q : MoldRegs) : Prop where
  seqExpect : q.seqExpect = BitVec.ofNat 64 s.seqExpected
  firstPkt : q.firstPktFlag = !s.firstPktReceived
  sessionId : s.firstPktReceived = true →
    ∃ id, s.sessionId = some id ∧ id.length = 10 ∧ q.sessionId = bits 80 id

/-- The words presented when none is lost: those behind the header, each in its own cycle. -/
def presented (cycles : List Axis) : List (Option (BitVec 32 × Bool)) :=
  weave (fun axis => axis.tvalid) none cycles (List.replicate 5 none ++
    ((cycles.filter fun axis => axis.tvalid).drop 5).map fun axis => some (axis.tdata, axis.tlast))

/-! ### A packet as a header and a payload -/

/-- The session id of a packet as the parser records it. -/
def sessionBits (pkt : List Byte) : BitVec 80 := bits 80 (sessionOf pkt)

/-- The sequence number of a packet as the parser compares it. -/
def seqBits (pkt : List Byte) : BitVec 64 := bits 64 (slice pkt 10 18)

/-- The message count of a packet as the parser takes it. -/
def countBits (pkt : List Byte) : BitVec 16 := bits 16 (slice pkt 18 20)

theorem toNat_countBits {pkt : List Byte} (hlen : 20 ≤ pkt.length) :
    (countBits pkt).toNat = countOf pkt := by
  refine toNat_bits (le_of_eq ?_)
  rw [length_slice]
  omega

theorem seqBits_eq (pkt : List Byte) : seqBits pkt = BitVec.ofNat 64 (seqOf pkt) := rfl

/-- A packet with a complete header, cut where its fields and its words end. -/
theorem exists_header {pkt : List Byte} (hlen : 20 ≤ pkt.length) :
    ∃ p0 p1 p2 p2' p3 p4 p4' payload : List Byte, p0.length = 4 ∧ p1.length = 4 ∧ p2.length = 2 ∧
      p2'.length = 2 ∧ p3.length = 4 ∧ p4.length = 2 ∧ p4'.length = 2 ∧
      pkt = p0 ++ (p1 ++ (p2 ++ p2' ++ (p3 ++ (p4 ++ p4' ++ payload)))) := by
  have split : ∀ (n : ℕ) (l : List Byte), n ≤ l.length →
      ∃ a b, a.length = n ∧ b.length = l.length - n ∧ l = a ++ b := fun n l h =>
    ⟨l.take n, l.drop n, by simp [h], by simp, (List.take_append_drop n l).symm⟩
  obtain ⟨p0, r, h0, hr, rfl⟩ := split 4 pkt (by omega)
  rw [List.length_append] at hlen
  obtain ⟨p1, r, h1, hr, rfl⟩ := split 4 r (by omega)
  rw [List.length_append] at hlen
  obtain ⟨p2, r, h2, hr, rfl⟩ := split 2 r (by omega)
  rw [List.length_append] at hlen
  obtain ⟨p2', r, h2', hr, rfl⟩ := split 2 r (by omega)
  rw [List.length_append] at hlen
  obtain ⟨p3, r, h3, hr, rfl⟩ := split 4 r (by omega)
  rw [List.length_append] at hlen
  obtain ⟨p4, r, h4, hr, rfl⟩ := split 2 r (by omega)
  rw [List.length_append] at hlen
  obtain ⟨p4', payload, h4', hr, rfl⟩ := split 2 r (by omega)
  exact ⟨p0, p1, p2, p2', p3, p4, p4', payload, h0, h1, h2, h2', h3, h4, h4', by simp⟩

/-- **The beats of a packet** are those of its header and of its payload. -/
theorem carries_header {pkt : List Byte} {bs : List Axis} (hlen : 20 ≤ pkt.length)
    (hc : Carries pkt bs) : ∃ bs',
      bs = headerBeats (sessionBits pkt) (seqBits pkt) (countBits pkt) (pkt.drop 20 = []) ++ bs' ∧
      if pkt.drop 20 = [] then bs' = [] else Carries (pkt.drop 20) bs' := by
  obtain ⟨p0, p1, p2, p2', p3, p4, p4', payload, h0, h1, h2, h2', h3, h4, h4', rfl⟩ :=
    exists_header hlen
  obtain ⟨pkt, hpkt⟩ : ∃ pkt, pkt = p0 ++ (p1 ++ (p2 ++ p2' ++ (p3 ++ (p4 ++ p4' ++ payload)))) :=
    ⟨_, rfl⟩
  have hsess : sessionOf pkt = p0 ++ p1 ++ p2 := by
    rw [hpkt, show p0 ++ (p1 ++ (p2 ++ p2' ++ (p3 ++ (p4 ++ p4' ++ payload)))) =
      [] ++ (p0 ++ p1 ++ p2) ++ (p2' ++ p3 ++ p4 ++ p4' ++ payload) by simp]
    exact slice_append rfl (by simp [h0, h1, h2])
  have hseq : slice pkt 10 18 = p2' ++ p3 ++ p4 := by
    rw [hpkt, show p0 ++ (p1 ++ (p2 ++ p2' ++ (p3 ++ (p4 ++ p4' ++ payload)))) =
      (p0 ++ p1 ++ p2) ++ (p2' ++ p3 ++ p4) ++ (p4' ++ payload) by simp]
    exact slice_append (by simp [h0, h1, h2]) (by simp [h2', h3, h4])
  have hcount : slice pkt 18 20 = p4' := by
    rw [hpkt, show p0 ++ (p1 ++ (p2 ++ p2' ++ (p3 ++ (p4 ++ p4' ++ payload)))) =
      (p0 ++ p1 ++ p2 ++ p2' ++ p3 ++ p4) ++ p4' ++ payload by simp]
    exact slice_append (by simp [h0, h1, h2, h2', h3, h4]) (by simp [h4'])
  have hdrop : pkt.drop 20 = payload := by
    rw [hpkt, show p0 ++ (p1 ++ (p2 ++ p2' ++ (p3 ++ (p4 ++ p4' ++ payload)))) =
      (p0 ++ p1 ++ p2 ++ p2' ++ p3 ++ p4 ++ p4') ++ payload by simp]
    exact List.drop_left' (by simp [h0, h1, h2, h2', h3, h4, h4'])
  -- each word of the header is a field of the session id or of the sequence number
  have hw0 : word p0 = (sessionBits pkt).extractLsb' 48 32 := by
    have hs := extract_bits (n := 80) (s := 48) (k := 32) [] p0 (p1 ++ p2) (by decide)
      (by simp [h1, h2]) (by simp [h0])
    rw [List.nil_append, ← List.append_assoc] at hs
    rw [sessionBits, hsess, hs]
    rfl
  have hw1 : word p1 = (sessionBits pkt).extractLsb' 16 32 := by
    rw [sessionBits, hsess]
    exact (extract_bits (n := 80) (s := 16) (k := 32) p0 p1 p2 (by decide) (by simp [h2])
      (by simp [h1])).symm
  have hw2 : word (p2 ++ p2') =
      (sessionBits pkt).extractLsb' 0 16 ++ (seqBits pkt).extractLsb' 48 16 := by
    have hs := extract_bits (n := 80) (s := 0) (k := 16) (p0 ++ p1) p2 [] (by decide) rfl
      (by simp [h2])
    have hq := extract_bits (n := 64) (s := 48) (k := 16) [] p2' (p3 ++ p4) (by decide)
      (by simp [h3, h4]) (by simp [h2'])
    rw [List.append_nil] at hs
    rw [List.nil_append, ← List.append_assoc] at hq
    rw [sessionBits, hsess, seqBits, hseq, hs, hq]
    exact (bits_append (n := 16) (k := 16) (m := p2') (by simp [h2'])).symm
  have hw3 : word p3 = (seqBits pkt).extractLsb' 16 32 := by
    rw [seqBits, hseq]
    exact (extract_bits (n := 64) (s := 16) (k := 32) p2' p3 p4 (by decide) (by simp [h4])
      (by simp [h3])).symm
  have hw4 : word (p4 ++ p4') = lastHeaderWord (seqBits pkt) (countBits pkt) := by
    have hq := extract_bits (n := 64) (s := 0) (k := 16) (p2' ++ p3) p4 [] (by decide) rfl
      (by simp [h4])
    rw [List.append_nil] at hq
    rw [lastHeaderWord, seqBits, hseq, hq, countBits, hcount]
    exact (bits_append (n := 16) (k := 16) (m := p4') (by simp [h4'])).symm
  rw [← hpkt, hdrop, headerBeats, headerWords]
  obtain ⟨bs1, rfl, hc1⟩ := hc.uncons h0 (by simp [← List.length_pos_iff, h1])
  obtain ⟨bs2, rfl, hc2⟩ := hc1.uncons h1 (by simp [← List.length_pos_iff, h2])
  obtain ⟨bs3, rfl, hc3⟩ := hc2.uncons (by simp [h2, h2']) (by simp [← List.length_pos_iff, h3])
  obtain ⟨bs4, rfl, hc4⟩ := hc3.uncons h3 (by simp [← List.length_pos_iff, h4])
  rw [hw0, hw1, hw2, hw3]
  by_cases hp : payload = []
  · subst hp
    rw [List.append_nil] at hc4
    obtain ⟨pad, hpad, rfl⟩ := hc4.single (by simp [h4, h4'])
    rw [List.length_append, h4, h4'] at hpad
    obtain rfl : pad = [] := List.eq_nil_of_length_eq_zero (by omega)
    refine ⟨[], ?_, by simp⟩
    rw [List.append_nil, hw4, List.length_append, h4, h4']
    rfl
  · obtain ⟨bs5, rfl, hc5⟩ := hc4.uncons (by simp [h4, h4']) hp
    refine ⟨bs5, ?_, by rwa [if_neg hp]⟩
    rw [hw4, decide_eq_false hp]
    rfl

/-! ### One packet -/

/-- The registers behind a packet that is as expected. -/
def afterPacket (q : MoldRegs) (pkt : List Byte) : MoldRegs :=
  { afterHeader q (sessionBits pkt) (countBits pkt) with msgLeft := 0, state := .idle }

theorem synced_afterPacket (q : MoldRegs) (pkt : List Byte) : Synced (afterPacket q pkt) :=
  ⟨rfl, fun _ => rfl⟩

/-- The payload is the announced messages, as the parser sees it. -/
theorem wellFramed_iff {pkt : List Byte} : WellFramed pkt ↔ Fits (countOf pkt) (pkt.drop 20) :=
  Iff.rfl

section Packet

variable {q : MoldRegs} {pkt : List Byte} {bs : List Axis}

/-- The packet as its header, which is as expected, and its payload. -/
theorem packet_split (hq : Synced q) (hs : q.firstPktFlag = true ∨ q.sessionId = sessionBits pkt)
    (hseq : q.seqExpect = seqBits pkt) (hlen : 20 ≤ pkt.length) (hc : Carries pkt bs) :
    (if pkt.drop 20 = [] then bs.drop 5 = [] else Carries (pkt.drop 20) (bs.drop 5)) ∧
    (Quiet (moldCore.trace q bs) ↔ (pkt.drop 20 = [] ↔ countBits pkt = 0) ∧
      Quiet (moldCore.trace (afterHeader q (sessionBits pkt) (countBits pkt)) (bs.drop 5))) ∧
    (moldCore.trace q bs).map Prod.snd = List.replicate 5 none ++
      (moldCore.trace (afterHeader q (sessionBits pkt) (countBits pkt)) (bs.drop 5)).map Prod.snd ∧
    moldCore.run q bs =
      moldCore.run (afterHeader q (sessionBits pkt) (countBits pkt)) (bs.drop 5) := by
  obtain ⟨bs', hbs, hc'⟩ := carries_header hlen hc
  obtain ⟨hquiet, hwords, hrun⟩ := header_run hq hs (countBits pkt) (pkt.drop 20 = [])
  have hdrop : bs.drop 5 = bs' := by rw [hbs]; rfl
  rw [hseq] at hquiet hwords hrun
  rw [hdrop, hbs, Circuit.trace_append, quiet_append, hquiet, List.map_append, hwords,
    Circuit.run_append, hrun, decide_eq_true_iff]
  exact ⟨hc', Iff.rfl, rfl, rfl⟩

theorem countBits_eq_zero (hlen : 20 ≤ pkt.length) : countBits pkt = 0 ↔ countOf pkt = 0 := by
  rw [← toNat_countBits hlen]
  exact BitVec.toNat_eq

/-- **What a packet leaves behind.** Without an error, the words behind its header are presented. -/
theorem packet_end (hq : Synced q) (hs : q.firstPktFlag = true ∨ q.sessionId = sessionBits pkt)
    (hseq : q.seqExpect = seqBits pkt) (hlen : 20 ≤ pkt.length) (hc : Carries pkt bs)
    (h : Quiet (moldCore.trace q bs)) :
    (moldCore.trace q bs).map Prod.snd = List.replicate 5 none ++
        (bs.drop 5).map (fun axis => some (axis.tdata, axis.tlast)) ∧
      moldCore.run q bs = afterPacket q pkt := by
  obtain ⟨hc', hquiet, hwords, hrun⟩ := packet_split hq hs hseq hlen hc
  obtain ⟨hzero, hq'⟩ := hquiet.1 h
  rw [hwords, hrun]
  by_cases hp : pkt.drop 20 = []
  · rw [if_pos hp] at hc'
    rw [hc', Circuit.trace_nil, Circuit.run_nil, afterPacket, afterHeader, hzero.1 hp]
    exact ⟨rfl, rfl⟩
  · rw [if_neg hp] at hc'
    have h0 : countBits pkt ≠ 0 := fun h0 => hp (hzero.2 h0)
    obtain ⟨hend, hrun'⟩ := msg_end hc' (if_neg h0) hq'
    rw [hend, hrun', afterPacket, afterHeader]
    simp only [core, if_neg h0]
    exact ⟨trivial, trivial⟩

/-- **An accepted packet is framed**, if its length fields are those of the messages. -/
theorem packet_framed {P : List Byte → Prop} (hq : Synced q)
    (hs : q.firstPktFlag = true ∨ q.sessionId = sessionBits pkt) (hseq : q.seqExpect = seqBits pkt)
    (hlen : 20 ≤ pkt.length) (hc : Carries pkt bs) (h : Quiet (moldCore.trace q bs))
    (hseen : Seen P (countOf pkt) (0 :: pkt.drop 20) 1) :
    ∃ msgs, Framed (countOf pkt) (pkt.drop 20) msgs ∧ ∀ m ∈ msgs, P m := by
  obtain ⟨hc', hquiet, -⟩ := packet_split hq hs hseq hlen hc
  obtain ⟨hzero, hq'⟩ := hquiet.1 h
  by_cases hp : pkt.drop 20 = []
  · rw [(countBits_eq_zero hlen).1 (hzero.1 hp), hp]
    exact ⟨[], framed_nil.2 ⟨rfl, rfl⟩, by simp⟩
  · rw [if_neg hp] at hc'
    have h0 : countBits pkt ≠ 0 := fun h0 => hp (hzero.2 h0)
    have hbl : (afterHeader q (sessionBits pkt) (countBits pkt)).bytesLeft = 1 := if_neg h0
    have hfr := msg_framed (P := P) hc' 0 (if_neg h0) hq'
    rw [hbl] at hfr
    rw [← toNat_countBits hlen] at hseen ⊢
    exact (hfr hseen).2

/-- **One packet** with the expected header, beat by beat. -/
theorem packet_run (hq : Synced q) (hs : q.firstPktFlag = true ∨ q.sessionId = sessionBits pkt)
    (hseq : q.seqExpect = seqBits pkt) (hlen : 20 ≤ pkt.length)
    (hlens : LengthsOk (countOf pkt) (pkt.drop 20)) (hc : Carries pkt bs) :
    Quiet (moldCore.trace q bs) ↔ WellFramed pkt := by
  constructor
  · intro h
    obtain ⟨msgs, hfr, -⟩ := packet_framed hq hs hseq hlen hc h
      (@seen_of_lengthsOk _ (0 :: pkt.drop 20) 1 hlens)
    exact ⟨msgs, hfr⟩
  · intro hfit
    obtain ⟨hc', hquiet, -⟩ := packet_split hq hs hseq hlen hc
    rw [wellFramed_iff] at hfit
    have hzero : pkt.drop 20 = [] ↔ countOf pkt = 0 := by
      cases hcount : countOf pkt with
      | zero => rw [hcount] at hfit; exact iff_of_true (fits_zero.1 hfit) rfl
      | succ n =>
        refine iff_of_false (fun hnil => ?_) (by omega)
        rw [hcount, fits_succ, hnil, List.length_nil] at hfit
        omega
    refine hquiet.2 ⟨hzero.trans (countBits_eq_zero hlen).symm, ?_⟩
    by_cases hp : pkt.drop 20 = []
    · rw [if_pos hp] at hc'
      rw [hc']
      exact quiet_nil
    · rw [if_neg hp] at hc'
      have h0 : countBits pkt ≠ 0 := fun h0 => hp (hzero.2 ((countBits_eq_zero hlen).1 h0))
      have hbl : (afterHeader q (sessionBits pkt) (countBits pkt)).bytesLeft = 1 := if_neg h0
      have hgood := msg_quiet hc' 0 (q := afterHeader q (sessionBits pkt) (countBits pkt)) (if_neg h0)
      rw [hbl] at hgood
      rw [← toNat_countBits hlen] at hlens hfit
      exact hgood (by simp) hlens hfit

end Packet

section Agree

variable {s : MoldUDP64Parser} {q : MoldRegs} {pkt : List Byte} {cycles : List Axis}

/-- The session id is the expected one for both parsers. -/
theorem session_ok (ht : Tracks s q) (hok : HeaderOk s pkt) :
    (core q).firstPktFlag = true ∨ (core q).sessionId = sessionBits pkt := by
  cases hf : s.firstPktReceived
  · exact Or.inl (by rw [core, ht.firstPkt, hf]; rfl)
  · obtain ⟨id, hid, -, hbits⟩ := ht.sessionId hf
    have hsess := hok.1.resolve_left (by simp [hf])
    rw [hid, Option.some.injEq] at hsess
    exact Or.inr (by rw [core, hbits, hsess]; rfl)

/-- So is the sequence number. -/
theorem seq_ok (ht : Tracks s q) (hok : HeaderOk s pkt) : (core q).seqExpect = seqBits pkt := by
  rw [seqBits_eq, hok.2]
  exact ht.seqExpect

/-- What the reference parser makes of a packet with the expected header. -/
theorem processPkt_of_headerOk (hlen : 20 ≤ pkt.length) (hok : HeaderOk s pkt) :
    (s.processPkt pkt).2 = advanced s pkt ∧
      ((¬ WellFramed pkt ∧ (s.processPkt pkt).1.IsErr) ∨
        ∃ msgs, Framed (countOf pkt) (pkt.drop 20) msgs ∧ (s.processPkt pkt).1 = .ret msgs) := by
  rcases processPkt_spec s pkt with ⟨h, -⟩ | ⟨-, h, -⟩ | ⟨-, -, hw, c, hp⟩ | ⟨-, -, msgs, hfr, hp⟩
  · omega
  · exact absurd hok h
  · rw [hp]
    exact ⟨rfl, Or.inl ⟨hw, _, rfl⟩⟩
  · rw [hp]
    exact ⟨rfl, Or.inr ⟨msgs, hfr, rfl⟩⟩

/-- **After a packet without an error** its words have been presented and the parsers agree. -/
theorem tracks_of_quiet (hq : Synced q) (ht : Tracks s q) (hlen : 20 ≤ pkt.length)
    (hok : HeaderOk s pkt) (hc : Carries pkt (cycles.filter fun axis => axis.tvalid))
    (h : Quiet (moldudp64Parser.trace q cycles)) :
    (moldudp64Parser.trace q cycles).map Prod.snd = presented cycles ∧
      (moldudp64Parser.run q cycles).seqExpect = q.seqExpect + BitVec.ofNat 64 (countOf pkt) ∧
      Synced (moldudp64Parser.run q cycles) ∧
      Tracks (s.processPkt pkt).2 (moldudp64Parser.run q cycles) := by
  obtain ⟨hwords, hrun⟩ := packet_end (q := core q) ⟨hq.idle, hq.compare⟩ (session_ok ht hok)
    (seq_ok ht hok) hlen hc ((quiet_trace_iff q cycles).1 h)
  have hcore := moldudp64Parser_paced.core_run (s := q) trivial cycles
  rw [hrun] at hcore
  have hcount : (countBits pkt).setWidth 64 = BitVec.ofNat 64 (countOf pkt) := by
    rw [← toNat_countBits hlen, BitVec.ofNat_toNat]
  have hseq' : (moldudp64Parser.run q cycles).seqExpect =
      q.seqExpect + BitVec.ofNat 64 (countOf pkt) := by
    rw [← hcount]
    exact congrArg MoldRegs.seqExpect hcore
  have hsync := synced_afterPacket (core q) pkt
  rw [← hcore] at hsync
  refine ⟨?_, hseq', ⟨hsync.idle, hsync.compare⟩, ?_⟩
  · rw [moldudp64Parser_paced.trace_eq trivial, map_weave, hwords]
    rfl
  · rw [(processPkt_of_headerOk hlen hok).1]
    refine ⟨?_, ?_, fun _ => ⟨sessionOf pkt, ?_, ?_, congrArg MoldRegs.sessionId hcore⟩⟩
    · rw [hseq', ht.seqExpect, ← BitVec.ofNat_add, advanced, opened_seqExpected]
    · rw [advanced, opened_firstPktReceived]
      exact congrArg MoldRegs.firstPktFlag hcore
    · rw [advanced, opened]
      rcases hok.1 with hf | hid
      · rw [hf]
        rfl
      · cases hf : s.firstPktReceived
        · rfl
        · exact hid
    · rw [sessionOf, length_slice]
      omega

/-- The words presented, without the cycles. -/
theorem words_of_quiet (hq : Synced q) (ht : Tracks s q) (hlen : 20 ≤ pkt.length)
    (hok : HeaderOk s pkt) (hc : Carries pkt (cycles.filter fun axis => axis.tvalid))
    (h : Quiet (moldudp64Parser.trace q cycles)) :
    (moldudp64Parser.trace q cycles).filterMap Prod.snd =
      ((cycles.filter fun axis => axis.tvalid).drop 5).map fun axis => (axis.tdata, axis.tlast) := by
  obtain ⟨hwords, -⟩ := packet_end (q := core q) ⟨hq.idle, hq.compare⟩ (session_ok ht hok)
    (seq_ok ht hok) hlen hc ((quiet_trace_iff q cycles).1 h)
  have hsplit : (moldCore.trace (core q) (cycles.filter fun axis => axis.tvalid)).filterMap Prod.snd =
      ((moldCore.trace (core q) (cycles.filter fun axis => axis.tvalid)).map Prod.snd).filterMap id := by
    rw [List.filterMap_map, Function.id_comp]
  rw [moldudp64Parser_paced.trace_eq trivial, filterMap_weave rfl (Circuit.length_trace ..), hsplit,
    hwords, List.filterMap_append, List.filterMap_replicate_of_none rfl, List.nil_append,
    List.filterMap_map, Function.id_comp, List.filterMap_eq_map']

/-- **RTL framing is reference framing.** -/
theorem framing_agrees (hq : Synced q) (ht : Tracks s q) (hlen : 20 ≤ pkt.length)
    (hok : HeaderOk s pkt) (hlens : LengthsOk (countOf pkt) (pkt.drop 20))
    (hc : Carries pkt (cycles.filter fun axis => axis.tvalid)) :
    ((∃ o ∈ moldudp64Parser.trace q cycles, o.1 = true) ↔ (s.processPkt pkt).1.IsErr) ∧
    ((∀ o ∈ moldudp64Parser.trace q cycles, o.1 = false) →
      (moldudp64Parser.trace q cycles).map Prod.snd = presented cycles ∧
      (moldudp64Parser.run q cycles).seqExpect =
        q.seqExpect + BitVec.ofNat 64 (countOf pkt) ∧
      Synced (moldudp64Parser.run q cycles) ∧
      Tracks (s.processPkt pkt).2 (moldudp64Parser.run q cycles)) := by
  refine ⟨?_, tracks_of_quiet hq ht hlen hok hc⟩
  have hraised : (∃ o ∈ moldudp64Parser.trace q cycles, o.1 = true) ↔
      ¬ ∀ o ∈ moldudp64Parser.trace q cycles, o.1 = false := by
    simp
  rw [hraised, ← Quiet, quiet_trace_iff, packet_run (q := core q) ⟨hq.idle, hq.compare⟩
    (session_ok ht hok) (seq_ok ht hok) hlen hlens hc]
  rcases (processPkt_of_headerOk hlen hok).2 with ⟨hw, herr⟩ | ⟨msgs, hfr, hp⟩
  · exact iff_of_true hw herr
  · rw [hp]
    exact iff_of_false (not_not.2 ⟨msgs, hfr⟩) (Outcome.isErr_ret _)

end Agree

/-- A first packet with one message of four bytes, after an idle cycle. -/
def firstPkt : List Byte := truncatedPkt ++ [0, 4, 1, 2, 3, 4]

/-- The registers at power-up, some arbitrary ones reset. -/
def powerUp : MoldRegs := MoldRegs.reset ⟨0, 0, 0, 0, 0, false, false, 0, false, .msg⟩

/-- There is no error, and the two words of the message are presented. -/
theorem framing_agrees_firstPkt :
    let cycles : List Axis := ⟨false, false, 0xDEADBEEF, 0⟩ :: beats firstPkt
    ((∃ o ∈ moldudp64Parser.trace powerUp cycles, o.1 = true) ↔
      (MoldUDP64Parser.new.processPkt firstPkt).1.IsErr) ∧
    (moldudp64Parser.trace powerUp cycles).map Prod.snd =
      List.replicate 6 none ++ [some (0x00040102, false), some (0x03040000, true)] ∧
    (moldudp64Parser.run powerUp cycles).seqExpect = 2 ∧
    Synced (moldudp64Parser.run powerUp cycles) ∧
    Tracks (MoldUDP64Parser.new.processPkt firstPkt).2 (moldudp64Parser.run powerUp cycles) := by
  intro cycles
  obtain ⟨herror, hdelivered⟩ := @framing_agrees .new powerUp firstPkt cycles
    ⟨rfl, fun h => by cases h⟩ ⟨rfl, rfl, fun h => by cases h⟩ (by decide) ⟨Or.inl rfl, by decide⟩
    (by decide) (carries_beats (by decide))
  have hquiet : ((moldudp64Parser.trace powerUp cycles).all fun o => !o.1) = true := by decide
  obtain ⟨hwords, hseq, hsync, htracks⟩ := hdelivered fun o ho => by
    simpa using List.all_eq_true.1 hquiet o ho
  exact ⟨herror, hwords.trans (by decide), hseq.trans (by decide), hsync, htracks⟩

end ItchOrderBook.Framing
