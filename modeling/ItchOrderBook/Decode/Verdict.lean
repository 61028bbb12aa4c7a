import ItchOrderBook.Decode.Chain
import ItchOrderBook.Decode.Valid
import ItchOrderBook.Ref.Top

/-!
# The verdict of the two pipelines on a packet

The chain of the two RTL parsers raises no error on a packet with the expected header if and only
if its payload is the announced number of messages, all of them valid with length 19 for type `'B'`
(`not_raises_iff`). The MoldUDP64 parser alone counts only the low bytes of the length fields; what
it misses the ITCH parser sees (`seen_run`). The reference pipeline accepts the same packets, with
length 17 for type `'B'` (`not_rejects_iff`), so that the verdicts differ on well-framed packets
with such a message only (`verdict_iff`).
-/

namespace ItchOrderBook.Decode

open Ref (Byte MoldUDP64Parser slice fromBytes chr)
open Rtl (Axis DecCtrl DecBook InterfaceIn ItchIn ItchOut ItchRegs IpState MoldRegs itchParser
  itchParserInterface moldudp64Parser)
open Framing (Carries Framed HeaderOk IsMsg LengthsOk Quiet Seen Synced Tracks countOf lengthField)

/-- **A quiet run has seen the messages**: their types and lengths, and the bodies of those that are
complete. -/
theorem seen_run {S front payload pad : List Byte} (loc : BitVec 16) (hS : S.length % 4 = 0)
    (hdata : S = front ++ (payload ++ pad)) (hfront : front.length = 44) (prev : Byte) {k i n c : ℕ}
    {q : ItchRegs} (h : AtStart S (44 + i) n q) (hc : n + 4 * c = S.length)
    (hquiet : ∀ out ∈ itchCore.trace q (words S loc n c), out ≠ none) :
    Seen (fun m => decodeMsg loc m ≠ none) k (prev :: payload) (i + 1) := by
  have hslice : ∀ i j, j ≤ payload.length → slice S (44 + i) (44 + j) = slice payload i j := by
    intro i j hj
    rw [hdata, Ref.slice, Ref.slice, ← hfront, List.take_length_add_append, List.drop_length_add_append,
      List.take_append_of_le_length hj]
  have htotal : S.length = 44 + payload.length + pad.length := by
    rw [hdata, List.length_append, List.length_append, hfront, Nat.add_assoc]
  induction k generalizing i n c q with
  | zero => trivial
  | succ k ih =>
    rw [Seen, List.drop_succ_cons, List.length_cons]
    intro h1 h3
    have h4 := h.reads.aligned
    have hle := h.le
    have hlt := h.lt
    obtain ⟨c, rfl⟩ : ∃ c', c = c' + 1 := ⟨c - 1, by omega⟩
    have hfield : lengthField (payload.drop i) = fromBytes (slice S (44 + i) (44 + i + 2)) := by
      rw [lengthField, Nat.add_assoc, hslice i (i + 2) (by omega), Ref.slice_eq_take_drop]
    obtain ⟨-, len, alt, st, htable, hlen⟩ | ⟨hnone, -⟩ := h.begins loc hS (by omega)
    · have hl : lengthField (payload.drop i) = len.toNat := by
        rw [hfield, ← hlen, toNat_field S (by omega)]
      have hspec := (idleTable_spec htable).1
      rw [hl]
      refine ⟨⟨by omega, by omega⟩, fun hin => ?_⟩
      obtain ⟨n', q', ⟨c1, rfl, hrun, htrace⟩, h'⟩ := message_run loc (e := 44 + i + 2 + len.toNat) hS
        h htable (hfield.symm.trans hl) (Or.inl rfl) rfl (by omega)
      have hn' := h'.reads.aligned
      have hlt' := h'.lt
      obtain ⟨c2, hc2⟩ : ∃ c2, c + 1 = c1 + c2 := ⟨c + 1 - c1, by omega⟩
      rw [hc2, words_append, Circuit.trace_append, List.forall_mem_append, hrun] at hquiet
      constructor
      · rw [← Ref.slice_eq_take_drop, ← Nat.add_assoc, ← hslice i _ (by omega), ← Nat.add_assoc,
          ← Nat.add_assoc, ← htrace]
        exact collect_ne_none.2 hquiet.1
      · have hnext := ih (i := i + 2 + len.toNat) (by rw [← Nat.add_assoc, ← Nat.add_assoc]; exact h')
          (by omega) hquiet.2
        rwa [show i + 2 + len.toNat + 1 = i + 1 + 2 + len.toNat by omega] at hnext
    · exact absurd hnone (hquiet _ List.mem_cons_self)

/-! ### The reference pipeline -/

/-- The reference pipeline rejects a packet that is shorter than a header. -/
theorem rejects_of_short (s : MoldUDP64Parser) {pkt : List Byte} (hlen : pkt.length < 20) :
    Ref.Top.Rejects s pkt := by
  rw [Ref.Top.Rejects, Ref.Top.testParsePkt]
  rcases Framing.processPkt_spec s pkt with ⟨-, code, hp⟩ | ⟨h, -⟩ | ⟨h, -⟩ | ⟨h, -⟩
  · rw [hp]
    exact ⟨_, List.mem_cons_self, Ref.Outcome.isRet_err _⟩
  all_goals omega

/-- The reference pipeline accepts what is framed and parsed. -/
theorem not_rejects_iff {s : MoldUDP64Parser} {pkt : List Byte} (hlen : 20 ≤ pkt.length)
    (hok : HeaderOk s pkt) : ¬ Ref.Top.Rejects s pkt ↔
      ∃ msgs, Framed (countOf pkt) (pkt.drop 20) msgs ∧
        ∀ m ∈ msgs, (Ref.ITCHParser.parseMsg m).IsRet := by
  have hall : ¬ Ref.Top.Rejects s pkt ↔ ∀ o ∈ (Ref.Top.testParsePkt s pkt).1, o.IsRet := by
    rw [Ref.Top.Rejects]
    push Not
    exact Iff.rfl
  rw [hall, Ref.Top.testParsePkt]
  obtain ⟨-, ⟨hw, code, hp⟩ | ⟨msgs, hfr, hp⟩⟩ := Framing.processPkt_of_headerOk hlen hok
  · rw [show s.processPkt pkt = (.err code, (s.processPkt pkt).2) by rw [← hp]]
    refine iff_of_false (fun h => ?_) ?_
    · exact absurd (h _ List.mem_cons_self) (Ref.Outcome.isRet_err _)
    · rintro ⟨msgs, hfr, -⟩
      exact hw ⟨msgs, hfr⟩
  · rw [show s.processPkt pkt = (.ret msgs, (s.processPkt pkt).2) by rw [← hp]]
    refine Ref.Top.parseMsgs_isRet.trans ⟨fun h => ⟨msgs, hfr, h⟩, ?_⟩
    rintro ⟨msgs', hfr', h⟩
    rwa [Framing.framed_unique hfr hfr']

/-! ### The chain -/

/-- The chain raises `np_error_o` or `ip_error_o` on a word of the packet. The ITCH parser looks at
a word one cycle after the MoldUDP64 parser: `after` is the cycle behind the packet. -/
def Raises (q : MoldRegs × ItchRegs) (cycles : List InterfaceIn) (after : InterfaceIn) : Prop :=
  (∃ o ∈ moldudp64Parser.trace q.1 (cycles.map fun i => i.axis), o.1 = true) ∨
    ∃ o ∈ (itchParserInterface.trace q (cycles ++ [after])).tail, o.1.ipError = true

/-- The ITCH parser is between packets. -/
structure Settled (q : ItchRegs) : Prop where
  state : q.state = .idle
  left : q.bytesLeft = 0

/-- Between packets the chain agrees with the reference parser; the last word of the packet before
may still be on its way. -/
structure Ready (s : MoldUDP64Parser) (q : MoldRegs × ItchRegs) : Prop where
  synced : Synced q.1
  tracks : Tracks s q.1
  settled : ∀ i, Settled (q.2.next (q.1.itchIn i))

/-- The two parsers look at a packet separately. -/
theorem not_raises {q : MoldRegs × ItchRegs} {first : InterfaceIn} {cycles : List InterfaceIn}
    {after : InterfaceIn} : ¬ Raises q (first :: cycles) after ↔
      Quiet (moldudp64Parser.trace q.1 ((first :: cycles).map fun i => i.axis)) ∧
      ItchQuiet (itchParser.trace (q.2.next (q.1.itchIn first))
        (feedTail q.1 (first :: cycles) after)) := by
  have htail : ((itchParserInterface.trace q (first :: cycles ++ [after])).tail.map fun o => o.1) =
      itchParser.trace (q.2.next (q.1.itchIn first)) (feedTail q.1 (first :: cycles) after) := by
    rw [List.map_tail, (interface_eq q _).2, feed_cons, Circuit.trace_cons, List.tail_cons]
    rfl
  rw [← htail, Raises, ItchQuiet, Quiet, not_or]
  simp only [not_exists, not_and, Bool.not_eq_true, List.forall_mem_map]

section Itch

variable {q : ItchRegs} {is : List ItchIn}

theorem itchQuiet_iff_fresh (q : ItchRegs) (is : List ItchIn) :
    ItchQuiet (itchParser.trace q is) ↔ ∀ out ∈ itchFresh.trace q is, out ≠ none := by
  induction is generalizing q with
  | nil => simp [ItchQuiet]
  | cons i is ih =>
    rw [ItchQuiet, Circuit.trace_cons, List.forall_mem_cons, Circuit.trace_cons, List.forall_mem_cons]
    refine and_congr ?_ (ih (q.next i))
    change (q.comb i).ipError = false ↔ shown (q.comb i) ≠ none
    rw [shown]
    cases (q.comb i).ipError <;> simp

/-- Errors are those of the core. -/
theorem itchQuiet_iff (hs : Settled q) : ItchQuiet (itchParser.trace q is) ↔
    ∀ out ∈ itchCore.trace (norm q) (is.filter fun i => i.ipDataV), out ≠ none := by
  have hgap : Gap q := fun _ => Or.inl hs.state
  have hlen := Circuit.length_trace itchCore (norm q) (is.filter fun i => i.ipDataV)
  rw [itchQuiet_iff_fresh, itchFresh_paced.trace_eq hgap]
  constructor
  · rintro h out ho rfl
    exact h none ((mem_weave (by simp) hlen).2 ho) rfl
  · rintro h out ho rfl
    exact h none ((mem_weave (by simp) hlen).1 ho) rfl

theorem settled_run (hs : Settled q)
    (h : Rested (itchCore.run (norm q) (is.filter fun i => i.ipDataV))) :
    Settled (itchParser.run q is) := by
  have hcore := itchFresh_paced.core_run (fun _ => Or.inl hs.state : Gap q) is
  rw [← hcore] at h
  exact ⟨h.state, h.left⟩

theorem Settled.rested (h : Settled q) : Rested (norm q) := ⟨h.state, h.left, rfl⟩

/-- What a packet without an error has. -/
theorem seen_of_quiet {q : ItchRegs} (hr : Rested q) {payload : List Byte} {bs : List Axis}
    (hc : Carries payload bs)
    (hquiet : ∀ out ∈ itchCore.trace q (bs.map (itchWord 0)), out ≠ none) (k : ℕ) :
    Seen (fun m => decodeMsg 0 m ≠ none) k (0 :: payload) 1 := by
  obtain ⟨front, hfront, hline⟩ := exists_front q
  obtain ⟨pad, hpad, htotal, hwords⟩ := words_of_carries 0 hc
  have hlen : (front ++ (payload ++ pad)).length = 44 + 4 * bs.length := by
    rw [List.length_append, List.length_append, hfront, htotal]
  have hstart := hr.atStart hfront hline
    (List.append_ne_nil_of_left_ne_nil hc.ne_nil _ : payload ++ pad ≠ [])
  rw [hwords front, hfront] at hquiet
  exact seen_run (i := 0) 0 (by omega) rfl hfront 0 hstart hlen.symm hquiet

end Itch

/-! ### Lengths -/

/-- The parser follows the valid messages, whichever length type `'B'` is taken to have. -/
theorem followed_of_valid {msg : List Byte} (hm : IsMsg msg) {lenB : ℕ} (hB : lenB = 17 ∨ lenB = 19)
    (h : ValidMsg lenB msg) : Followed msg := by
  have hfield : fromBytes (slice msg 0 2) = fromBytes (msg.take 2) := rfl
  refine ⟨by rw [hfield, Nat.add_comm]; exact hm.2, ?_⟩
  by_cases htype : chr (byteAt msg 2) = 'B'
  · have hl := (validMsg_typeB htype).1 h
    refine ⟨0x13, false, .ignore, ?_, Or.inr ⟨rfl, by omega, by omega⟩⟩
    rw [ItchRegs.idleTable, htype]
    rfl
  · have h19 : ValidMsg 19 msg := (validMsg_congr htype).1 h
    have hne : decodeMsg 0 msg ≠ none := decodeMsg_iff.2 h19
    rw [decodeMsg] at hne
    cases hentry : ItchRegs.idleTable (byteAt msg 2) with
    | none => rw [hentry] at hne; exact absurd rfl hne
    | some entry =>
      obtain ⟨len, alt, st⟩ := entry
      rw [hentry] at hne
      refine ⟨len, alt, st, rfl, Or.inl ?_⟩
      by_contra hl
      exact hne (if_pos hl)

theorem Followed.field {msg : List Byte} (h : Followed msg) :
    6 ≤ fromBytes (slice msg 0 2) ∧ fromBytes (slice msg 0 2) ≤ 254 := by
  obtain ⟨-, len, alt, st, htable, hl | ⟨-, h6, h254⟩⟩ := h
  · have := (idleTable_spec htable).1
    omega
  · exact ⟨h6, h254⟩

theorem lengthsOk_of_framed {n : ℕ} {data : List Byte} {msgs : List (List Byte)}
    (h : Framed n data msgs) (hmsgs : ∀ m ∈ msgs, Followed m) : LengthsOk n data := by
  induction n generalizing data msgs with
  | zero => trivial
  | succ n ih =>
    obtain ⟨-, rest, rfl, hfr⟩ := Framing.framed_succ.1 h
    have hbounds := (hmsgs _ List.mem_cons_self).field
    have hfield : fromBytes (slice (data.take (2 + lengthField data)) 0 2) = lengthField data := by
      rw [lengthField, slice, List.drop_zero, List.take_take, Nat.min_eq_left (by omega)]
    rw [hfield] at hbounds
    exact fun _ => ⟨by omega, fun _ => ih hfr fun m hm => hmsgs m (List.mem_cons_of_mem _ hm)⟩

/-! ### One packet -/

section Packet

variable {s : MoldUDP64Parser} {q : MoldRegs × ItchRegs} {pkt : List Byte} {first : InterfaceIn}
  {cycles : List InterfaceIn}

/-- The beats of the packet in its cycles. -/
def beatsOf (cycles : List InterfaceIn) : List Axis :=
  (cycles.map fun i => i.axis).filter fun axis => axis.tvalid

/-- Behind a packet without an error in its framing, the ITCH parser reads its payload. -/
theorem words_read (hr : Ready s q) (hlen : 20 ≤ pkt.length) (hok : HeaderOk s pkt)
    (hc : Carries pkt (beatsOf (first :: cycles)))
    (h : Quiet (moldudp64Parser.trace q.1 ((first :: cycles).map fun i => i.axis)))
    (after : InterfaceIn) :
    (if pkt.drop 20 = [] then (beatsOf (first :: cycles)).drop 5 = []
      else Carries (pkt.drop 20) ((beatsOf (first :: cycles)).drop 5)) ∧
    ((feedTail q.1 (first :: cycles) after).map known).filter (fun i => i.ipDataV) =
      ((beatsOf (first :: cycles)).drop 5).map (itchWord 0) := by
  have hsplit := Framing.packet_split (q := Framing.core q.1) ⟨hr.synced.idle, hr.synced.compare⟩
    (Framing.session_ok hr.tracks hok) (Framing.seq_ok hr.tracks hok) hlen hc
  refine ⟨hsplit.1, ?_⟩
  rw [feedTail_words, Framing.words_of_quiet hr.synced hr.tracks hlen hok hc h, List.map_map]
  rfl

/-- The chain that raises no error has seen a framed payload of valid messages. -/
theorem valid_of_not_raises (hr : Ready s q) (hlen : 20 ≤ pkt.length) (hok : HeaderOk s pkt)
    (hc : Carries pkt (beatsOf (first :: cycles))) {after : InterfaceIn}
    (h : ¬ Raises q (first :: cycles) after) :
    ∃ msgs, Framed (countOf pkt) (pkt.drop 20) msgs ∧ ∀ m ∈ msgs, ValidMsg 19 m := by
  obtain ⟨hmold, hitch⟩ := not_raises.1 h
  obtain ⟨hc', hwords⟩ := words_read hr hlen hok hc hmold after
  have hs := hr.settled first
  have hknown := itchQuiet_known ⟨rfl, rfl, rfl, rfl⟩ hitch
  rw [itchQuiet_iff hs, hwords] at hknown
  have hseen : Seen (fun m => decodeMsg 0 m ≠ none) (countOf pkt) (0 :: pkt.drop 20) 1 := by
    by_cases hp : pkt.drop 20 = []
    · rw [hp]
      exact Framing.seen_of_length_le (by decide)
    · rw [if_neg hp] at hc'
      exact seen_of_quiet hs.rested hc' hknown _
  obtain ⟨msgs, hfr, hmsgs⟩ := Framing.packet_framed (q := Framing.core q.1)
    ⟨hr.synced.idle, hr.synced.compare⟩ (Framing.session_ok hr.tracks hok)
    (Framing.seq_ok hr.tracks hok) hlen hc ((Framing.quiet_trace_iff _ _).1 hmold) hseen
  exact ⟨msgs, hfr, fun m hm => decodeMsg_iff.1 (hmsgs m hm)⟩

/-- A packet of messages that the ITCH parser can follow. -/
theorem followed_packet (hr : Ready s q) (hlen : 20 ≤ pkt.length) (hok : HeaderOk s pkt)
    (hc : Carries pkt (beatsOf (first :: cycles))) {msgs : List (List Byte)}
    (hfr : Framed (countOf pkt) (pkt.drop 20) msgs) (hmsgs : ∀ m ∈ msgs, Followed m) :
    Quiet (moldudp64Parser.trace q.1 ((first :: cycles).map fun i => i.axis)) ∧ ∀ after,
      collect (itchCore.trace (norm (q.2.next (q.1.itchIn first)))
          (((feedTail q.1 (first :: cycles) after).map known).filter fun i => i.ipDataV)) =
        collect (msgs.map (decodeMsg 0)) ∧
      Settled (itchParser.run (q.2.next (q.1.itchIn first))
        (feedTail q.1 (first :: cycles) after)) := by
  have hquiet : Quiet (moldudp64Parser.trace q.1 ((first :: cycles).map fun i => i.axis)) := by
    rw [Framing.quiet_trace_iff]
    exact (Framing.packet_run (q := Framing.core q.1) ⟨hr.synced.idle, hr.synced.compare⟩
      (Framing.session_ok hr.tracks hok) (Framing.seq_ok hr.tracks hok) hlen
      (lengthsOk_of_framed hfr hmsgs) hc).2 ⟨msgs, hfr⟩
  refine ⟨hquiet, fun after => ?_⟩
  obtain ⟨hc', hwords⟩ := words_read hr hlen hok hc hquiet after
  have hs := hr.settled first
  have hsent : collect (itchCore.trace (norm (q.2.next (q.1.itchIn first)))
        (((beatsOf (first :: cycles)).drop 5).map (itchWord 0))) = collect (msgs.map (decodeMsg 0)) ∧
      Rested (itchCore.run (norm (q.2.next (q.1.itchIn first)))
        (((beatsOf (first :: cycles)).drop 5).map (itchWord 0))) := by
    by_cases hp : pkt.drop 20 = []
    · rw [if_pos hp] at hc'
      have hnil : msgs = [] := by
        cases msgs with
        | nil => rfl
        | cons m msgs =>
          have h8 := (hmsgs m List.mem_cons_self).three
          have hflat := hfr.flatten
          rw [hp, List.flatten_cons, List.append_eq_nil_iff] at hflat
          rw [hflat.1] at h8
          cases h8
      rw [hc', hnil]
      exact ⟨rfl, hs.rested⟩
    · rw [if_neg hp, ← hfr.flatten] at hc'
      exact packet_sent 0 hmsgs hc' hs.rested
  rw [← hwords] at hsent
  refine ⟨hsent.1, ?_⟩
  have hsame := same_run (q := q.2.next (q.1.itchIn first)) ⟨rfl, rfl, rfl, rfl⟩
    (feedTail q.1 (first :: cycles) after)
  have hend := settled_run hs hsent.2
  exact ⟨hsame.state.trans hend.state, hsame.bytesLeft.trans hend.left⟩

/-- **The chain accepts the framed payloads of valid messages.** -/
theorem not_raises_iff (hr : Ready s q) (hlen : 20 ≤ pkt.length) (hok : HeaderOk s pkt)
    (hc : Carries pkt (beatsOf (first :: cycles))) {after : InterfaceIn}
    (hloc : ∀ i ∈ first :: cycles ++ [after], i.stockLocateV = true) :
    ¬ Raises q (first :: cycles) after ↔
      ∃ msgs, Framed (countOf pkt) (pkt.drop 20) msgs ∧ ∀ m ∈ msgs, ValidMsg 19 m := by
  refine ⟨valid_of_not_raises hr hlen hok hc, ?_⟩
  rintro ⟨msgs, hfr, hmsgs⟩
  obtain ⟨hmold, hitch⟩ := followed_packet hr hlen hok hc hfr fun m hm =>
    followed_of_valid (hfr.isMsg m hm) (Or.inr rfl) (hmsgs m hm)
  refine not_raises.2 ⟨hmold, itchQuiet_of_known ⟨rfl, rfl, rfl, rfl⟩ (feedTail_known hloc) ?_⟩
  rw [itchQuiet_iff (hr.settled first), ← collect_ne_none, (hitch after).1, collect_ne_none]
  intro out hout
  obtain ⟨m, hm, rfl⟩ := List.mem_map.1 hout
  exact decodeMsg_iff.2 (hmsgs m hm)

/-- After a packet that one of the two pipelines accepts, the chain is ready for the next one. -/
theorem ready_run (hr : Ready s q) (hlen : 20 ≤ pkt.length) (hok : HeaderOk s pkt)
    (hc : Carries pkt (beatsOf (first :: cycles))) {msgs : List (List Byte)}
    (hfr : Framed (countOf pkt) (pkt.drop 20) msgs) (hmsgs : ∀ m ∈ msgs, Followed m) :
    Ready (s.processPkt pkt).2 (itchParserInterface.run q (first :: cycles)) := by
  obtain ⟨hmold, hitch⟩ := followed_packet hr hlen hok hc hfr hmsgs
  obtain ⟨-, -, hsync, htracks⟩ := Framing.tracks_of_quiet hr.synced hr.tracks hlen hok hc hmold
  rw [(interface_eq q (first :: cycles)).1]
  refine ⟨hsync, htracks, fun i => ?_⟩
  have hend := (hitch i).2
  have hsplit : itchParser.run q.2 (feed.trace q.1 (first :: cycles ++ [i])) =
      itchParser.run (q.2.next (q.1.itchIn first)) (feedTail q.1 (first :: cycles) i) := by
    rw [feed_cons]
    rfl
  rw [← hsplit, Circuit.trace_append, Circuit.run_append, feed_run] at hend
  exact hend

end Packet

/-! ### Runs -/

/-- The two pipelines after accepted packets from reset on. Each has carried the expected session id
and number and was accepted by the reference pipeline or by the chain; the stock locate may have
become known at any time. -/
inductive Reached : MoldUDP64Parser → MoldRegs × ItchRegs → Prop
  | reset (q : MoldRegs × ItchRegs) : Reached MoldUDP64Parser.new (q.1.reset, q.2.reset)
  | packet {s : MoldUDP64Parser} {q : MoldRegs × ItchRegs} {pkt : List Byte}
    {cycles : List InterfaceIn} {after : InterfaceIn} (h : Reached s q) (hok : HeaderOk s pkt)
    (hc : Carries pkt (beatsOf cycles)) (hacc : ¬ Ref.Top.Rejects s pkt ∨ ¬ Raises q cycles after) :
    Reached (Ref.Top.testParsePkt s pkt).2 (itchParserInterface.run q cycles)

theorem testParsePkt_snd (s : MoldUDP64Parser) (pkt : List Byte) :
    (Ref.Top.testParsePkt s pkt).2 = (s.processPkt pkt).2 := by
  rw [Ref.Top.testParsePkt]
  obtain ⟨o, s'⟩ := s.processPkt pkt
  cases o <;> rfl

/-- A packet takes at least one cycle. -/
theorem exists_first {pkt : List Byte} {cycles : List InterfaceIn}
    (hc : Carries pkt (beatsOf cycles)) : ∃ first rest, cycles = first :: rest := by
  cases cycles with
  | nil => cases hc
  | cons first rest => exact ⟨first, rest, rfl⟩

/-- The chain raises an error on a packet that is shorter than a header. -/
theorem raises_of_short {q : MoldRegs × ItchRegs} (hq : Synced q.1) {pkt : List Byte}
    {cycles : List InterfaceIn} {after : InterfaceIn} (hc : Carries pkt (beatsOf cycles))
    (hlen : pkt.length < 20) : Raises q cycles after := by
  obtain ⟨first, rest, rfl⟩ := exists_first hc
  by_contra h
  have hquiet := (not_raises.1 h).1
  rw [Framing.quiet_trace_iff] at hquiet
  refine Framing.not_quiet_of_short hc ?_ hquiet
  have hidle : (Framing.core q.1).state = .idle := hq.idle
  rwa [hidle]

theorem length_of_isMsg {msg : List Byte} (h : IsMsg msg) :
    msg.length = fromBytes (slice msg 0 2) + 2 := by
  rw [h.2, Nat.add_comm]
  rfl

theorem Reached.ready {s : MoldUDP64Parser} {q : MoldRegs × ItchRegs} (h : Reached s q) :
    Ready s q := by
  induction h with
  | reset q =>
    refine ⟨⟨rfl, fun h => by cases h⟩, ⟨rfl, rfl, fun h => by cases h⟩, fun i => ?_⟩
    have hcomb := comb_idle (q := q.2.reset) (i := q.1.reset.itchIn i) rfl
    exact ⟨congrArg ItchRegs.Comb.state hcomb, congrArg ItchRegs.Comb.bytesLeft hcomb⟩
  | @packet s q pkt cycles after _ hok hc hacc ih =>
    have hlen : 20 ≤ pkt.length := by
      by_contra hlt
      rcases hacc with hacc | hacc
      · exact hacc (rejects_of_short s (not_le.1 hlt))
      · exact hacc (raises_of_short ih.synced hc (not_le.1 hlt))
    obtain ⟨first, rest, rfl⟩ := exists_first hc
    rw [testParsePkt_snd]
    rcases hacc with hacc | hacc
    · obtain ⟨msgs, hfr, hmsgs⟩ := (not_rejects_iff hlen hok).1 hacc
      refine ready_run ih hlen hok hc hfr fun m hm => ?_
      have hret := hmsgs m hm
      exact followed_of_valid (hfr.isMsg m hm) (Or.inl rfl)
        ((isRet_iff (length_of_isMsg (hfr.isMsg m hm)) (hasSymbol_of_isRet hret)).1 hret)
    · obtain ⟨msgs, hfr, hmsgs⟩ := valid_of_not_raises ih hlen hok hc hacc
      exact ready_run ih hlen hok hc hfr fun m hm =>
        followed_of_valid (hfr.isMsg m hm) (Or.inr rfl) (hmsgs m hm)

/-- The stock symbols of the messages are ASCII text. -/
def AsciiSymbols (pkt : List Byte) : Prop :=
  ∀ msgs, Framed (countOf pkt) (pkt.drop 20) msgs → ∀ m ∈ msgs,
    chr (byteAt m 2) ∈ ['R', 'H', 'h'] → ∀ b ∈ slice m 13 21, b.toNat < 128

/-- The payload is framed and has a message of type `'B'`, and all its messages are valid, with one
of the two lengths for this type. -/
def Disputed (pkt : List Byte) : Prop :=
  ∃ msgs, Framed (countOf pkt) (pkt.drop 20) msgs ∧ (∃ m ∈ msgs, chr (byteAt m 2) = 'B') ∧
    ((∀ m ∈ msgs, ValidMsg 17 m) ∨ ∀ m ∈ msgs, ValidMsg 19 m)

/-- A packet that is shorter than a header has no messages. -/
theorem not_disputed_of_short {pkt : List Byte} (hlen : pkt.length < 20) : ¬ Disputed pkt := by
  rintro ⟨msgs, hfr, ⟨m, hm, -⟩, -⟩
  have hflat := hfr.flatten
  rw [List.drop_eq_nil_of_le hlen.le] at hflat
  have hnil : m = [] := List.flatten_eq_nil_iff.1 hflat m hm
  have hlong := (hfr.isMsg m hm).1
  rw [hnil] at hlong
  exact absurd hlong (by decide)

/-- **The verdicts agree but for the length of type `'B'`.** -/
theorem verdict_iff {s : MoldUDP64Parser} {q : MoldRegs × ItchRegs} (hr : Reached s q)
    {pkt : List Byte} (hok : HeaderOk s pkt) (hascii : AsciiSymbols pkt)
    {cycles : List InterfaceIn} {after : InterfaceIn} (hc : Carries pkt (beatsOf cycles))
    (hloc : ∀ i ∈ cycles ++ [after], i.stockLocateV = true) :
    (Raises q cycles after ↔ Ref.Top.Rejects s pkt) ↔ ¬ Disputed pkt := by
  rcases lt_or_ge pkt.length 20 with hshort | hlen
  · exact iff_of_true (iff_of_true (raises_of_short hr.ready.synced hc hshort)
      (rejects_of_short s hshort)) (not_disputed_of_short hshort)
  obtain ⟨first, rest, rfl⟩ := exists_first hc
  have hrtl := not_raises_iff hr.ready hlen hok hc hloc
  have hpy := not_rejects_iff hlen hok
  by_cases hw : ∃ msgs, Framed (countOf pkt) (pkt.drop 20) msgs
  · obtain ⟨msgs, hfr⟩ := hw
    have hunique : ∀ P : List (List Byte) → Prop,
        (∃ msgs, Framed (countOf pkt) (pkt.drop 20) msgs ∧ P msgs) ↔ P msgs := by
      refine fun P => ⟨?_, fun h => ⟨msgs, hfr, h⟩⟩
      rintro ⟨msgs', hfr', h⟩
      rwa [Framing.framed_unique hfr hfr']
    have hret : (∀ m ∈ msgs, (Ref.ITCHParser.parseMsg m).IsRet) ↔ ∀ m ∈ msgs, ValidMsg 17 m :=
      forall₂_congr fun m hm => isRet_iff (length_of_isMsg (hfr.isMsg m hm)) fun hc =>
        decode_ascii (hascii msgs hfr m hm hc)
    rw [hunique] at hrtl hpy
    rw [hret] at hpy
    have hdisputed : Disputed pkt ↔ (∃ m ∈ msgs, chr (byteAt m 2) = 'B') ∧
        ((∀ m ∈ msgs, ValidMsg 17 m) ∨ ∀ m ∈ msgs, ValidMsg 19 m) := hunique _
    rw [hdisputed]
    by_cases hB : ∃ m ∈ msgs, chr (byteAt m 2) = 'B'
    · have hboth : ¬ ((∀ m ∈ msgs, ValidMsg 17 m) ∧ ∀ m ∈ msgs, ValidMsg 19 m) := by
        rintro ⟨h17, h19⟩
        obtain ⟨m, hm, htype⟩ := hB
        have hl := (validMsg_typeB htype).1 (h17 m hm)
        have hl' := (validMsg_typeB htype).1 (h19 m hm)
        omega
      -- one of the two rejects it; the other does not if it is valid
      rw [← hpy, ← hrtl] at hboth ⊢
      by_cases hraises : Raises q (first :: rest) after <;>
        by_cases hrejects : Ref.Top.Rejects s pkt <;>
        simp only [hraises, hrejects, hB, true_and, not_true, not_false_eq_true, and_self, or_self,
          or_false, or_true, iff_self, iff_true, iff_false] at hboth ⊢
    · have hsame : (∀ m ∈ msgs, ValidMsg 17 m) ↔ ∀ m ∈ msgs, ValidMsg 19 m :=
        forall₂_congr fun m hm => validMsg_congr fun h => hB ⟨m, hm, h⟩
      rw [hsame] at hpy
      simp only [hB, false_and, not_false_eq_true, iff_true]
      exact not_iff_not.1 (hrtl.trans hpy.symm)
  · have hno : ∀ P : List (List Byte) → Prop,
        ¬ ∃ msgs, Framed (countOf pkt) (pkt.drop 20) msgs ∧ P msgs := by
      rintro P ⟨msgs, hfr, -⟩
      exact hw ⟨msgs, hfr⟩
    have hraises := not_not.1 (mt hrtl.1 (hno _))
    have hrejects := not_not.1 (mt hpy.1 (hno _))
    exact iff_of_true (iff_of_true hraises hrejects) (hno _)

/-! ### A broken trade -/

/-- A first packet with one message of type `'B'` and length 19. -/
def brokenTradePkt : List Byte := Framing.truncatedPkt ++ [0, 19, 0x42] ++ List.replicate 18 0

/-- The chain at power-up, some arbitrary registers reset. -/
def powerUp : MoldRegs × ItchRegs :=
  (Framing.powerUp,
    ItchRegs.reset ⟨0, 0, false, DecCtrl.zero, false, DecBook.zero, DecBook.zero, .ignore⟩)

/-- The beats of the packet, with a known stock locate. -/
def brokenTradeCycles : List InterfaceIn :=
  (Framing.beats brokenTradePkt).map fun axis => ⟨axis, true, 7⟩

theorem reached_powerUp : Reached MoldUDP64Parser.new powerUp :=
  Reached.reset (⟨0, 0, 0, 0, 0, false, false, 0, false, .msg⟩,
    ⟨0, 0, false, DecCtrl.zero, false, DecBook.zero, DecBook.zero, .ignore⟩)

theorem carries_brokenTrade : Carries brokenTradePkt (beatsOf brokenTradeCycles) := by
  have hc := Framing.carries_beats (by decide : brokenTradePkt ≠ [])
  rw [beatsOf, brokenTradeCycles, List.map_map]
  change Carries _ (((Framing.beats brokenTradePkt).map id).filter _)
  rwa [List.map_id, hc.filter_tvalid]

theorem framed_brokenTrade :
    Framed (countOf brokenTradePkt) (brokenTradePkt.drop 20) [[0, 19, 0x42] ++ List.replicate 18 0] :=
  ⟨by decide, by simp [IsMsg]; decide, by decide⟩

theorem ascii_brokenTrade : AsciiSymbols brokenTradePkt := by
  intro msgs hfr m hm hc
  rw [Framing.framed_unique hfr framed_brokenTrade, List.mem_singleton] at hm
  subst hm
  exact absurd hc (by decide)

/-- The cycle behind the packet. -/
def idleCycle : InterfaceIn := ⟨⟨false, false, 0, 0⟩, true, 7⟩

theorem verdict_iff_brokenTrade :
    (Raises powerUp brokenTradeCycles idleCycle ↔
      Ref.Top.Rejects MoldUDP64Parser.new brokenTradePkt) ↔ ¬ Disputed brokenTradePkt :=
  verdict_iff reached_powerUp ⟨Or.inl rfl, by decide⟩ ascii_brokenTrade carries_brokenTrade (by decide)

/-- The RTL accepts the broken trade, the reference pipeline rejects it. -/
theorem brokenTrade_disputed :
    Reached MoldUDP64Parser.new powerUp ∧ HeaderOk MoldUDP64Parser.new brokenTradePkt ∧
      AsciiSymbols brokenTradePkt ∧ Carries brokenTradePkt (beatsOf brokenTradeCycles) ∧
      ¬ (Raises powerUp brokenTradeCycles idleCycle ↔
        Ref.Top.Rejects MoldUDP64Parser.new brokenTradePkt) := by
  have hok : HeaderOk MoldUDP64Parser.new brokenTradePkt := ⟨Or.inl rfl, by decide⟩
  refine ⟨reached_powerUp, hok, ascii_brokenTrade, carries_brokenTrade, ?_⟩
  have hrejects : Ref.Top.Rejects MoldUDP64Parser.new brokenTradePkt :=
    ⟨.err "Unexpected msg byte length.", by decide, Ref.Outcome.isRet_err _⟩
  have haccepts : ¬ Raises powerUp brokenTradeCycles idleCycle := by
    have hc := carries_brokenTrade
    have hloc : ∀ i ∈ brokenTradeCycles ++ [idleCycle], i.stockLocateV = true := by decide
    obtain ⟨first, rest, hcycles⟩ := exists_first hc
    rw [hcycles] at hc hloc ⊢
    refine (not_raises_iff reached_powerUp.ready (by decide) hok hc hloc).2
      ⟨_, framed_brokenTrade, ?_⟩
    intro m hm
    rw [List.mem_singleton.1 hm]
    exact (validMsg_typeB (by decide)).2 (by decide)
  exact fun h => haccepts (h.2 hrejects)

end ItchOrderBook.Decode
