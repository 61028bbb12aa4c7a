import ItchOrderBook.Decode.Verdict
import ItchOrderBook.Gating.Flow

/-!
# The results of a stream of packets

Well-formed packets, with idle cycles anywhere (`Stream`), are what the ITCH parser reads, cut off at
any cycle (`words_of_stream`). In a run without an error the stock locate that `control` has is the
same in all cycles in which it has one, so the messages are decoded with this locate, and those
shown are the first ones of the stream (`shown_first`). With the masks of `masks_run`, every
published result is masked by the stock state after the control messages before its order
(`results_gated`).
-/

namespace ItchOrderBook.Gating

open Decode (Decoded Delivers Gap LengthOk Rested Settled ValidMsg collect_map_some decodeMsg
  decodeMsg_iff emitted emitted_run followed_of_valid itchCore itchFresh itchFresh_paced itchWord
  lengthsOk_of_framed norm packets_sent pending)
open Framing (Carries Framed HeaderOk Synced Tracks countOf moldudp64Parser_paced)
open Ref (Byte MoldUDP64Parser)
open Rtl (Axis Bbo ControlRegs ItchIn ItchRegs MoldRegs TopIn TopOut TopRegs itchParser moldudp64Parser top)

/-! ### Packets -/

/-- Well-formed packets: their headers continue the session, they are framed, and their messages are
valid. The cycles in between, and inside a packet, may be idle. -/
inductive Stream : MoldUDP64Parser → List (List (List Byte)) → List Axis → Prop
  | idle {s : MoldUDP64Parser} {cycles : List Axis} (h : ∀ axis ∈ cycles, axis.tvalid = false) :
    Stream s [] cycles
  | packet {s : MoldUDP64Parser} {pkt : List Byte} {msgs : List (List Byte)}
    {packets : List (List (List Byte))} {cycles cycles' : List Axis} (hlen : 20 ≤ pkt.length)
    (hok : HeaderOk s pkt) (hfr : Framed (countOf pkt) (pkt.drop 20) msgs)
    (hmsgs : ∀ m ∈ msgs, ValidMsg 19 m) (hc : Carries pkt (cycles.filter fun axis => axis.tvalid))
    (h : Stream (s.processPkt pkt).2 packets cycles') :
    Stream s (msgs :: packets) (cycles ++ cycles')

/-- A word as the ITCH parser gets it, with the stock locate known. -/
def knownWord (loc : BitVec 16) (w : BitVec 32 × Bool) : ItchIn := ⟨true, w.1, w.2, true, loc⟩

/-- The words that the MoldUDP64 parser presents. -/
def presented (m : MoldRegs) (cycles : List Axis) : List (BitVec 32 × Bool) :=
  (moldudp64Parser.trace m cycles).filterMap Prod.snd

theorem Stream.valid {s : MoldUDP64Parser} {packets : List (List (List Byte))} {cycles : List Axis}
    (h : Stream s packets cycles) : ∀ m ∈ packets.flatten, Framing.IsMsg m ∧ ValidMsg 19 m := by
  induction h with
  | idle => intro m hm; cases hm
  | packet hlen hok hfr hmsgs hc h ih =>
    intro m hm
    rw [List.flatten_cons, List.mem_append] at hm
    rcases hm with hm | hm
    · exact ⟨hfr.isMsg m hm, hmsgs m hm⟩
    · exact ih m hm

/-- **The words presented carry the messages of the stream.** -/
theorem words_of_stream (loc : BitVec 16) {s : MoldUDP64Parser} {packets : List (List (List Byte))}
    {cycles : List Axis} (h : Stream s packets cycles) {m : MoldRegs} (hm : Synced m)
    (ht : Tracks s m) : ∃ packets', packets'.flatten = packets.flatten ∧
      Delivers loc packets' ((presented m cycles).map (knownWord loc)) := by
  induction h generalizing m with
  | @idle s cycles hidle =>
    have hnil : cycles.filter (fun axis => axis.tvalid) = [] :=
      List.filter_eq_nil_iff.2 fun axis ha => by simp [hidle axis ha]
    have hwords : presented m cycles = [] := by
      rw [presented, moldudp64Parser_paced.trace_eq trivial,
        filterMap_weave rfl (Circuit.length_trace ..), hnil]
      rfl
    refine ⟨[], rfl, ?_⟩
    rw [hwords]
    exact Delivers.nil
  | @packet s pkt msgs packets cycles cycles' hlen hok hfr hmsgs hc h ih =>
    have hsess := Framing.session_ok ht hok
    have hseq := Framing.seq_ok ht hok
    have hcore : Synced (Framing.core m) := ⟨hm.idle, hm.compare⟩
    have hquiet : Framing.Quiet (moldudp64Parser.trace m cycles) := by
      rw [Framing.quiet_trace_iff]
      exact (Framing.packet_run hcore hsess hseq hlen (lengthsOk_of_framed hfr fun x hx =>
        followed_of_valid (hfr.isMsg x hx) (Or.inr rfl) (hmsgs x hx)) hc).2 ⟨msgs, hfr⟩
    obtain ⟨-, -, hm', ht'⟩ := Framing.tracks_of_quiet hm ht hlen hok hc hquiet
    obtain ⟨packets', hflat, hd⟩ := ih hm' ht'
    have hsplit := (Framing.packet_split hcore hsess hseq hlen hc).1
    have hwords : presented m (cycles ++ cycles') =
        ((cycles.filter fun axis => axis.tvalid).drop 5).map (fun axis => (axis.tdata, axis.tlast)) ++
          presented (moldudp64Parser.run m cycles) cycles' := by
      rw [presented, Circuit.trace_append, List.filterMap_append,
        Framing.words_of_quiet hm ht hlen hok hc hquiet]
      rfl
    rw [hwords, List.map_append, List.map_map]
    by_cases hp : pkt.drop 20 = []
    · -- a heartbeat has no words
      rw [if_pos hp] at hsplit
      have hempty : msgs.flatten = [] := by rw [hfr.flatten, hp]
      have hnil : msgs = [] := by
        cases msgs with
        | nil => rfl
        | cons x msgs =>
          have h2 := (hfr.isMsg x List.mem_cons_self).1
          rw [List.flatten_cons, List.append_eq_nil_iff] at hempty
          rw [hempty.1] at h2
          cases h2
      refine ⟨packets', ?_, ?_⟩
      · rw [hflat, hnil]
        rfl
      · rw [hsplit]
        exact hd
    · rw [if_neg hp, ← hfr.flatten] at hsplit
      refine ⟨msgs :: packets', ?_, ?_⟩
      · rw [List.flatten_cons, List.flatten_cons, hflat]
      · exact Delivers.cons hsplit hd

/-! ### What the ITCH parser reads -/

/-- The inputs of the ITCH parser in a run. -/
def itchIns (q : TopRegs) (cycles : List TopIn) : List ItchIn := (view TopRegs.itchIn).trace q cycles

/-- The word in an input. -/
def wordOf (i : ItchIn) : Option (BitVec 32 × Bool) :=
  if i.ipDataV then some (i.ipData, i.ipDataTlast) else none

/-- The ITCH parser in a run of the top level. -/
theorem itch_run (q : TopRegs) (cycles : List TopIn) :
    (top.run q cycles).itch = itchParser.run q.itch (itchIns q cycles) ∧
      shown q cycles = (itchParser.trace q.itch (itchIns q cycles)).flatMap emitted := by
  induction cycles generalizing q with
  | nil => exact ⟨rfl, rfl⟩
  | cons i cycles ih =>
    obtain ⟨hrun, hshown⟩ := ih (q.next i)
    exact ⟨hrun, congrArg (emitted q.itchOut ++ ·) hshown⟩

/-- It reads the words one cycle after they are presented. -/
theorem words_read (q : TopRegs) (cycles : List TopIn) :
    (itchIns q cycles).filterMap wordOf <+:
      q.mold.ipWord.toList ++ presented q.mold (cycles.map TopIn.axis) := by
  induction cycles generalizing q with
  | nil => exact List.nil_prefix
  | cons i cycles ih =>
    have hpresented : presented q.mold ((i :: cycles).map TopIn.axis) =
        (q.next i).mold.ipWord.toList ++
          presented (q.next i).mold (cycles.map TopIn.axis) := by
      cases hw : (q.next i).mold.ipWord with
      | none => exact List.filterMap_cons_none hw
      | some w => exact List.filterMap_cons_some hw
    have hins : (itchIns q (i :: cycles)).filterMap wordOf =
        q.mold.ipWord.toList ++ (itchIns (q.next i) cycles).filterMap wordOf := by
      have hword : wordOf q.itchIn = q.mold.ipWord := rfl
      cases hw : q.mold.ipWord with
      | none => exact List.filterMap_cons_none (hword.trans hw)
      | some w => exact List.filterMap_cons_some (hword.trans hw)
    rw [hins, hpresented]
    exact (List.prefix_append_right_inj _).2 (ih (q.next i))

/-! ### The stock locate of a run -/

/-- The cycle with a known stock locate. -/
def locatedAt (loc : BitVec 16) (i : ItchIn) : ItchIn :=
  { i with stockLocateV := true, stockLocate := loc }

theorem filter_locatedAt (loc : BitVec 16) (is : List ItchIn) :
    (is.map (locatedAt loc)).filter (fun i => i.ipDataV) =
      (is.filterMap wordOf).map (knownWord loc) := by
  induction is with
  | nil => rfl
  | cons i is ih =>
    cases hv : i.ipDataV with
    | false =>
      have hnone : wordOf i = none := by rw [wordOf, hv, if_neg Bool.false_ne_true]
      rw [List.map_cons, List.filter_cons_of_neg (by simp [locatedAt, hv]),
        List.filterMap_cons_none hnone, ih]
    | true =>
      have hsome : wordOf i = some (i.ipData, i.ipDataTlast) := by rw [wordOf, hv, if_pos rfl]
      rw [List.map_cons, List.filter_cons_of_pos (by simp [locatedAt, hv]),
        List.filterMap_cons_some hsome, List.map_cons, ih, locatedAt, hv, knownWord]

/-- Without an error, the locate is only looked at where it is known. -/
theorem comb_locatedAt {q : ItchRegs} {i : ItchIn} {loc : BitVec 16}
    (herr : (q.comb i).errorStockLocate = false)
    (hloc : i.stockLocateV = true → i.stockLocate = loc) :
    q.comb i = q.comb (locatedAt loc i) := by
  cases hv : i.stockLocateV with
  | true =>
    have hi : locatedAt loc i = i := by
      obtain ⟨v, data, last, locV, loc'⟩ := i
      obtain rfl : locV = true := hv
      obtain rfl : loc' = loc := hloc rfl
      rfl
    rw [hi]
  | false =>
    obtain ⟨v, data, last, locV, loc'⟩ := i
    obtain rfl : locV = false := hv
    have hmatch : ∀ (d : ItchRegs.Comb) (l : BitVec 16),
        (ItchRegs.matchStock d ⟨v, data, last, false, loc'⟩ l).errorStockLocate = true :=
      fun d l => rfl
    cases v with
    | false => rfl
    | true =>
      simp only [ItchRegs.comb, locatedAt, if_true] at herr ⊢
      cases hs : q.state <;> simp only [hs] at herr ⊢
      case add =>
        simp only [ItchRegs.onAdd] at herr ⊢
        split_ifs at herr ⊢
        · rw [hmatch] at herr
          cases herr
        · rfl
        · rfl
      case execute =>
        simp only [ItchRegs.onExecute] at herr ⊢
        split_ifs at herr ⊢
        · rw [hmatch] at herr
          cases herr
        · rfl
        · rfl
      case executeP =>
        simp only [ItchRegs.onExecuteP] at herr ⊢
        split_ifs at herr ⊢
        · rw [hmatch] at herr
          cases herr
        · rfl
        · rfl
      case delete =>
        simp only [ItchRegs.onDelete] at herr ⊢
        split_ifs at herr ⊢
        · rw [hmatch] at herr
          cases herr
        · rfl
        · rfl
      case replace =>
        simp only [ItchRegs.onReplace] at herr ⊢
        split_ifs at herr ⊢
        · rw [hmatch] at herr
          cases herr
        all_goals rfl
      all_goals rfl

/-- Without an error, a stock locate that is known stays. -/
theorem locate_next {q : TopRegs} {i : TopIn} (herr : q.errorOut i = false) (hi : i.initV = false)
    (hv : q.control.stockLocateV = true) : (q.next i).control.stockLocateV = true ∧
      (q.next i).control.stockLocate = q.control.stockLocate := by
  simp only [TopRegs.errorOut, ControlRegs.ctrlError, Bool.or_eq_false_iff] at herr
  obtain ⟨⟨-, -, hloc⟩, -⟩ := herr
  have hnext : (q.next i).control = q.control.comb (q.controlIn i) := q.control.next_eq_comb hi
  rw [hnext]
  unfold ControlRegs.comb
  split_ifs with hvalid
  · cases htype : (q.controlIn i).decCtrl.msgType with
    | event => cases (q.controlIn i).decCtrl.eventCode <;> exact ⟨hv, rfl⟩
    | directory =>
      simp only [ControlRegs.onDirectory]
      split_ifs with hsym
      · -- the locate in the message is the one that is known
        rw [ControlRegs.errorStockLocate, hvalid, htype, hsym, hv] at hloc
        have hsame : q.control.stockLocate = (q.controlIn i).decCtrl.stockLocate := by
          simpa using hloc
        exact ⟨rfl, hsame.symm⟩
      · exact ⟨hv, rfl⟩
    | action =>
      simp only [ControlRegs.onAction]
      split_ifs
      · cases (q.controlIn i).decCtrl.tradeAction <;> exact ⟨hv, rfl⟩
      · exact ⟨hv, rfl⟩
    | halt =>
      simp only [ControlRegs.onHalt]
      split_ifs <;> exact ⟨hv, rfl⟩
  · exact ⟨hv, rfl⟩

theorem locate_run {q : TopRegs} {cycles : List TopIn} (herr : ErrorFree q cycles)
    (hinit : ∀ i ∈ cycles, i.initV = false) (hv : q.control.stockLocateV = true) :
    (top.run q cycles).control.stockLocate = q.control.stockLocate := by
  induction cycles generalizing q with
  | nil => rfl
  | cons i cycles ih =>
    obtain ⟨h0, herr⟩ := errorFree_cons.1 herr
    obtain ⟨hi, hinit⟩ := List.forall_mem_cons.1 hinit
    obtain ⟨hv', hl⟩ := locate_next h0 hi hv
    exact (ih herr hinit hv').trans hl

/-- **One stock locate does for a run.** -/
theorem fresh_locatedAt {q : TopRegs} {cycles : List TopIn} (herr : ErrorFree q cycles)
    (hinit : ∀ i ∈ cycles, i.initV = false) {loc : BitVec 16}
    (hloc : (top.run q cycles).control.stockLocate = loc) :
    itchFresh.trace q.itch (itchIns q cycles) =
      itchFresh.trace q.itch ((itchIns q cycles).map (locatedAt loc)) := by
  induction cycles generalizing q with
  | nil => rfl
  | cons i cycles ih =>
    have hall := locate_run herr hinit
    obtain ⟨h0, herr⟩ := errorFree_cons.1 herr
    obtain ⟨hi, hinit⟩ := List.forall_mem_cons.1 hinit
    have hcomb : q.itch.comb q.itchIn = q.itch.comb (locatedAt loc q.itchIn) := by
      apply comb_locatedAt
      · simp only [TopRegs.errorOut, Bool.or_eq_false_iff] at h0
        obtain ⟨⟨⟨-, hip⟩, -⟩, -⟩ := h0
        have hip' : (q.itch.comb q.itchIn).ipError = false := hip
        simp only [ItchRegs.Comb.ipError, Bool.or_eq_false_iff] at hip'
        exact hip'.1.1.1.1.1.2
      · intro hv
        exact (hall hv).symm.trans hloc
    have hnext : q.itch.next (locatedAt loc q.itchIn) = q.itch.next q.itchIn := by
      rw [ItchRegs.next, ItchRegs.next, hcomb]
    have hins : itchIns q (i :: cycles) = q.itchIn :: itchIns (q.next i) cycles := rfl
    rw [hins, List.map_cons, Circuit.trace_cons, Circuit.trace_cons]
    change Decode.shown (q.itch.comb q.itchIn) ::
        itchFresh.trace (q.next i).itch (itchIns (q.next i) cycles) =
      Decode.shown (q.itch.comb (locatedAt loc q.itchIn)) ::
        itchFresh.trace (q.itch.next (locatedAt loc q.itchIn)) _
    rw [hnext, ← hcomb, ih herr hinit hloc]
    rfl

/-! ### The messages shown -/

/-- Between packets, with nothing on its way to the best bid and offer. -/
structure Drained (s : MoldUDP64Parser) (q : TopRegs) : Prop where
  synced : Synced q.mold
  tracks : Tracks s q.mold
  word : q.mold.ipDataV = false
  settled : Settled q.itch
  ctrl : q.itch.decCtrl.valid = false
  book : q.itch.decBook.valid = false
  del : q.itch.decBookDel.valid = false
  lookup : q.book.lookup.valid = false
  held : q.book.decBookUpdt.valid = false
  refill : flags q.book = Refill.rest.flags

/-- Between packets, with no result on its way. -/
structure Quiescent (s : MoldUDP64Parser) (q : TopRegs) : Prop extends Drained s q where
  result : q.book.bboResVLast = false
  published : q.bboResV = false

theorem Drained.bbo {s : MoldUDP64Parser} {q : TopRegs} (hq : Drained s q) :
    q.book.bboDecBook.valid = false := by
  by_contra hne
  rcases (valid_of_bbo (by simpa using hne)).2 with h | ⟨-, h⟩
  · rw [hq.held] at h
    cases h
  · rw [hq.lookup] at h
    cases h

/-- An idle cycle, with or without an initialisation. -/
theorem Drained.next {s : MoldUDP64Parser} {q : TopRegs} (hq : Drained s q) {i : TopIn}
    (hi : i.axis.tvalid = false) :
    Drained s (q.next i) ∧ (q.next i).book.bboResVLast = false := by
  have hmold : (q.next i).mold = q.mold.hold i.axis := by
    change q.mold.next i.axis = _
    rw [MoldRegs.next, hi, if_neg Bool.false_ne_true]
  have hcomb : q.itch.comb q.itchIn = q.itch.hold q.itchIn := Decode.comb_idle hq.word
  have hitch : (q.next i).itch = q.itch.next q.itchIn := rfl
  have hbbo := hq.bbo
  refine ⟨⟨?_, ?_, ?_, ⟨?_, ?_⟩, ?_, ?_, ?_, ?_, ?_, ?_⟩, not_answered hbbo⟩
  · rw [hmold]
    exact ⟨hq.synced.idle, hq.synced.compare⟩
  · rw [hmold]
    exact ⟨hq.tracks.seqExpect, hq.tracks.firstPkt, hq.tracks.sessionId⟩
  · rw [hmold]
    rfl
  · rw [hitch, ItchRegs.next, hcomb]
    exact hq.settled.state
  · rw [hitch, ItchRegs.next, hcomb]
    exact hq.settled.left
  · rw [hitch, ItchRegs.next, hcomb]
    rfl
  · rw [hitch, Decode.next_decBook, hq.del, if_neg Bool.false_ne_true, hcomb]
    rfl
  · rw [hitch, ItchRegs.next, hcomb]
    rfl
  · exact (lookup_next q.book (q.bookIn i)).1.trans hq.book
  · change (q.book.next (q.bookIn i)).decBookUpdt.valid = false
    by_contra hne
    have hv : (q.book.next (q.bookIn i)).decBookUpdt.valid = true := by simpa using hne
    have hlook := (held_next_valid hv).2.1
    rw [hq.lookup] at hlook
    cases hlook
  · exact refill_next (r := .rest) hq.refill hbbo

/-- What the stream sends of the stock with the locate `loc`. -/
def sent (loc : BitVec 16) (packets : List (List (List Byte))) : List Decoded :=
  packets.flatten.flatMap fun m => (decodeMsg loc m).getD []

theorem collect_first {α : Type} {os os' : List (Option (List α))} (h : os <+: os') {a' : List α}
    (ha : collect os' = some a') : ∃ a, collect os = some a ∧ a <+: a' := by
  obtain ⟨rest, rfl⟩ := h
  rw [collect_append, Option.bind_eq_some_iff] at ha
  obtain ⟨a, ha, hrest⟩ := ha
  obtain ⟨b, -, rfl⟩ := Option.map_eq_some_iff.1 hrest
  exact ⟨a, ha, List.prefix_append _ _⟩

section Runs

variable {s : MoldUDP64Parser} {q : TopRegs} {packets : List (List (List Byte))} {all : List Axis}
  {cycles : List TopIn}

/-- **The messages shown are the first ones of the stream.** -/
theorem shown_first (hq : Quiescent s q) (hstream : Stream s packets all)
    (hcut : (cycles.map TopIn.axis) <+: all) (hinit : ∀ i ∈ cycles, i.initV = false)
    (herr : ErrorFree q cycles) :
    shown q cycles <+: sent (top.run q cycles).control.stockLocate packets := by
  obtain ⟨loc, hloc⟩ : ∃ loc, (top.run q cycles).control.stockLocate = loc := ⟨_, rfl⟩
  obtain ⟨packets', hflat, hd⟩ := words_of_stream loc hstream hq.synced hq.tracks
  have hgap : Gap q.itch := fun _ => Or.inl hq.settled.state
  have hvalid := hstream.valid
  rw [← hflat] at hvalid
  have hsome : ∀ m ∈ packets'.flatten, decodeMsg loc m = some ((decodeMsg loc m).getD []) := by
    intro m hm
    obtain ⟨sent, hsent⟩ := Option.ne_none_iff_exists'.1 (decodeMsg_iff.2 (hvalid m hm).2)
    rw [hsent]
    rfl
  -- the parser behind all words of the stream
  have hall : collect (itchCore.trace (norm q.itch)
      ((presented q.mold all).map (knownWord loc))) = some (sent loc packets) := by
    rw [packets_sent hd (fun msgs hp m hm => followed_of_valid
        (hvalid m (List.mem_flatten.2 ⟨msgs, hp, hm⟩)).1 (Or.inr rfl)
        (hvalid m (List.mem_flatten.2 ⟨msgs, hp, hm⟩)).2) hq.settled.rested,
      List.map_congr_left hsome, collect_map_some, hflat]
    rfl
  -- the words read so far are the first of them
  have hread : ((itchIns q cycles).map (locatedAt loc)).filter (fun i => i.ipDataV) <+:
      (presented q.mold all).map (knownWord loc) := by
    rw [filter_locatedAt]
    apply List.IsPrefix.map
    have hword : q.mold.ipWord = none := by
      rw [MoldRegs.ipWord, hq.word, if_neg Bool.false_ne_true]
    have hread := words_read q cycles
    rw [hword] at hread
    refine hread.trans ?_
    obtain ⟨rest, rfl⟩ := hcut
    rw [presented, presented, Circuit.trace_append, List.filterMap_append]
    exact List.prefix_append _ _
  have hprefix : itchCore.trace (norm q.itch)
      (((itchIns q cycles).map (locatedAt loc)).filter fun i => i.ipDataV) <+:
      itchCore.trace (norm q.itch) ((presented q.mold all).map (knownWord loc)) := by
    obtain ⟨rest, hrest⟩ := hread
    rw [← hrest, Circuit.trace_append]
    exact List.prefix_append _ _
  obtain ⟨part, hpart, hle⟩ := collect_first hprefix hall
  have hfresh : collect (itchFresh.trace q.itch (itchIns q cycles)) = some part := by
    rw [fresh_locatedAt herr hinit hloc, itchFresh_paced.trace_eq hgap,
      collect_weave (Circuit.length_trace ..), hpart]
  have hemit := (emitted_run hgap hfresh).2
  have hnone : pending q.itch = [] := by
    rw [pending, Decode.ofCtrl_of_not_valid hq.ctrl, Decode.ofBook_of_not_valid hq.book,
      Decode.ofBook_of_not_valid hq.del]
    rfl
  rw [hnone, List.nil_append] at hemit
  rw [(itch_run q cycles).2, hloc]
  exact (List.prefix_append _ _).trans (hemit ▸ hle)

theorem Quiescent.stages (hq : Quiescent s q) : Stages q where
  spaced :=
    ⟨fun _ => Or.inl hq.settled.state, fun h => absurd h (by simp [hq.del]),
      fun h => absurd h (by simp [hq.book])⟩
  clear := ⟨fun h => absurd h (by simp [hq.del]), fun h => absurd h (by simp [hq.book])⟩
  lookup h := absurd h (by simp [hq.lookup])
  held h := absurd h (by simp [hq.held])
  result h := absurd h (by simp [hq.result])
  refill := Or.inl hq.refill

theorem Quiescent.due (hq : Quiescent s q) : due q = [] := by
  rw [Gating.due, hq.result, not_answered hq.held, not_answered hq.lookup]
  rfl

/-! ### The results -/

/-- The results on `bbo_res_o`. -/
def published (outs : List TopOut) : List Bbo :=
  outs.flatMap fun o => if o.bboResV then [o.bboRes] else []

/-- The results on `book_bbo_res_o`. -/
def bookResults (q : TopRegs) (cycles : List TopIn) : List Bbo :=
  ((view fun q => if q.book.bboResVLast then [q.book.bbo.res] else []).trace q cycles).flatten

/-- The output stage masks the results of the book, one cycle later. -/
theorem published_eq (q : TopRegs) (cycles : List TopIn) (last : TopIn) :
    published (top.trace q (cycles ++ [last])) = (if q.bboResV then [q.bboRes] else []) ++
      List.zipWith Bbo.mask (masks q cycles) (bookResults q cycles) ∧
    (masks q cycles).length = (bookResults q cycles).length := by
  induction cycles generalizing q with
  | nil => exact ⟨rfl, rfl⟩
  | cons i cycles ih =>
    obtain ⟨hpub, hlen⟩ := ih (q.next i)
    have hstep : published (top.trace q (i :: cycles ++ [last])) =
        (if q.bboResV then [q.bboRes] else []) ++
          published (top.trace (q.next i) (cycles ++ [last])) := rfl
    have hmasks : masks q (i :: cycles) = mask q ++ masks (q.next i) cycles := rfl
    have hbook : bookResults q (i :: cycles) =
        (if q.book.bboResVLast then [q.book.bbo.res] else []) ++ bookResults (q.next i) cycles := rfl
    have hreg : (q.next i).bboResV = q.book.bboResVLast ∧
        (q.next i).bboRes = q.book.bbo.res.mask q.control.stockActive := ⟨rfl, rfl⟩
    rw [hstep, hpub, hmasks, hbook, hreg.1, hreg.2, mask]
    cases q.book.bboResVLast with
    | true => exact ⟨rfl, congrArg Nat.succ hlen⟩
    | false => exact ⟨rfl, hlen⟩

/-- **Every published result is masked by the right stock state.** The stream may be cut off at any
cycle. The published results are those of the book, masked one by one with the first gates of the
stream: the `n`-th result by the stock state that the control messages before the `n`-th order
with a result have left. -/
theorem results_gated (hq : Quiescent s q) (hstream : Stream s packets all) {last : TopIn}
    (hcut : ((cycles ++ [last]).map TopIn.axis) <+: all)
    (hinit : ∀ i ∈ cycles, i.initV = false) (herr : ErrorFree q cycles) :
    ∃ gs, gs <+: gates q.control (sent (top.run q cycles).control.stockLocate packets) ∧
      gs.length = (bookResults q cycles).length ∧
      published (top.trace q (cycles ++ [last])) = List.zipWith Bbo.mask gs (bookResults q cycles) := by
  obtain ⟨hpub, hlen⟩ := published_eq q cycles last
  refine ⟨masks q cycles, ?_, hlen, ?_⟩
  · have hcut' : (cycles.map TopIn.axis) <+: all := by
      rw [List.map_append] at hcut
      exact (List.prefix_append _ _).trans hcut
    have hrun := masks_run hq.stages herr hinit
    rw [hq.due, List.nil_append] at hrun
    have hgates := gates_first q.control (shown_first hq hstream hcut' hinit herr)
    rw [hrun] at hgates
    exact (List.prefix_append _ _).trans hgates
  · rw [hpub, hq.published, if_neg Bool.false_ne_true, List.nil_append]

end Runs

/-! ### A trading halt behind an order -/

/-- The top level with a ready and empty book, the stock `EXAMPLE1` with the locate 7 and the price
base 10000. -/
def exampleRegs : TopRegs where
  mold := Framing.powerUp
  itch := ItchRegs.reset
    ⟨0, 0, false, Rtl.DecCtrl.zero, false, Rtl.DecBook.zero, Rtl.DecBook.zero, .ignore⟩
  control := ⟨true, .q, 0x4558414D504C4531, false, false, false, 7, true, true, false⟩
  book :=
    { decBookUpdt := .zero
      updtIng := false
      bboResVLast := false
      l3 :=
        { oidHash := 0
          prevIsBuy := false
          lookup := .zero
          ram := ⟨⟨fun _ _ => .zero, fun _ => .zero⟩, false, 0, fun _ => .zero, Rtl.wayAt 0, .zero, 0, false, 0,
            fun _ => .zero, fun _ => .zero, false, 0⟩
          cam := ⟨false, .zero, fun _ => .zero⟩ }
      l2 :=
        { initialized := true
          priceBase := 10000
          priceMax := 112350
          decBook := .zero
          existWen := false
          existWaddr := 0
          existDin := false
          existArr := fun _ => false
          bid := ⟨false, false, 0, fun _ => ⟨false, 0⟩, 0⟩
          off := ⟨false, false, 0, fun _ => ⟨false, 0⟩, 0⟩
          paRam := ⟨⟨fun _ => 0, 0⟩, false, 0⟩
          odRam := ⟨⟨fun _ => 0, 0⟩, false, 0⟩
          lut := ⟨true, true, 0, 0, ⟨fun _ => 0, 0, 0⟩, ⟨fun _ => 0, 0⟩⟩ }
      bbo :=
        ⟨⟨true, 10000, .zero, .zero, 0, 0, false, false, false, false⟩,
          ⟨true, 112350, .zero, .zero, 0, 0, false, false, false, false⟩⟩ }
  bboResV := false
  bboRes := ⟨false, 0, 0, false, 0, 0, 0⟩
  error := false

/-- A system event. -/
def eventMsg (code : Byte) : List Byte := [0, 12, 0x53, 0, 0, 0, 0, 0, 0, 0, 0, 0, 0, code]

/-- A trading action for the stock. -/
def actionMsg (action : Byte) : List Byte :=
  [0, 25, 0x48, 0, 7, 0, 0, 0, 0, 0, 0, 0, 0] ++ [69, 88, 65, 77, 80, 76, 69, 49] ++
    [action, 0, 0, 0, 0, 0]

/-- A bid for 100 shares. -/
def bidMsg (orderId : Byte) : List Byte :=
  [0, 36, 0x41, 0, 7, 0, 0, 0, 0, 0, 0, 0, 0] ++ [0, 0, 0, 0, 0, 0, 0, orderId] ++ [66] ++
    [0, 0, 0, 100] ++ [69, 88, 65, 77, 80, 76, 69, 49] ++ [0, 0, 41, 4]

/-- The stock is opened, and halted right behind the first of two bids. -/
def haltedMsgs : List (List Byte) :=
  [eventMsg 79, eventMsg 83, actionMsg 84, bidMsg 1, actionMsg 72, bidMsg 2]

/-- The packet of these messages. -/
def haltedPkt : List Byte :=
  [84, 69, 83, 84, 95, 68, 82, 67, 84, 89] ++ [0, 0, 0, 0, 0, 0, 0, 1] ++ [0, 6] ++
    haltedMsgs.flatten

/-- A cycle with a beat. -/
def topCycle (axis : Axis) : TopIn := ⟨false, .q, 0, 0, axis⟩

/-- An idle beat. -/
def idleBeat : Axis := ⟨false, false, 0, 0⟩

/-- The cycles of the packet, and some idle ones behind it. -/
def haltedCycles : List TopIn := (Framing.beats haltedPkt ++ List.replicate 5 idleBeat).map topCycle

theorem quiescent_exampleRegs : Quiescent .new exampleRegs :=
  ⟨⟨⟨rfl, fun h => nomatch h⟩, ⟨rfl, rfl, fun h => nomatch h⟩, rfl, ⟨rfl, rfl⟩, rfl, rfl, rfl, rfl, rfl,
    rfl⟩, rfl, rfl⟩

theorem stream_halted :
    Stream .new [haltedMsgs] (Framing.beats haltedPkt ++ List.replicate 6 idleBeat) := by
  have hc := Framing.carries_beats (by decide : haltedPkt ≠ [])
  have hfr : Framed (countOf haltedPkt) (haltedPkt.drop 20) haltedMsgs := by
    refine ⟨by decide +kernel, ?_, by decide +kernel⟩
    unfold Framing.IsMsg
    decide +kernel
  have hok : HeaderOk .new haltedPkt := ⟨Or.inl rfl, by decide +kernel⟩
  refine Stream.packet (by decide +kernel) hok hfr ?_ ?_ (Stream.idle ?_)
  · intro m hm
    have hdec : ∀ m ∈ haltedMsgs, decodeMsg 0 m ≠ none := by decide +kernel
    exact decodeMsg_iff.1 (hdec m hm)
  · rw [hc.filter_tvalid]
    exact hc
  · intro axis ha
    rw [List.eq_of_mem_replicate ha]
    rfl

/-- The result of the bid in front of the halt is valid, that of the bid behind it is not. -/
theorem results_gated_halted :
    (∃ gs, gs <+: gates exampleRegs.control
        (sent (top.run exampleRegs haltedCycles).control.stockLocate [haltedMsgs]) ∧
      gs.length = (bookResults exampleRegs haltedCycles).length ∧
      published (top.trace exampleRegs (haltedCycles ++ [topCycle idleBeat])) =
        List.zipWith Bbo.mask gs (bookResults exampleRegs haltedCycles)) ∧
    (published (top.trace exampleRegs (haltedCycles ++ [topCycle idleBeat]))).map
      (fun b => b.bidValid) = [true, false] := by
  have hcut : ((haltedCycles ++ [topCycle idleBeat]).map TopIn.axis) <+:
      Framing.beats haltedPkt ++ List.replicate 6 idleBeat :=
    ⟨[], by decide +kernel⟩
  have herr : ErrorFree exampleRegs haltedCycles := by
    unfold ErrorFree
    decide +kernel
  have hinit : ∀ i ∈ haltedCycles, i.initV = false := by decide +kernel
  exact ⟨results_gated quiescent_exampleRegs stream_halted hcut hinit herr, by decide +kernel⟩

end ItchOrderBook.Gating
