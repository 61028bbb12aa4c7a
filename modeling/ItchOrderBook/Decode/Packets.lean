import ItchOrderBook.Decode.Reference

/-!
# The RTL decodes what the reference parser decodes

The words of a packet are those of `Carries`. Behind what the shift register held before, its
bytes are the messages one after the other, and the padding (`words_of_carries`); the messages are
decoded one by one (`messages_run`), and at the end of a packet the parser is where it was at the
beginning (`packet_sent`). With idle cycles anywhere, the RTL shows what the reference parser
yields (`decode_agrees`).
-/

namespace ItchOrderBook.Decode

open Ref (Byte slice fromBytes chr)
open Rtl (Axis DecCtrl DecBook ItchIn ItchOut ItchRegs IpState itchParser)
open Framing (Carries word)

/-- A beat as the ITCH parser gets it, with the stock locate known. -/
def itchWord (loc : BitVec 16) (axis : Axis) : ItchIn := ⟨true, axis.tdata, axis.tlast, true, loc⟩

/-- The words of packets, one packet after the other. -/
inductive Delivers (loc : BitVec 16) : List (List (List Byte)) → List ItchIn → Prop
  | nil : Delivers loc [] []
  | cons {msgs : List (List Byte)} {bs : List Axis} {packets : List (List (List Byte))}
    {is : List ItchIn} (hc : Carries msgs.flatten bs) (h : Delivers loc packets is) :
    Delivers loc (msgs :: packets) (bs.map (itchWord loc) ++ is)

/-- What the signals should show of one message. -/
def yielded (loc : BitVec 16) (msg : List Byte) : List Decoded :=
  match Ref.ITCHParser.parseMsg msg with
  | .ret msgs => views loc msgs
  | _ => []

/-! ### The words of a packet -/

/-- The words of a packet lie behind any other bytes. -/
theorem words_of_carries (loc : BitVec 16) {data : List Byte} {bs : List Axis} (hc : Carries data bs) :
    ∃ pad : List Byte, pad.length < 4 ∧ data.length + pad.length = 4 * bs.length ∧
      ∀ front : List Byte, bs.map (itchWord loc) =
        words (front ++ (data ++ pad)) loc front.length bs.length := by
  induction hc with
  | @last p pad hp hlen =>
    have hpos := List.length_pos_of_ne_nil hp
    refine ⟨pad, by omega, by rw [hlen]; rfl, fun front => ?_⟩
    have hslice : slice (front ++ (p ++ pad)) front.length (front.length + 4) = p ++ pad := by
      rw [Ref.slice_eq_take_drop, List.drop_left]
      exact List.take_of_length_le (by simp [hlen])
    have htlast : decide (front.length + 4 = (front ++ (p ++ pad)).length) = true :=
      decide_eq_true (by simp [hlen])
    simp only [List.map_cons, List.map_nil, List.length_singleton, words, itchWord, wordAt, hslice,
      htlast]
  | @more p rest bs hlen hrest ih =>
    obtain ⟨pad, hpad, htotal, ih⟩ := ih
    refine ⟨pad, hpad, by simp only [List.length_append, List.length_cons]; omega, fun front => ?_⟩
    have hpos := hrest.length_pos
    have hassoc : front ++ (p ++ rest ++ pad) = front ++ p ++ (rest ++ pad) := by simp
    have hslice : slice (front ++ (p ++ rest ++ pad)) front.length (front.length + 4) = p := by
      rw [hassoc]
      exact Ref.slice_append rfl (by rw [hlen])
    have htlast : decide (front.length + 4 = (front ++ (p ++ rest ++ pad)).length) = false := by
      apply decide_eq_false
      simp only [List.length_append]
      omega
    rw [List.map_cons, ih (front ++ p), List.length_cons, words, ← hassoc, List.length_append, hlen]
    simp only [itchWord, wordAt, hslice, htlast]

/-- Between packets. -/
structure Rested (q : ItchRegs) : Prop where
  state : q.state = .idle
  left : q.bytesLeft = 0
  del : q.decBookDel.valid = false

/-- The register holds some bytes. -/
theorem exists_front (q : ItchRegs) :
    ∃ front : List Byte, front.length = 44 ∧ bits 352 front = q.ipLine :=
  exists_bits (w := 8) (n := 352) (k := 44) rfl q.ipLine

/-- The first message of a packet. -/
theorem Rested.atStart {q : ItchRegs} (h : Rested q) {front rest : List Byte}
    (hfront : front.length = 44) (hline : bits 352 front = q.ipLine) (hrest : rest ≠ []) :
    AtStart (front ++ rest) 44 44 q := by
  have hpos := List.length_pos_of_ne_nil hrest
  have hslice : slice (front ++ rest) (44 - 44) 44 = front := by
    rw [← hfront, Nat.sub_self, Ref.slice, List.take_left, List.drop_zero]
  refine ⟨⟨le_rfl, rfl, by rw [hslice, hline]⟩, h.state, h.del, le_rfl, by decide, ?_⟩
  rw [if_neg (by simp; omega), h.left]
  rfl

/-- The end of a packet. -/
theorem AtStart.rested {S : List Byte} {o n : ℕ} {q : ItchRegs} (h : AtStart S o n q)
    (hn : n = S.length) : Rested q := by
  have hleft := h.left
  rw [if_pos hn] at hleft
  exact ⟨h.state, hleft, h.del⟩

/-! ### Messages one after the other -/

/-- The parser finds the end of the message. -/
def Followed (msg : List Byte) : Prop :=
  msg.length = fromBytes (slice msg 0 2) + 2 ∧
    ∃ len alt st, ItchRegs.idleTable (byteAt msg 2) = some (len, alt, st) ∧
      (fromBytes (slice msg 0 2) = len.toNat ∨
        st = .ignore ∧ 6 ≤ fromBytes (slice msg 0 2) ∧ fromBytes (slice msg 0 2) ≤ 254)

theorem Followed.three {msg : List Byte} (h : Followed msg) : 8 ≤ msg.length := by
  obtain ⟨hlen, len, alt, st, htable, hl⟩ := h
  have := (idleTable_spec htable).1
  omega

/-- **Messages are decoded one by one.** -/
theorem messages_run {S : List Byte} (hS : S.length % 4 = 0) (loc : BitVec 16)
    {msgs : List (List Byte)} (hmsgs : ∀ m ∈ msgs, Followed m) {front rest : List Byte}
    (hdata : S = front ++ (msgs.flatten ++ rest)) {n : ℕ} {q : ItchRegs}
    (h : AtStart S front.length n q) :
    Sends S loc n q (front.length + msgs.flatten.length) (collect (msgs.map (decodeMsg loc))) := by
  induction msgs generalizing front n q with
  | nil => exact ⟨n, q, Steps.refl, h⟩
  | cons msg msgs ih =>
    obtain ⟨hlen, len, alt, st, htable, hl⟩ := hmsgs msg List.mem_cons_self
    have hmsg : slice S front.length (front.length + msg.length) = msg := by
      rw [hdata, List.flatten_cons, List.append_assoc, ← List.append_assoc]
      exact Ref.slice_append rfl rfl
    have hfield : slice msg 0 2 = slice S front.length (front.length + 2) := by
      rw [← hmsg, Ref.slice_slice S (by omega), Nat.add_zero]
    have htype : byteAt msg 2 = byteAt S (front.length + 2) := by
      have h3 := (hmsgs msg List.mem_cons_self).three
      rw [byteAt, byteAt, ← hmsg, Ref.slice_slice S (by omega), Nat.add_assoc]
    rw [hfield] at hlen hl
    rw [htype] at htable
    obtain ⟨n', q', hs, h'⟩ := message_run loc (e := front.length + msg.length) hS h htable rfl hl
      (by omega) (by simp [hdata])
    rw [hmsg] at hs
    have hfront : (front ++ msg).length = front.length + msg.length := List.length_append
    rw [← hfront] at h'
    obtain ⟨n'', q'', hs', h''⟩ := ih (fun m hm => hmsgs m (List.mem_cons_of_mem _ hm))
      (by rw [hdata]; simp) h'
    refine ⟨n'', q'', hs.trans hs', ?_⟩
    rwa [List.flatten_cons, List.length_append, ← Nat.add_assoc, ← hfront]

/-- **A packet.** What is sent is what its messages decode to. -/
theorem packet_sent (loc : BitVec 16) {msgs : List (List Byte)} (hmsgs : ∀ m ∈ msgs, Followed m)
    {bs : List Axis} (hc : Carries msgs.flatten bs) {q : ItchRegs} (h : Rested q) :
    collect (itchCore.trace q (bs.map (itchWord loc))) = collect (msgs.map (decodeMsg loc)) ∧
      Rested (itchCore.run q (bs.map (itchWord loc))) := by
  obtain ⟨front, hfront, hline⟩ := exists_front q
  obtain ⟨pad, hpad, htotal, hwords⟩ := words_of_carries loc hc
  have hpos := hc.length_pos
  obtain ⟨S, hSeq⟩ : ∃ S, S = front ++ (msgs.flatten ++ pad) := ⟨_, rfl⟩
  have hlen : S.length = 44 + 4 * bs.length := by
    rw [hSeq, List.length_append, List.length_append, hfront, htotal]
  have hdata : msgs.flatten ++ pad ≠ [] := List.append_ne_nil_of_left_ne_nil hc.ne_nil _
  have hstart := h.atStart hfront hline hdata
  rw [hwords front, ← hSeq, hfront]
  rw [← hSeq] at hstart
  obtain ⟨n', q', ⟨c, hn, hrun, htrace⟩, h'⟩ := messages_run (S := S) (by omega) loc hmsgs hSeq
    (hfront ▸ hstart)
  have hle := h'.le
  have hlt := h'.lt
  have h4 := h'.reads.aligned
  have hend : n' = S.length := by omega
  obtain rfl : c = bs.length := by omega
  rw [hfront] at hrun htrace
  exact ⟨htrace, hrun ▸ h'.rested hend⟩

/-! ### Packets one after the other -/

/-- **Packets are decoded one by one.** -/
theorem packets_sent {loc : BitVec 16} {packets : List (List (List Byte))} {is : List ItchIn}
    (hd : Delivers loc packets is) (hmsgs : ∀ msgs ∈ packets, ∀ m ∈ msgs, Followed m) {q : ItchRegs}
    (h : Rested q) :
    collect (itchCore.trace q is) = collect (packets.flatten.map (decodeMsg loc)) := by
  induction hd generalizing q with
  | nil => rfl
  | @cons msgs bs packets is hc hd ih =>
    obtain ⟨hsent, hrest⟩ := packet_sent loc (hmsgs msgs List.mem_cons_self) hc h
    rw [Circuit.trace_append, collect_append, hsent,
      ih (fun p hp => hmsgs p (List.mem_cons_of_mem _ hp)) hrest, List.flatten_cons, List.map_append,
      collect_append]

/-- Decoding that succeeds everywhere. -/
theorem collect_map_some {α β : Type} (f : α → List β) (l : List α) :
    collect (l.map fun a => some (f a)) = some (l.flatMap f) := by
  induction l with
  | nil => rfl
  | cons a l ih => rw [List.map_cons, collect_cons_some, ih, List.flatMap_cons]; rfl

/-- Nothing is on its way. -/
structure Clear (q : ItchRegs) : Prop where
  ctrl : q.decCtrl.valid = false
  book : q.decBook.valid = false
  del : q.decBookDel.valid = false

/-- After two idle cycles nothing is on its way. -/
theorem clear_run {q : ItchRegs} {rest : List ItchIn} (hrest : ∀ i ∈ rest, i.ipDataV = false)
    (h2 : Clear q ∨ 1 ≤ rest.length ∧ q.decBookDel.valid = false ∨ 2 ≤ rest.length) :
    Clear (itchParser.run q rest) := by
  induction rest generalizing q with
  | nil =>
    rcases h2 with h | ⟨h, -⟩ | h
    · exact h
    · cases h
    · cases h
  | cons i rest ih =>
    have hcomb := comb_idle (q := q) (hrest i List.mem_cons_self)
    have hctrl : (q.next i).decCtrl.valid = false := by
      change (q.comb i).decCtrl.valid = false
      rw [hcomb]
      rfl
    have hdel : (q.next i).decBookDel.valid = false := by
      change (q.comb i).decBookDel.valid = false
      rw [hcomb]
      rfl
    have hbook : q.decBookDel.valid = false → (q.next i).decBook.valid = false := by
      intro h
      change (if q.decBookDel.valid then q.decBookDel else (q.comb i).decBook).valid = false
      rw [h, if_neg Bool.false_ne_true, hcomb]
      rfl
    apply ih fun i' hi' => hrest i' (List.mem_cons_of_mem _ hi')
    rcases h2 with h | ⟨-, h⟩ | h
    · exact Or.inl ⟨hctrl, hbook h.del, hdel⟩
    · exact Or.inl ⟨hctrl, hbook h, hdel⟩
    · exact Or.inr (Or.inl ⟨Nat.succ_le_succ_iff.1 h, hdel⟩)

theorem Clear.pending {q : ItchRegs} (h : Clear q) : pending q = [] := by
  rw [Decode.pending, ofCtrl_of_not_valid h.ctrl, ofBook_of_not_valid h.book,
    ofBook_of_not_valid h.del]
  rfl

/-- A message that the reference parser accepts and whose length is the one in the table. -/
theorem decodeMsg_yielded (loc : BitVec 16) {msg : List Byte}
    (hret : (Ref.ITCHParser.parseMsg msg).IsRet) (htable : TableLen msg) :
    Followed msg ∧ decodeMsg loc msg = some (yielded loc msg) := by
  have hlen := length_of_isRet hret
  have hsym := hasSymbol_of_isRet hret
  obtain ⟨len, alt, st, hentry, hl⟩ := htable
  refine ⟨⟨hlen, len, alt, st, hentry, Or.inl hl⟩, ?_⟩
  have hB : chr (byteAt msg 2) ≠ 'B' := by
    intro hB
    have h17 := (isRet_typeB hlen hB).1 hret
    rw [ItchRegs.idleTable, hB] at hentry
    cases hentry
    rw [h17] at hl
    revert hl
    decide
  rw [decodeMsg_eq loc hlen hsym hB, yielded]
  obtain ⟨msgs, hmsgs⟩ := hret
  rw [hmsgs]
  rfl

/-- **The RTL decodes what the reference parser decodes**, at every alignment. -/
theorem decode_agrees {q : ItchRegs} (hidle : q.state = .idle) (hleft : q.bytesLeft = 0)
    {loc : BitVec 16} {packets : List (List (List Byte))} {cycles rest : List ItchIn}
    (hmsgs : ∀ msgs ∈ packets, ∀ m ∈ msgs, (Ref.ITCHParser.parseMsg m).IsRet ∧ TableLen m)
    (hd : Delivers loc packets (cycles.filter fun i => i.ipDataV))
    (hrest : ∀ i ∈ rest, i.ipDataV = false) (h2 : 2 ≤ rest.length) :
    (∀ o ∈ itchParser.trace q (cycles ++ rest), o.ipError = false) ∧
      (itchParser.trace q (cycles ++ rest)).flatMap emitted =
        pending q ++ packets.flatten.flatMap (yielded loc) := by
  have hgap : Gap q := fun _ => Or.inl hidle
  have hfilter : (cycles ++ rest).filter (fun i => i.ipDataV) =
      cycles.filter fun i => i.ipDataV := by
    have hnil : rest.filter (fun i => i.ipDataV) = [] :=
      List.filter_eq_nil_iff.2 fun i hi => by simp [hrest i hi]
    rw [List.filter_append, hnil, List.append_nil]
  have hgood : ∀ m ∈ packets.flatten, Followed m ∧ decodeMsg loc m = some (yielded loc m) := by
    intro m hm
    obtain ⟨msgs, hp, hm⟩ := List.mem_flatten.1 hm
    exact decodeMsg_yielded loc (hmsgs msgs hp m hm).1 (hmsgs msgs hp m hm).2
  have hsent : collect (itchFresh.trace q (cycles ++ rest)) =
      some (packets.flatten.flatMap (yielded loc)) := by
    rw [itchFresh_paced.trace_eq hgap, collect_weave (Circuit.length_trace ..), hfilter,
      packets_sent hd (fun msgs hp m hm => (hgood m (List.mem_flatten.2 ⟨msgs, hp, hm⟩)).1)
        (q := norm q) ⟨hidle, hleft, rfl⟩,
      List.map_congr_left fun m hm => (hgood m hm).2, collect_map_some]
  obtain ⟨herr, hemit⟩ := emitted_run hgap hsent
  rw [Circuit.run_append, (clear_run hrest (Or.inr (Or.inr h2))).pending, List.append_nil] at hemit
  exact ⟨herr, hemit⟩

theorem filter_itchWord (loc : BitVec 16) (bs : List Axis) :
    (bs.map (itchWord loc)).filter (fun i => i.ipDataV) = bs.map (itchWord loc) := by
  apply List.filter_eq_self.2
  intro i hi
  obtain ⟨axis, -, rfl⟩ := List.mem_map.1 hi
  rfl

/-- A market-open event and the delete of order 5, of the stock with locate 7. -/
def openAndDelete : List (List Byte) :=
  [[0, 12, 0x53, 0, 0, 0, 0, 0, 0, 0, 0, 0, 0, 0x51],
    [0, 19, 0x44, 0, 7, 0, 0, 0, 0, 0, 0, 0, 0, 0, 0, 0, 0, 0, 0, 0, 5]]

theorem decode_agrees_openAndDelete :
    let q := ItchRegs.reset ⟨0, 0, false, DecCtrl.zero, false, DecBook.zero, DecBook.zero, .ignore⟩
    let idle : ItchIn := ⟨false, 0xDEADBEEF, true, true, 7⟩
    (itchParser.trace q (idle :: (Framing.beats openAndDelete.flatten).map (itchWord 7) ++
      [idle, idle])).flatMap emitted = [.event .mktBegin, .delete false 5] := by
  intro q idle
  have hmsgs : ∀ msgs ∈ [openAndDelete], ∀ m ∈ msgs,
      (Ref.ITCHParser.parseMsg m).IsRet ∧ TableLen m := by
    intro msgs hp m hm
    rw [List.mem_singleton.1 hp, openAndDelete] at hm
    rcases List.mem_cons.1 hm with rfl | hm
    · exact ⟨⟨_, rfl⟩, _, _, _, rfl, rfl⟩
    · rw [List.mem_singleton.1 hm]
      exact ⟨⟨_, rfl⟩, _, _, _, rfl, rfl⟩
  have hd : Delivers 7 [openAndDelete] ((idle :: (Framing.beats openAndDelete.flatten).map
      (itchWord 7)).filter fun i => i.ipDataV) := by
    rw [List.filter_cons_of_neg (by decide), filter_itchWord, ← List.append_nil (List.map _ _)]
    exact Delivers.cons (Framing.carries_beats (by decide)) Delivers.nil
  exact (decode_agrees rfl rfl hmsgs hd (by decide) (by decide)).2

end ItchOrderBook.Decode
