import ItchOrderBook.System.Refinement

/-!
# How soon a message is on its way

The words of a packet that hold its first messages are enough for the ITCH parser to send these, whatever
the other words are (`packet_begun`). So once the cycles of a stream have had these words, their messages
have been sent (`stream_begun`). What is then on its way, or due, is masked within four cycles (`flush`):
an order of the other half of a replace may be held for one of them, a delete needs one more in the parser
but is never held.
-/

namespace ItchOrderBook.System

open Decode (AtStart Decoded Followed Rested Spaced collect_map_some decodeMsg decodeMsg_iff emitted
  followed_of_valid itchCore itchWord lengthsOk_of_framed next_decBook ofBook ofCtrl packet_sent pending
  words)
open Gating (Answered Fine Quiescent Stages Stream due gates hasResult knownWord presented sent shown)
open Framing (Carries HeaderOk Synced Tracks moldCore moldudp64Parser_paced)
open Ref (Byte MoldUDP64Parser Top TopResult)
open Rtl (Axis DecBook ItchIn ItchRegs MoldRegs TopIn TopRegs moldudp64Parser top)

/-! ### The first words of a packet -/

theorem length_words (S : List Byte) (loc : BitVec 16) (n c : ℕ) : (words S loc n c).length = c := by
  induction c generalizing n with
  | zero => rfl
  | succ c ih => rw [words, List.length_cons, ih]

/-- The words of some bytes. -/
theorem length_carries {data : List Byte} {bs : List Axis} (hc : Carries data bs) :
    bs.length = (data.length + 3) / 4 := by
  obtain ⟨pad, hpad, htotal, -⟩ := Decode.words_of_carries 0 hc
  omega

/-- **The first words of a packet.** Those that hold the first messages send what these decode to. -/
theorem packet_begun (loc : BitVec 16) {done rest : List (List Byte)} (hmsgs : ∀ m ∈ done, Followed m)
    {bs : List Axis} (hc : Carries (done ++ rest).flatten bs) {q : ItchRegs} (h : Rested q) :
    ∃ c, 4 * c < done.flatten.length + 4 ∧
      collect (itchCore.trace q ((bs.map (itchWord loc)).take c)) = collect (done.map (decodeMsg loc)) := by
  obtain ⟨front, hfront, hline⟩ := Decode.exists_front q
  obtain ⟨pad, hpad, htotal, hwords⟩ := Decode.words_of_carries loc hc
  obtain ⟨S, hS⟩ : ∃ S, S = front ++ (done.flatten ++ (rest.flatten ++ pad)) := ⟨_, rfl⟩
  have hS' : front ++ ((done ++ rest).flatten ++ pad) = S := by
    rw [hS, List.flatten_append, List.append_assoc]
  have hlen : S.length = 44 + 4 * bs.length := by
    rw [← hS', List.length_append, List.length_append, hfront, htotal]
  have hstart := h.atStart hfront hline (List.append_ne_nil_of_left_ne_nil hc.ne_nil pad)
  rw [hS', ← hfront] at hstart
  obtain ⟨n', q', ⟨c, hn, -, htrace⟩, h'⟩ :=
    Decode.messages_run (by omega) loc hmsgs hS hstart
  have hlt := h'.lt
  have hle : done.flatten.length ≤ (done ++ rest).flatten.length := by
    rw [List.flatten_append, List.length_append]
    exact Nat.le_add_right _ _
  refine ⟨c, by omega, ?_⟩
  obtain ⟨c', hc'⟩ := Nat.exists_eq_add_of_le (show c ≤ bs.length by omega)
  rw [hwords front, hS', hc', Decode.words_append, List.take_left' (length_words ..)]
  exact htrace

/-! ### The first words of a stream -/

/-- The words on the bus. -/
def busy (cycles : List Axis) : ℕ := (cycles.filter fun axis => axis.tvalid).length

/-- The words of a packet with these messages. -/
def wordsOf (msgs : List (List Byte)) : ℕ := 5 + (msgs.flatten.length + 3) / 4

theorem busy_append (cycles cycles' : List Axis) : busy (cycles ++ cycles') = busy cycles + busy cycles' := by
  rw [busy, List.filter_append, List.length_append]
  rfl

/-- A cycle presents at most the word that it has. -/
theorem length_presented_le (m : MoldRegs) (cycles : List Axis) :
    (presented m cycles).length ≤ busy cycles := by
  rw [presented, moldudp64Parser_paced.trace_eq trivial, filterMap_weave rfl (Circuit.length_trace ..)]
  exact (List.length_filterMap_le _ _).trans (Circuit.length_trace ..).le

theorem presented_append (m : MoldRegs) (cycles cycles' : List Axis) :
    presented m (cycles ++ cycles') =
      presented m cycles ++ presented (moldudp64Parser.run m cycles) cycles' := by
  rw [presented, Circuit.trace_append, List.filterMap_append]
  rfl

/-- What the messages decode to. -/
theorem collect_valid (loc : BitVec 16) {msgs : List (List Byte)} (h : ∀ m ∈ msgs, Decode.ValidMsg 19 m) :
    collect (msgs.map (decodeMsg loc)) = some (sent loc [msgs]) := by
  have hsome : ∀ m ∈ msgs, decodeMsg loc m = some ((decodeMsg loc m).getD []) := by
    intro m hm
    obtain ⟨out, hout⟩ := Option.ne_none_iff_exists'.1 (decodeMsg_iff.2 (h m hm))
    rw [hout]
    rfl
  rw [List.map_congr_left hsome, collect_map_some, sent, List.flatten_singleton]

/-- One packet of a stream: the words it presents, and what follows. -/
structure Presents (s : MoldUDP64Parser) (m : MoldRegs) (pkt : List Byte) (msgs : List (List Byte))
    (cycles : List Axis) : Prop where
  carries : msgs ≠ [] → Carries msgs.flatten ((cycles.filter fun axis => axis.tvalid).drop 5)
  shows : presented m cycles =
    ((cycles.filter fun axis => axis.tvalid).drop 5).map fun axis => (axis.tdata, axis.tlast)
  count : busy cycles = wordsOf msgs
  synced : Synced (moldudp64Parser.run m cycles)
  tracks : Tracks (s.processPkt pkt).2 (moldudp64Parser.run m cycles)

theorem presents_packet {s : MoldUDP64Parser} {m : MoldRegs} {pkt : List Byte} {msgs : List (List Byte)}
    {cycles : List Axis} (hm : Synced m) (ht : Tracks s m) (hlen : 20 ≤ pkt.length) (hok : HeaderOk s pkt)
    (hfr : Framing.Framed (Framing.countOf pkt) (pkt.drop 20) msgs)
    (hmsgs : ∀ m ∈ msgs, Decode.ValidMsg 19 m)
    (hc : Carries pkt (cycles.filter fun axis => axis.tvalid)) : Presents s m pkt msgs cycles := by
  have hcore : Synced (Framing.core m) := ⟨hm.idle, hm.compare⟩
  have hsess := Framing.session_ok ht hok
  have hseq := Framing.seq_ok ht hok
  have hquiet : Framing.Quiet (moldudp64Parser.trace m cycles) := by
    rw [Framing.quiet_trace_iff]
    exact (Framing.packet_run hcore hsess hseq hlen (lengthsOk_of_framed hfr fun x hx =>
      followed_of_valid (hfr.isMsg x hx) (Or.inr rfl) (hmsgs x hx)) hc).2 ⟨msgs, hfr⟩
  obtain ⟨-, -, hm', ht'⟩ := Framing.tracks_of_quiet hm ht hlen hok hc hquiet
  have hsplit := (Framing.packet_split hcore hsess hseq hlen hc).1
  refine ⟨fun hne => ?_, Framing.words_of_quiet hm ht hlen hok hc hquiet, ?_, hm', ht'⟩
  · have hdrop : pkt.drop 20 ≠ [] := by
      rw [← hfr.flatten]
      obtain ⟨x, hx⟩ := List.exists_mem_of_ne_nil msgs hne
      have h2 := (hfr.isMsg x hx).1
      intro hnil
      rw [List.flatten_eq_nil_iff.1 hnil x hx] at h2
      cases h2
    rw [if_neg hdrop, ← hfr.flatten] at hsplit
    exact hsplit
  · rw [busy, length_carries hc, wordsOf, hfr.flatten, List.length_drop]
    omega

section Begun

variable {s : MoldUDP64Parser} {m : MoldRegs} {pkt : List Byte} {msgs done rest : List (List Byte)}
  {cycles c : List Axis} {q : ItchRegs}

theorem Presents.heard (h : Presents s m pkt msgs cycles) (loc : BitVec 16) :
    (presented m cycles).map (knownWord loc) =
      ((cycles.filter fun axis => axis.tvalid).drop 5).map (itchWord loc) := by
  rw [h.shows, List.map_map]
  rfl

/-- The whole packet. -/
theorem Presents.decoded (h : Presents s m pkt msgs cycles) (loc : BitVec 16)
    (hmsgs : ∀ x ∈ msgs, Decode.ValidMsg 19 x) (hfollowed : ∀ x ∈ msgs, Followed x) (hq : Rested q) :
    collect (itchCore.trace q ((presented m cycles).map (knownWord loc))) = some (sent loc [msgs]) ∧
      Rested (itchCore.run q ((presented m cycles).map (knownWord loc))) := by
  rw [h.heard]
  rcases eq_or_ne msgs [] with rfl | hne
  · have hnil : (cycles.filter fun axis => axis.tvalid).drop 5 = [] :=
      List.drop_eq_nil_iff.2 (le_of_eq h.count)
    rw [hnil]
    exact ⟨rfl, hq⟩
  · rw [← collect_valid loc hmsgs]
    exact packet_sent loc hfollowed (h.carries hne) hq

/-- The first words of the packet. -/
theorem Presents.begun (h : Presents s m pkt (done ++ rest) cycles) (loc : BitVec 16)
    (hmsgs : ∀ x ∈ done, Decode.ValidMsg 19 x) (hfollowed : ∀ x ∈ done, Followed x) (hq : Rested q)
    (hcut : c <+: cycles) (hcount : 20 + done.flatten.length ≤ 4 * busy c) :
    ∃ w, w <+: presented m c ∧
      collect (itchCore.trace q (w.map (knownWord loc))) = some (sent loc [done]) := by
  rcases eq_or_ne (done ++ rest) [] with hnil | hne
  · obtain ⟨rfl, rfl⟩ := List.append_eq_nil_iff.1 hnil
    exact ⟨[], List.nil_prefix, rfl⟩
  · obtain ⟨k, hk, hsent⟩ := packet_begun loc hfollowed (h.carries hne) hq
    refine ⟨(presented m cycles).take k, ?_, ?_⟩
    · -- the other cycles of the packet present no more than their words
      obtain ⟨c', rfl⟩ := hcut
      have hle := length_presented_le (moldudp64Parser.run m c) c'
      have hlen := congrArg List.length h.shows
      rw [List.length_map, List.length_drop, ← busy, busy_append, presented_append, List.length_append] at hlen
      rw [presented_append, List.take_append_of_le_length (by omega)]
      exact List.take_prefix _ _
    · rw [List.map_take, h.heard, ← collect_valid loc hmsgs]
      exact hsent

end Begun

/-- **The first words of a stream.** Once the cycles `c` have had the words of the packets before, and
those that hold the first messages of the next packet, all these messages have been sent. -/
theorem stream_begun (loc : BitVec 16) {s : MoldUDP64Parser} {packets : List (List (List Byte))}
    {all : List Axis} (h : Stream s packets all) {before after : List (List (List Byte))}
    {done rest : List (List Byte)} (hp : packets = before ++ (done ++ rest) :: after) {m : MoldRegs}
    (hm : Synced m) (ht : Tracks s m) {q : ItchRegs} (hq : Rested q) {c : List Axis} (hcut : c <+: all)
    (hcount : 4 * (before.map wordsOf).sum + 20 + done.flatten.length ≤ 4 * busy c) :
    ∃ w, w <+: presented m c ∧
      collect (itchCore.trace q (w.map (knownWord loc))) = some (sent loc (before ++ [done])) := by
  induction h generalizing before m q c with
  | idle => exact absurd hp.symm (List.append_ne_nil_of_right_ne_nil _ (List.cons_ne_nil _ _))
  | @packet s pkt msgs packets cycles cycles' hlen hok hfr hmsgs hc h ih =>
    have hpres := presents_packet hm ht hlen hok hfr hmsgs hc
    have hfollowed : ∀ x ∈ msgs, Followed x := fun x hx =>
      followed_of_valid (hfr.isMsg x hx) (Or.inr rfl) (hmsgs x hx)
    have hsplit := List.prefix_or_prefix_of_prefix hcut (List.prefix_append cycles cycles')
    cases before with
    | nil =>
      obtain ⟨rfl, rfl⟩ := List.cons.inj hp
      have hdone : ∀ x ∈ done, Decode.ValidMsg 19 x := fun x hx => hmsgs x (List.mem_append_left _ hx)
      have hdone' : ∀ x ∈ done, Followed x := fun x hx => hfollowed x (List.mem_append_left _ hx)
      rw [List.map_nil, List.sum_nil] at hcount
      rcases hsplit with hle | ⟨c', rfl⟩
      · exact hpres.begun loc hdone hdone' hq hle (by omega)
      · obtain ⟨w, hw, hsent⟩ := hpres.begun loc hdone hdone' hq (List.prefix_refl cycles) (by
          rw [hpres.count, wordsOf, List.flatten_append, List.length_append]
          omega)
        exact ⟨w, hw.trans (by rw [presented_append]; exact List.prefix_append _ _), hsent⟩
    | cons b before =>
      obtain ⟨rfl, hrest⟩ := List.cons.inj hp
      rw [List.map_cons, List.sum_cons] at hcount
      have hbusy := hpres.count
      rcases hsplit with ⟨c', rfl⟩ | ⟨c', rfl⟩
      · -- there are more words than those of this packet
        rw [busy_append] at hbusy
        omega
      · rw [busy_append] at hcount
        rw [List.prefix_append_right_inj] at hcut
        obtain ⟨hsent, hrested⟩ := hpres.decoded loc hmsgs hfollowed hq
        obtain ⟨w, hw, hsent'⟩ := ih hrest hpres.synced hpres.tracks hrested hcut (by omega)
        refine ⟨presented m cycles ++ w, ?_, ?_⟩
        · rw [presented_append, List.prefix_append_right_inj]
          exact hw
        · rw [List.map_append, Circuit.trace_append, collect_append, hsent, hsent']
          rw [List.cons_append, sent_cons loc _ (before ++ [done])]
          rfl

/-! ### What is on its way -/

/-- The number of results. -/
def resultCount (ds : List Decoded) : ℕ := ds.countP hasResult

theorem resultCount_append (ds ds' : List Decoded) :
    resultCount (ds ++ ds') = resultCount ds + resultCount ds' :=
  List.countP_append ..

/-- Every result has a gate. -/
theorem length_gates (q : Rtl.ControlRegs) (ds : List Decoded) : (gates q ds).length = resultCount ds := by
  induction ds generalizing q with
  | nil => rfl
  | cons d ds ih =>
    rw [gates, List.length_append, ih, resultCount, resultCount, List.countP_cons]
    cases hasResult d with
    | true => exact Nat.add_comm 1 _
    | false => exact Nat.zero_add _

theorem resultCount_ofBook (d : DecBook) : resultCount (ofBook d) = (Answered d).toNat := by
  rw [ofBook, Answered]
  cases hv : d.valid with
  | false => rfl
  | true =>
    rw [if_pos rfl, resultCount, List.countP_singleton, Gating.hasResult_bookMsg, Bool.true_and]
    cases d.hasRep <;> rfl

theorem resultCount_ofCtrl (d : Rtl.DecCtrl) : resultCount (ofCtrl d) = 0 := by
  unfold ofCtrl
  split_ifs
  · rw [resultCount, List.countP_singleton, Gating.hasResult_ctrlMsg, if_neg Bool.false_ne_true]
  · rfl

theorem resultCount_emitted (q : TopRegs) :
    resultCount (emitted q.itchOut) = (Answered q.itch.decBook).toNat := by
  have hout : emitted q.itchOut = ofCtrl q.itch.decCtrl ++ ofBook q.itch.decBook := rfl
  rw [hout, resultCount_append, resultCount_ofCtrl, resultCount_ofBook, Nat.zero_add]

theorem resultCount_pending (q : ItchRegs) :
    resultCount (pending q) = (Answered q.decBook).toNat + (Answered q.decBookDel).toNat := by
  rw [pending, resultCount_append, resultCount_append, resultCount_ofCtrl, resultCount_ofBook,
    resultCount_ofBook, Nat.zero_add]

section Flush

variable {q : TopRegs}

/-- **Where a result that is due comes from.** Its order has been shown in the last two cycles, or, unless
it is a delete, in the one before. -/
theorem due_recent {i i' i'' : TopIn} (hf : Fine ((q.next i).next i'))
    (hdue : due (((q.next i).next i').next i'') ≠ []) :
    Answered ((q.next i).next i').itch.decBook = true ∨ Answered (q.next i).itch.decBook = true ∨
      Answered q.itch.decBook = true ∧ q.itch.decBook.msgType ≠ .delete := by
  have hlook : ∀ (q : TopRegs) (i : TopIn), Answered (q.next i).book.lookup = Answered q.itch.decBook :=
    fun q i => Gating.answered_lookup_next q.book (q.bookIn i)
  rw [due] at hdue
  split_ifs at hdue with hany
  · rw [Bool.or_eq_true, Bool.or_eq_true] at hany
    rcases hany with (hres | hheld) | hlooked
    · -- the result is there: its order went to the best bid and offer one cycle before
      have hbbo : Answered ((q.next i).next i').book.bboDecBook = true := hres
      have hv : ((q.next i).next i').book.bboDecBook.valid = true := (Bool.and_eq_true_iff.1 hbbo).1
      obtain ⟨hing, hheld | ⟨hheld, -⟩⟩ := Gating.valid_of_bbo hv
      · have heq : ((q.next i).next i').book.bboDecBook = ((q.next i).next i').book.decBookUpdt := by
          rw [Rtl.BookRegs.bboDecBook, Rtl.BookRegs.release, hheld, hing]
          rfl
        have hlast : ((q.next i).next i').book.decBookUpdt = (q.next i).book.lookup :=
          (Gating.held_next_valid hheld).2.2
        have htype : (q.next i).book.lookup.msgType = q.itch.decBook.msgType :=
          (Gating.lookup_next q.book (q.bookIn i)).2.1
        rw [heq, hlast, hlook] at hbbo
        refine Or.inr (Or.inr ⟨hbbo, ?_⟩)
        rw [← htype, ← hlast]
        exact hf.replace hheld hing
      · have heq : ((q.next i).next i').book.bboDecBook = ((q.next i).next i').book.lookup := by
          rw [Rtl.BookRegs.bboDecBook, Rtl.BookRegs.release, hheld, hing]
          rfl
        rw [heq, hlook] at hbbo
        exact Or.inr (Or.inl hbbo)
    · -- it is held: it was looked up one cycle before
      have hv : (((q.next i).next i').next i'').book.decBookUpdt.valid = true :=
        (Bool.and_eq_true_iff.1 hheld).1
      have hlast : (((q.next i).next i').next i'').book.decBookUpdt = ((q.next i).next i').book.lookup :=
        (Gating.held_next_valid hv).2.2
      rw [hlast, hlook] at hheld
      exact Or.inr (Or.inl hheld)
    · rw [hlook] at hlooked
      exact Or.inl hlooked
  · exact absurd rfl hdue

/-- A delete in its extra stage is shown next. -/
theorem decBook_next_of_del (i : TopIn) (h : q.itch.decBookDel.valid = true) :
    (q.next i).itch.decBook = q.itch.decBookDel := by
  have hnext : (q.next i).itch = q.itch.next q.itchIn := rfl
  rw [hnext, next_decBook, if_pos h]

/-- **Four cycles mask what is on its way.** In four cycles without an error, there are as many results
shown as were on their way, and as are still due then. -/
theorem flush (i₁ i₂ i₃ i₄ : TopIn) (hs : Spaced q.itch) (hf : Fine (((q.next i₁).next i₂).next i₃)) :
    resultCount (pending q.itch) + (due (top.run q [i₁, i₂, i₃, i₄])).length ≤
      resultCount (shown q [i₁, i₂, i₃, i₄]) := by
  have hshown : shown q [i₁, i₂, i₃, i₄] = emitted q.itchOut ++ (emitted (q.next i₁).itchOut ++
      (emitted ((q.next i₁).next i₂).itchOut ++ (emitted (((q.next i₁).next i₂).next i₃).itchOut ++ []))) :=
    rfl
  have hrun : top.run q [i₁, i₂, i₃, i₄] = (((q.next i₁).next i₂).next i₃).next i₄ := rfl
  rw [hshown, List.append_nil, resultCount_append, resultCount_append, resultCount_append, resultCount_emitted,
    resultCount_emitted, resultCount_emitted, resultCount_emitted, resultCount_pending, hrun]
  have hdel : (Answered q.itch.decBookDel).toNat ≤ (Answered (q.next i₁).itch.decBook).toNat := by
    cases hv : q.itch.decBookDel.valid with
    | false => rw [Gating.not_answered hv]; exact Nat.zero_le _
    | true => rw [decBook_next_of_del i₁ hv]
  have hone : (due ((((q.next i₁).next i₂).next i₃).next i₄)).length ≤ 1 := by
    rw [due]
    split_ifs
    · exact le_rfl
    · exact Nat.zero_le 1
  by_cases hdue : due ((((q.next i₁).next i₂).next i₃).next i₄) = []
  · rw [hdue, List.length_nil]
    omega
  · rcases due_recent hf hdue with h | h | ⟨h, htype⟩
    · rw [h, Bool.toNat_true]
      omega
    · rw [h, Bool.toNat_true]
      omega
    · -- an order that was held is no delete, so it does not come out of the extra stage
      have hnone : q.itch.decBookDel.valid = false := by
        by_contra hne
        have hv : q.itch.decBookDel.valid = true := Bool.eq_true_of_not_eq_false hne
        rw [decBook_next_of_del i₁ hv] at htype
        exact htype (hs.del hv).2.1
      rw [Gating.not_answered hnone, h, Bool.toNat_true, Bool.toNat_false]
      omega

end Flush

/-! ### The device -/

section Device

variable {q : TopRegs} {u : ℕ → TopIn} {t₀ m₀ m : ℕ} {s : Top {}} {loc : BitVec 16}
  {packets before after : List (List (List Byte))} {done rest : List (List Byte)} {rs : List TopResult}

/-- **One cycle behind the first words**, their messages are shown or on their way. -/
theorem Feed.begun (h : Feed q u t₀ m₀ s loc packets rs)
    (hstream : Stream .new (before ++ (done ++ rest) :: after)
      ((cyclesFrom u t₀ (m₀ + m)).map TopIn.axis))
    (hcount : 4 * (before.map wordsOf).sum + 20 + done.flatten.length ≤
      4 * busy ((cyclesFrom u t₀ m).map TopIn.axis)) :
    sent loc (before ++ [done]) <+: Gating.shown (top.state q u t₀) (cyclesFrom u t₀ (m + 1)) ++
      pending (top.state q u (t₀ + (m + 1))).itch := by
  have hq := h.quiescent
  have hheard := heard_admitted hq (h.stream m) h.admits (u (t₀ + (m₀ + m)))
  have hcut : cyclesFrom u t₀ (m₀ + m) ++ [u (t₀ + (m₀ + m))] =
      cyclesFrom u t₀ (m + 1) ++ cyclesFrom u (t₀ + (m + 1)) m₀ := by
    rw [← cyclesFrom_succ, ← cyclesFrom_add, Nat.add_right_comm, Nat.add_comm m]
    congr 1
    omega
  have hinit : ∀ i ∈ cyclesFrom u t₀ (m₀ + m) ++ [u (t₀ + (m₀ + m))], i.initV = false := by
    rw [← cyclesFrom_succ]
    exact h.initV_from _
  have hstep := located_run hq hinit h.locates hheard hcut
  -- what the parser sends in these cycles
  obtain ⟨ds, hds, -⟩ := hheard loc
  rw [hcut] at hds
  have hle : known loc (top.state q u t₀) (cyclesFrom u t₀ (m + 1)) <+:
      known loc (top.state q u t₀) (cyclesFrom u t₀ (m + 1) ++ cyclesFrom u (t₀ + (m + 1)) m₀) := by
    rw [known_append]
    exact List.prefix_append _ _
  obtain ⟨later, hlater⟩ := hle
  have hsent := hds.sent
  rw [← hlater, Circuit.trace_append] at hsent
  obtain ⟨part, hpart, -⟩ := Gating.collect_first (List.prefix_append _ _) hsent
  have hshown := hstep.sent (fun _ => Or.inl hq.settled.state) (pending_of_quiescent hq) (fun _ => rfl)
    hpart
  rw [run_cyclesFrom] at hshown
  rw [← hshown]
  -- what it sends of the first words
  rw [cyclesFrom_succ, collect_known hq] at hpart
  have hfirst : (cyclesFrom u t₀ m).map TopIn.axis <+: (cyclesFrom u t₀ (m₀ + m)).map TopIn.axis := by
    rw [Nat.add_comm, cyclesFrom_add, List.map_append]
    exact List.prefix_append _ _
  obtain ⟨w, ⟨w', hw⟩, hbegun⟩ :=
    stream_begun loc hstream rfl hq.synced hq.tracks hq.settled.rested hfirst hcount
  rw [← hw, List.map_append, Circuit.trace_append] at hpart
  obtain ⟨part', hpart', hle⟩ := Gating.collect_first (List.prefix_append _ _) hpart
  rw [hbegun] at hpart'
  rwa [← Option.some.inj hpart'] at hle

/-- The stages of the book keep apart. -/
theorem Feed.stages (h : Feed q u t₀ m₀ s loc packets rs)
    (hquiet : ∀ t, (top.out (top.state q u t) (u t)).error = false) (k : ℕ) :
    Stages (top.state q u (t₀ + k)) := by
  induction k with
  | zero => exact h.quiescent.stages
  | succ k ih => exact ih.next (Gating.fine_of_error (hquiet (t₀ + k)))

/-- **Six cycles behind the first words**, there are as many results as their messages have. -/
theorem Feed.soon (h : Feed q u t₀ m₀ s loc packets rs)
    (hquiet : ∀ t, (top.out (top.state q u t) (u t)).error = false)
    (hstream : Stream .new (before ++ (done ++ rest) :: after)
      ((cyclesFrom u t₀ (m₀ + m)).map TopIn.axis))
    (hcount : 4 * (before.map wordsOf).sum + 20 + done.flatten.length ≤
      4 * busy ((cyclesFrom u t₀ m).map TopIn.axis)) :
    resultCount (sent loc (before ++ [done])) ≤ (monitoredFrom q u t₀ (m + 6)).length := by
  have hbegun : resultCount (sent loc (before ++ [done])) ≤ resultCount (Gating.shown (top.state q u t₀)
      (cyclesFrom u t₀ (m + 1)) ++ pending (top.state q u (t₀ + (m + 1))).itch) :=
    (h.begun hstream hcount).sublist.countP_le
  rw [resultCount_append] at hbegun
  -- the last four cycles
  have hlast : cyclesFrom u (t₀ + (m + 1)) 4 = [u (t₀ + (m + 1)), u (t₀ + (m + 1) + 1),
      u (t₀ + (m + 1) + 2), u (t₀ + (m + 1) + 3)] := rfl
  have hflush := flush (u (t₀ + (m + 1))) (u (t₀ + (m + 1) + 1)) (u (t₀ + (m + 1) + 2))
    (u (t₀ + (m + 1) + 3)) (h.stages hquiet (m + 1)).spaced
    (Gating.fine_of_error (hquiet (t₀ + (m + 1) + 3)))
  rw [← hlast] at hflush
  -- every result has its mask
  have herr : Gating.ErrorFree (top.state q u t₀) (cyclesFrom u t₀ (m + 1 + 4)) := by
    intro o ho
    rw [cyclesFrom, Circuit.trace_range] at ho
    obtain ⟨j, -, rfl⟩ := List.mem_map.1 ho
    rw [← Circuit.state_add]
    exact hquiet _
  have hrun := congrArg List.length (Gating.masks_run h.quiescent.stages herr (h.initV_from _))
  rw [h.quiescent.due, List.nil_append, length_gates, List.length_append, cyclesFrom_add, shown_append,
    resultCount_append, Circuit.run_append, run_cyclesFrom, ← cyclesFrom_add] at hrun
  -- and is published one cycle later
  obtain ⟨hmasked, hmasks⟩ := Gating.published_eq (top.state q u t₀) (cyclesFrom u t₀ (m + 1 + 4))
    (u (t₀ + (m + 1 + 4)))
  rw [h.quiescent.published, if_neg Bool.false_ne_true, List.nil_append, ← cyclesFrom_succ] at hmasked
  have hlen : (monitoredFrom q u t₀ (m + 1 + 4 + 1)).length =
      (Gating.masks (top.state q u t₀) (cyclesFrom u t₀ (m + 1 + 4))).length := by
    rw [monitoredFrom_eq, List.length_map, hmasked, List.length_zipWith, hmasks, Nat.min_self]
  change _ ≤ (monitoredFrom q u t₀ (m + 1 + 4 + 1)).length
  omega

end Device

/-! ### The reference -/

/-- The words of a packet. -/
def wordCount (pkt : List Byte) : ℕ := (pkt.length + 3) / 4

theorem Unpacks.words {s : Top {}} {pkt : List Byte} {msgs : List (List Byte)} (h : Unpacks s pkt msgs) :
    wordsOf msgs = wordCount pkt := by
  have hlen := h.length
  rw [wordsOf, wordCount, h.framed.flatten, List.length_drop]
  omega

section Reference

variable {mkt : Rtl.Market} {sym : String} {loc : BitVec 16} {q : Rtl.ControlRegs} {s : Top {}}

/-- The results that the book serves, and those that its messages have. -/
theorem Served.length {loc' : BitVec 16} {ds : List Decoded} {out : List TopResult} {s' : Top {}}
    (h : Served mkt sym loc loc' q s ds out s') (hloc : loc' = loc) : out.length = resultCount ds := by
  obtain ⟨rs, -, -, hlen, rfl⟩ := h.serves hloc
  rw [List.length_zipWith, hlen, Nat.min_self, length_gates]

/-- **The packets before and the first messages of the next one**, in the modules and in the
reference. -/
theorem Follows.begun (h : Follows mkt sym loc q s) (hsym : sym.toByteArray.size = 8)
    {before after : List (List Byte)} {pkt : List Byte} {cycles : List Axis}
    (hsent : Sent (before ++ pkt :: after) cycles) (hB : NoTypeB (before ++ pkt :: after))
    (hclean : Session.Clean (outputs s (before ++ pkt :: after)))
    (hknown : ∀ l, ((Top.onPkts {}).run s (before ++ pkt :: after)).stockLocate = some l → l = loc.toNat)
    {done rest : List (List Byte)}
    (hfr : Framing.Framed (Framing.countOf pkt) (pkt.drop 20) (done ++ rest)) :
    ∃ packets packets', Stream s.np (packets ++ (done ++ rest) :: packets') cycles ∧
      packets.map wordsOf = before.map wordCount ∧
      (outputs s before ++ (((Top.onPkts {}).run s before).processPayload done).1).length =
        resultCount (sent loc (packets ++ [done])) ∧
      outputs s before ++ (((Top.onPkts {}).run s before).processPayload done).1 <+:
        outputs s (before ++ pkt :: after) := by
  induction before generalizing q s cycles with
  | nil =>
    rw [List.nil_append] at hsent hB hclean hknown
    obtain _ | @⟨_, _, cycles, cycles', hc, hs⟩ := hsent
    rw [outputs_cons, Session.clean_append] at hclean
    have hknown₁ : ∀ l, (s.processPkt pkt).2.stockLocate = some l → l = loc.toNat := fun l hl =>
      hknown l ((kept_locate l).packets hl after)
    obtain ⟨msgs, hunpacks, hserved⟩ := h.packet hsym (hB pkt List.mem_cons_self) hclean.1 hknown₁
    obtain rfl := Framing.framed_unique hunpacks.framed hfr
    obtain ⟨_, -, hserved₀⟩ := hserved loc
    obtain ⟨packets', hstream, -⟩ := hserved₀.follows.packets hsym hs
      (fun p hp => hB p (List.mem_cons_of_mem pkt hp)) hclean.2 hknown
    -- the first messages
    obtain ⟨happ, hrun⟩ := Session.processPayload_append s done rest
    have hpkt : Session.Clean (s.processPayload (done ++ rest)).1 := by
      have := hclean.1
      rwa [hunpacks.line] at this
    obtain ⟨hdone, -⟩ := happ.1 hpkt
    have hlocate : ∀ l, (s.processPayload done).2.stockLocate = some l → l = loc.toNat := by
      intro l hl
      refine hknown₁ l ?_
      rw [hunpacks.line, hrun hdone]
      exact (kept_locate l).payload hl rest
    obtain ⟨-, results, hout, hserved'⟩ := h.payload hsym hdone hlocate loc
    rw [← sent_packet loc (fun m hm => hunpacks.parsed m (List.mem_append_left _ hm))
      fun m hm => hunpacks.noTypeB m (List.mem_append_left _ hm)] at hserved'
    refine ⟨[], packets', hunpacks.stream hc hstream, rfl, ?_, ?_⟩
    · have hresults : outputs s [] ++ (((Top.onPkts {}).run s []).processPayload done).1 =
          results.map .result := hout
      rw [hresults, List.length_map, hserved'.length rfl, List.nil_append]
    · rw [List.nil_append, outputs_cons, hunpacks.line, hrun hdone, List.append_assoc]
      exact List.prefix_append _ _
  | cons b before ih =>
    rw [List.cons_append] at hsent hB hclean hknown
    obtain _ | @⟨_, _, cycles, cycles', hc, hs⟩ := hsent
    rw [outputs_cons, Session.clean_append] at hclean
    have hknown₁ : ∀ l, (s.processPkt b).2.stockLocate = some l → l = loc.toNat := fun l hl =>
      hknown l ((kept_locate l).packets hl _)
    obtain ⟨msgs, hunpacks, hserved⟩ := h.packet hsym (hB b List.mem_cons_self) hclean.1 hknown₁
    obtain ⟨results, hout, hserved₀⟩ := hserved loc
    obtain ⟨packets, packets', hstream, hwords, hcount, hle⟩ := ih hserved₀.follows hs
      (fun p hp => hB p (List.mem_cons_of_mem b hp)) hclean.2 hknown
    have hrun : outputs s (b :: before) ++ (((Top.onPkts {}).run s (b :: before)).processPayload done).1 =
        (s.processPkt b).1 ++ (outputs (s.processPkt b).2 before ++
          (((Top.onPkts {}).run (s.processPkt b).2 before).processPayload done).1) := by
      rw [outputs_cons, List.append_assoc]
      rfl
    refine ⟨msgs :: packets, packets', hunpacks.stream hc hstream, ?_, ?_, ?_⟩
    · rw [List.map_cons, List.map_cons, hwords, hunpacks.words]
    · rw [hrun, List.length_append, hcount, hout, List.length_map, hserved₀.length rfl,
        List.cons_append, sent_cons loc msgs (packets ++ [done]), resultCount_append]
    · rw [hrun, List.cons_append, outputs_cons, List.prefix_append_right_inj]
      exact hle

end Reference

/-- The results that the monitor reads in more cycles. -/
theorem monitoredFrom_le (q : TopRegs) (u : ℕ → TopIn) (t : ℕ) {m m' : ℕ} (h : m ≤ m') :
    monitoredFrom q u t m <+: monitoredFrom q u t m' := by
  obtain ⟨k, rfl⟩ := Nat.exists_eq_add_of_le h
  rw [monitoredFrom, monitoredFrom, List.range_add, List.filterMap_append]
  exact List.prefix_append _ _

/-- **The latency of the device is six cycles.** Take a session as in `device_refines`: a symbol of eight
bytes, a price window below `2 ^ 32`, a fill counter that has not wrapped around before the parameters
(`Booted.fresh`), and packets that the reference takes. Let `m` cycles have had the words of the packets in
front of `pkt`, and of `pkt` the header and the bytes of its first messages `done`. Six cycles later the
monitor has read all results that the reference returns for these, whatever has come on the bus behind
them. -/
theorem results_in_time {q : TopRegs} {i : TopIn} {u : ℕ → TopIn} {n t₀ m₀ base : ℕ} {sym : String}
    (hboot : Booted q i u n t₀ sym base) (hsym : sym.toByteArray.size = 8)
    (hfits : base + 50 * 2047 < 2 ^ 32) {b : Bool} {s : Top {}}
    (hinit : (Top.new {} false).initParams (Decode.market (u n).initMarket) sym base = .ok (b, s))
    {before after : List (List Byte)} {pkt : List Byte} (hfed : Fed u t₀ m₀ s (before ++ pkt :: after))
    {done rest : List (List Byte)}
    (hfr : Framing.Framed (Framing.countOf pkt) (pkt.drop 20) (done ++ rest)) {m : ℕ}
    (hwords : 4 * (before.map wordCount).sum + 20 + done.flatten.length ≤
      4 * busy ((cyclesFrom u t₀ m).map TopIn.axis)) :
    outputs s before ++ (((Top.onPkts {}).run s before).processPayload done).1 <+:
      (monitoredFrom (released q i) u t₀ (m + 6)).map .result := by
  obtain ⟨-, hbook, -, hlocate⟩ := initParams_ok hinit
  obtain ⟨loc, hloc⟩ := exists_locate hlocate (before ++ pkt :: after)
  obtain ⟨_, results, hout, hfeed⟩ := hboot.feed hsym hinit hfed hloc
  obtain ⟨packets, packets', hstream, hcounts, hlen, hle⟩ :=
    (hboot.follows hinit loc).begun hsym hfed.sent hfed.noTypeB hfed.taken hloc hfr
  rw [(Session.parsers_of_init hinit).2] at hstream
  rw [← hcounts] at hwords
  have hsoon := hfeed.soon (hboot.quiet hfits hbook hfeed) (hfed.stream hstream m) hwords
  -- both are first results of the session
  have hall := hboot.monitored hfits hbook hfeed (m := m₀ + 7 + m) (Nat.le_add_right _ _)
  have hfirst : monitoredFrom (released q i) u t₀ (m + 6) <+: results := by
    rw [← hall]
    exact monitoredFrom_le _ _ _ (by omega)
  rw [hout] at hle
  refine List.prefix_of_prefix_length_le hle (hfirst.map _) ?_
  rw [hlen, List.length_map]
  exact hsoon

/-- After the words of the first packet and of the first order in the second, in 55 cycles, the results of
the bid and of the offer are read, whatever comes behind them. -/
theorem results_in_time_example : exampleResults.take 2 <+:
    (monitoredFrom (released Gating.exampleRegs (Gating.topCycle Gating.idleBeat))
      (exampleInputs examplePkts 2050) 2050 (55 + 6)).map Ref.TopOut.result := by
  have hfr : Framing.Framed (Framing.countOf (Session.examplePkt 6 2 tradeMsgs))
      ((Session.examplePkt 6 2 tradeMsgs).drop 20) ([offerMsg] ++ tradeMsgs.tail) :=
    framed_examplePkt (by decide) fun m hm =>
      isMsg_example m (List.mem_append_left _ (List.mem_append_right _ hm))
  have hwords : 4 * ([Session.examplePkt 1 5 exampleMsgs].map wordCount).sum + 20 +
      [offerMsg].flatten.length ≤
        4 * busy ((cyclesFrom (exampleInputs examplePkts 2050) 2050 55).map TopIn.axis) := by
    rw [cyclesFrom_exampleInputs _ _ (by decide +kernel)]
    decide +kernel
  have hfed : Fed (exampleInputs examplePkts 2050) 2050 (spacedBeats examplePkts).length
      Session.exampleTop ([Session.examplePkt 1 5 exampleMsgs] ++ Session.examplePkt 6 2 tradeMsgs ::
        [Session.examplePkt 8 0 [], Session.examplePkt 8 2 changeMsgs]) := fed_example 2050
  have hresults : outputs Session.exampleTop [Session.examplePkt 1 5 exampleMsgs] ++
      (((Top.onPkts {}).run Session.exampleTop [Session.examplePkt 1 5 exampleMsgs]).processPayload
        [offerMsg]).1 = exampleResults.take 2 := by
    decide +kernel
  rw [← hresults]
  exact results_in_time (booted_example examplePkts rfl) (by decide +kernel) (by decide)
    Session.exampleTop_init hfed hfr hwords

end ItchOrderBook.System
