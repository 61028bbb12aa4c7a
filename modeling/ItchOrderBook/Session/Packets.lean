import ItchOrderBook.Session.Locates

/-!
# Packets do not matter

However a list of messages is cut into packets of one session, and whatever idle cycles the bus has
between the words, the pipeline does with the packets what it does with the messages alone
(`stream_run`). So two cuts of one list are both processed without an error or neither is, and in
the first case with the same results and the same state of control module and book
(`cuts_agree`).
-/

namespace ItchOrderBook.Session

open Ref
open Framing (sessionOf seqOf countOf IsMsg HeaderOk)

variable {cfg : Params}

/-! ### The loop over messages -/

/-- There is no error result and no exception among the outputs. -/
def Clean (outs : List TopOut) : Prop := ∀ out ∈ outs, ∃ r, out = .result r

theorem clean_append {a b : List TopOut} : Clean (a ++ b) ↔ Clean a ∧ Clean b := by
  unfold Clean
  rw [List.forall_mem_append]

/-- What ends the loops is no result. -/
theorem toBook_ne (s : Top cfg) (m : ITCHMsg) (r : TopResult) :
    (s.toBook m).1 ≠ .error (.result r) := by
  intro h
  unfold Top.toBook at h
  split at h
  · split at h
    · cases h
    · split_ifs at h
      split at h <;> cases h
  · cases h

theorem processMsg_ne (s : Top cfg) (m : ITCHMsg) (r : TopResult) :
    (s.processMsg m).1 ≠ .error (.result r) := by
  intro h
  unfold Top.processMsg at h
  split at h
  · cases h
  · cases h
  · unfold Top.takeLocate at h
    split at h
    · exact toBook_ne _ m r h
    · split_ifs at h
      · cases h
      · exact toBook_ne _ m r h

theorem processResults_ne (s : Top cfg) (ms : List ITCHMsg) (last : Option BookResult)
    (r : TopResult) : (s.processResults ms last).1 ≠ .error (.result r) := by
  induction ms generalizing s last with
  | nil => exact fun h => nomatch h
  | cons m ms ih =>
    rw [Top.processResults]
    have hm := processMsg_ne s m r
    rcases hp : s.processMsg m with ⟨out | res, s'⟩
    · rw [hp] at hm
      exact hm
    · exact ih s' _

theorem processUnparsed_ne (s : Top cfg) (m : List Byte) (r : TopResult) :
    (s.processUnparsed m).1 ≠ .error (.result r) := by
  unfold Top.processUnparsed
  split
  · exact fun h => nomatch h
  · exact fun h => nomatch h
  · rename_i msgs _
    have hms := processResults_ne s msgs none r
    rcases hp : s.processResults msgs none with ⟨out | res, s'⟩
    · intro h
      rw [hp] at hms
      exact hms (congrArg Except.error (Except.error.inj h))
    · exact fun h => nomatch h

theorem not_clean_error {s s' : Top cfg} {m : List Byte} {out : TopOut}
    (h : s.processUnparsed m = (.error out, s')) : ¬ Clean [out] := by
  intro hclean
  obtain ⟨r, rfl⟩ := hclean out (List.mem_singleton_self _)
  exact processUnparsed_ne s m r (by rw [h])

/-- The loop over two lists, one after the other. -/
theorem processPayload_append (s : Top cfg) (a b : List (List Byte)) :
    (Clean (s.processPayload (a ++ b)).1 ↔ Clean (s.processPayload a).1 ∧
      Clean ((s.processPayload a).2.processPayload b).1) ∧
    (Clean (s.processPayload a).1 → s.processPayload (a ++ b) =
      ((s.processPayload a).1 ++ ((s.processPayload a).2.processPayload b).1,
        ((s.processPayload a).2.processPayload b).2)) := by
  induction a generalizing s with
  | nil => exact ⟨⟨fun h => ⟨fun _ hout => (nomatch hout), h⟩, fun h => h.2⟩, fun _ => rfl⟩
  | cons m a ih =>
    rw [List.cons_append, Top.processPayload, Top.processPayload]
    rcases hp : s.processUnparsed m with ⟨out | res, s'⟩
    · have hno := not_clean_error hp
      exact ⟨iff_of_false hno fun h => hno h.1, fun h => absurd h hno⟩
    · obtain ⟨h1, h2⟩ := ih s'
      dsimp only
      rw [clean_append, clean_append, h1, and_assoc]
      refine ⟨Iff.rfl, fun h => ?_⟩
      rw [h2 h.2, List.append_assoc]

/-- The pipeline with other framing registers. -/
def onLine (s : Top cfg) (axis : List Byte) (np : MoldUDP64Parser) : Top cfg := { s with axis, np }

section OnLine

variable (s : Top cfg) (axis : List Byte) (np : MoldUDP64Parser)

theorem processMsg_onLine (m : ITCHMsg) : (onLine s axis np).processMsg m =
    ((s.processMsg m).1, onLine (s.processMsg m).2 axis np) := by
  have hbook : ∀ s : Top cfg, (onLine s axis np).toBook m =
      ((s.toBook m).1, onLine (s.toBook m).2 axis np) := by
    intro s
    simp only [Top.toBook, onLine]
    split
    · split
      · rfl
      · split_ifs
        · split <;> rfl
        · rfl
    · rfl
  have hlocate : ∀ (s : Top cfg) (l : Option ℕ), (onLine s axis np).takeLocate l m =
      ((s.takeLocate l m).1, onLine (s.takeLocate l m).2 axis np) := by
    intro s l
    unfold Top.takeLocate
    cases l with
    | none => exact hbook s
    | some l =>
      dsimp only
      by_cases hset : s.stockLocate ≠ none
      · rw [if_pos hset, if_pos (show (onLine s axis np).stockLocate ≠ none from hset)]
      · rw [if_neg hset, if_neg (show ¬ (onLine s axis np).stockLocate ≠ none from hset)]
        exact hbook { s with stockLocate := some l }
  unfold Top.processMsg
  simp only [onLine]
  split
  · rfl
  · rfl
  · rename_i res ctrl _
    exact hlocate { s with ctrl, stockActive := res.stockActive } res.stockLocate

theorem processResults_onLine (ms : List ITCHMsg) (last : Option BookResult) :
    (onLine s axis np).processResults ms last =
      ((s.processResults ms last).1, onLine (s.processResults ms last).2 axis np) := by
  induction ms generalizing s last with
  | nil => rfl
  | cons m ms ih =>
    simp only [Top.processResults, processMsg_onLine]
    rcases s.processMsg m with ⟨out | res, s'⟩
    · rfl
    · exact ih s' _

theorem processUnparsed_onLine (m : List Byte) : (onLine s axis np).processUnparsed m =
    ((s.processUnparsed m).1, onLine (s.processUnparsed m).2 axis np) := by
  simp only [Top.processUnparsed]
  split
  · rfl
  · rfl
  · simp only [processResults_onLine]
    rcases s.processResults _ none with ⟨out | res, s'⟩ <;> rfl

theorem processPayload_onLine (ms : List (List Byte)) : (onLine s axis np).processPayload ms =
    ((s.processPayload ms).1, onLine (s.processPayload ms).2 axis np) := by
  induction ms generalizing s with
  | nil => rfl
  | cons m ms ih =>
    simp only [Top.processPayload, processUnparsed_onLine]
    rcases s.processUnparsed m with ⟨out | res, s'⟩
    · rfl
    · simp only [ih s']

end OnLine

/-! ### One packet -/

/-- The packet of the session with the sequence number `seq` and the messages `ms`. -/
structure IsPacket (session : List Byte) (seq : ℕ) (ms : List (List Byte)) (pkt : List Byte) :
    Prop where
  header : 20 ≤ pkt.length
  session : sessionOf pkt = session
  seq : seqOf pkt = seq
  count : countOf pkt = ms.length
  payload : pkt.drop 20 = ms.flatten

/-- The session is not open yet, or it is this one. -/
def InSession (session : List Byte) (np : MoldUDP64Parser) : Prop :=
  np.firstPktReceived = false ∨ np.sessionId = some session

/-- The parser after a packet of the session with `n` messages. -/
def received (session : List Byte) (n : ℕ) (np : MoldUDP64Parser) : MoldUDP64Parser :=
  ⟨np.seqExpected + n, some session, true⟩

theorem advanced_eq {session pkt : List Byte} {ms : List (List Byte)} {np : MoldUDP64Parser}
    (hnp : InSession session np) (h : IsPacket session np.seqExpected ms pkt) :
    Framing.advanced np pkt = received session ms.length np := by
  unfold Framing.advanced Framing.opened received
  cases hf : np.firstPktReceived with
  | false => simp [h.session, h.count]
  | true =>
    have hid := hnp.resolve_left (by simp [hf])
    simp [h.count, hid, hf]

/-- A packet is the loop over its messages. -/
theorem processPkt_eq {session pkt : List Byte} {ms : List (List Byte)} (hms : ∀ m ∈ ms, IsMsg m)
    {s : Top cfg} (hnp : InSession session s.np)
    (h : IsPacket session s.np.seqExpected ms pkt) :
    s.processPkt pkt = ((s.processPayload ms).1,
      onLine (s.processPayload ms).2 s.axis (received session ms.length s.np)) := by
  have hok : HeaderOk s.np pkt := by
    refine ⟨hnp.imp_right fun hid => ?_, h.seq⟩
    rw [hid, h.session]
  have hfr : Framing.Framed (countOf pkt) (pkt.drop 20) ms := ⟨h.count.symm, hms, h.payload.symm⟩
  have hcall : s.np.processPkt pkt = (.ret ms, received session ms.length s.np) := by
    rcases Framing.processPkt_spec s.np pkt with ⟨hlen, -⟩ | ⟨-, hno, -⟩ | ⟨-, -, hno, -⟩ |
      ⟨-, -, ms', hfr', hp⟩
    · exact absurd h.header (by omega)
    · exact absurd hok hno
    · exact absurd ⟨ms, hfr⟩ hno
    · rw [hp, Framing.framed_unique hfr' hfr, advanced_eq hnp h]
  unfold Top.processPkt
  rw [hcall]
  exact processPayload_onLine s s.axis (received session ms.length s.np) ms

/-! ### The bus -/

/-- The cycles carry the packet: the bytes of their words are its bytes, and the last word is
marked. -/
def Delivers (pkt : List Byte) (cycles : List BusCycle) : Prop :=
  ∃ ws last, cycles.filter (fun c => c.tvalid) = ws ++ [last] ∧ (∀ w ∈ ws, w.tlast = false) ∧
    last.tlast = true ∧ (ws ++ [last]).flatMap BusCycle.kept = pkt

/-- An idle cycle changes nothing. -/
theorem busCycle_idle (s : Top cfg) {c : BusCycle} (hc : c.tvalid = false) :
    s.processBusCycle c = ([], s) := by
  unfold Top.processBusCycle AxisInterpreter.processBusCycle
  rw [hc]
  rfl

/-- A word that is not the last one is collected. -/
theorem busCycle_word (s : Top cfg) {c : BusCycle} (hc : c.tvalid = true) (hl : c.tlast = false) :
    s.processBusCycle c = ([], { s with axis := s.axis ++ c.kept }) := by
  unfold Top.processBusCycle AxisInterpreter.processBusCycle
  rw [hc, hl]
  rfl

/-- The last word hands the packet on. -/
theorem busCycle_last (s : Top cfg) {c : BusCycle} (hc : c.tvalid = true) (hl : c.tlast = true) :
    s.processBusCycle c = { s with axis := [] }.processPkt (s.axis ++ c.kept) := by
  unfold Top.processBusCycle AxisInterpreter.processBusCycle
  rw [hc, hl]
  rfl

/-- The outputs of some bus cycles. -/
def outputs (s : Top cfg) (cycles : List BusCycle) : List TopOut :=
  ((Top.onBus cfg).trace s cycles).flatten

theorem outputs_cons (s : Top cfg) (c : BusCycle) (cycles : List BusCycle) :
    outputs s (c :: cycles) =
      (s.processBusCycle c).1 ++ outputs (s.processBusCycle c).2 cycles := rfl

theorem outputs_append (s : Top cfg) (a b : List BusCycle) :
    outputs s (a ++ b) = outputs s a ++ outputs ((Top.onBus cfg).run s a) b := by
  unfold outputs
  rw [Circuit.trace_append, List.flatten_append]

theorem idle_run (s : Top cfg) {cycles : List BusCycle} (h : ∀ c ∈ cycles, c.tvalid = false) :
    outputs s cycles = [] ∧ (Top.onBus cfg).run s cycles = s := by
  induction cycles with
  | nil => exact ⟨rfl, rfl⟩
  | cons c cycles ih =>
    obtain ⟨hc, hrest⟩ := List.forall_mem_cons.1 h
    rw [outputs_cons, Circuit.run_cons]
    change _ ∧ (Top.onBus cfg).run (s.processBusCycle c).2 cycles = s
    rw [busCycle_idle s hc]
    exact ih hrest

/-- **One packet on the bus.** -/
theorem packet_run {pkt : List Byte} {cycles : List BusCycle} {s : Top cfg}
    (hd : ∃ ws last, cycles.filter (fun c => c.tvalid) = ws ++ [last] ∧
      (∀ w ∈ ws, w.tlast = false) ∧ last.tlast = true ∧
      s.axis ++ (ws ++ [last]).flatMap BusCycle.kept = pkt) :
    outputs s cycles = ({ s with axis := [] }.processPkt pkt).1 ∧
      (Top.onBus cfg).run s cycles = ({ s with axis := [] }.processPkt pkt).2 := by
  induction cycles generalizing s with
  | nil =>
    obtain ⟨ws, last, hfil, -⟩ := hd
    simp at hfil
  | cons c cycles ih =>
    obtain ⟨ws, last, hfil, hws, hlast, hpkt⟩ := hd
    rw [outputs_cons, Circuit.run_cons]
    change _ ∧ (Top.onBus cfg).run (s.processBusCycle c).2 cycles = _
    by_cases hc : c.tvalid = true
    · rw [List.filter_cons_of_pos hc] at hfil
      cases ws with
      | nil =>
        -- the last word: behind it there are only idle cycles
        obtain ⟨rfl, hidle⟩ := List.cons.inj hfil
        have hrest : ∀ c' ∈ cycles, c'.tvalid = false := fun c' hc' => by
          simpa using List.filter_eq_nil_iff.1 hidle c' hc'
        rw [busCycle_last s hc hlast]
        simp only [List.nil_append, List.flatMap_cons, List.flatMap_nil, List.append_nil] at hpkt
        rw [hpkt]
        obtain ⟨h1, h2⟩ := idle_run ({ s with axis := [] }.processPkt pkt).2 hrest
        rw [h1, h2, List.append_nil]
        exact ⟨rfl, rfl⟩
      | cons w ws =>
        obtain ⟨rfl, hfil'⟩ := List.cons.inj hfil
        obtain ⟨hw, hws⟩ := List.forall_mem_cons.1 hws
        rw [busCycle_word s hc hw]
        have h := @ih { s with axis := s.axis ++ c.kept } ⟨ws, last, hfil', hws, hlast, by
          rw [← hpkt]
          simp⟩
        exact h
    · rw [List.filter_cons_of_neg hc] at hfil
      rw [busCycle_idle s (by simpa using hc)]
      exact ih ⟨ws, last, hfil, hws, hlast, hpkt⟩

/-! ### Streams of packets -/

/-- The cycles carry the packets of the session, which cut a list of messages. -/
inductive Stream (session : List Byte) : ℕ → List (List (List Byte)) → List BusCycle → Prop
  | idle {seq : ℕ} {cycles : List BusCycle} (h : ∀ c ∈ cycles, c.tvalid = false) :
    Stream session seq [] cycles
  | packet {seq : ℕ} {ms : List (List Byte)} {cut : List (List (List Byte))} {pkt : List Byte}
    {cycles cycles' : List BusCycle} (hpkt : IsPacket session seq ms pkt)
    (hd : Delivers pkt cycles) (hs : Stream session (seq + ms.length) cut cycles') :
    Stream session seq (ms :: cut) (cycles ++ cycles')

/-- The same control module, book and stock. -/
structure SameStock (s t : Top cfg) : Prop where
  ctrl : s.ctrl = t.ctrl
  book : s.book = t.book
  stockActive : s.stockActive = t.stockActive
  stockLocate : s.stockLocate = t.stockLocate

theorem sameStock_onLine (s : Top cfg) (axis : List Byte) (np : MoldUDP64Parser) :
    SameStock (onLine s axis np) s := ⟨rfl, rfl, rfl, rfl⟩

theorem SameStock.trans {s t u : Top cfg} (h : SameStock s t) (h' : SameStock t u) :
    SameStock s u :=
  ⟨h.ctrl.trans h'.ctrl, h.book.trans h'.book, h.stockActive.trans h'.stockActive,
    h.stockLocate.trans h'.stockLocate⟩

theorem SameStock.symm {s t : Top cfg} (h : SameStock s t) : SameStock t s :=
  ⟨h.ctrl.symm, h.book.symm, h.stockActive.symm, h.stockLocate.symm⟩

/-- **A stream of packets is the loop over all its messages.** -/
theorem stream_run {session : List Byte} {seq : ℕ} {cut : List (List (List Byte))}
    {cycles : List BusCycle} (hstream : Stream session seq cut cycles)
    (hcut : ∀ m ∈ cut.flatten, IsMsg m) {s : Top cfg} (haxis : s.axis = [])
    (hnp : InSession session s.np) (hseq : s.np.seqExpected = seq) :
    (Clean (outputs s cycles) ↔ Clean (s.processPayload cut.flatten).1) ∧
    (Clean (s.processPayload cut.flatten).1 →
      outputs s cycles = (s.processPayload cut.flatten).1 ∧
        SameStock ((Top.onBus cfg).run s cycles) (s.processPayload cut.flatten).2) := by
  induction hstream generalizing s with
  | idle h =>
    obtain ⟨h1, h2⟩ := idle_run s h
    rw [h1, h2]
    exact ⟨Iff.rfl, fun _ => ⟨rfl, rfl, rfl, rfl, rfl⟩⟩
  | @packet seq ms cut pkt cycles cycles' hpkt hd hs ih =>
    subst hseq
    rw [List.flatten_cons] at hcut ⊢
    obtain ⟨hms, hcut⟩ := List.forall_mem_append.1 hcut
    obtain ⟨ws, last, hfil, hws, hlast, hbytes⟩ := hd
    have hs0 : ({ s with axis := [] } : Top cfg) = s := by
      rw [← haxis]
    have hbytes' : s.axis ++ (ws ++ [last]).flatMap BusCycle.kept = pkt := by
      rw [haxis]
      exact hbytes
    obtain ⟨h1, h2⟩ := packet_run ⟨ws, last, hfil, hws, hlast, hbytes'⟩
    rw [hs0, processPkt_eq hms hnp hpkt] at h1 h2
    dsimp only at h1 h2
    obtain ⟨happ, hrun⟩ := processPayload_append s ms cut.flatten
    rw [outputs_append, h1, clean_append, happ, Circuit.run_append, h2]
    have hih := ih hcut (s := onLine (s.processPayload ms).2 s.axis
      (received session ms.length s.np)) haxis (Or.inr rfl) rfl
    rw [processPayload_onLine] at hih
    dsimp only at hih
    refine ⟨and_congr_right fun _ => hih.1, fun hclean => ?_⟩
    obtain ⟨hout, hstock⟩ := hih.2 hclean.2
    rw [hrun hclean.1, hout]
    exact ⟨rfl, hstock.trans (sameStock_onLine _ _ _)⟩

/-- **Packets do not matter.** If one way of cutting a list of messages into packets of the session
is processed without an error, then so is every other, with the same results and the same state
of control module, book and stock. -/
theorem cuts_agree {session : List Byte} {s : Top cfg} (haxis : s.axis = [])
    (hnp : InSession session s.np) {cut cut' : List (List (List Byte))}
    (hmsgs : cut.flatten = cut'.flatten) (hcut : ∀ m ∈ cut.flatten, IsMsg m)
    {cycles cycles' : List BusCycle} (hstream : Stream session s.np.seqExpected cut cycles)
    (hstream' : Stream session s.np.seqExpected cut' cycles') (hclean : Clean (outputs s cycles)) :
    Clean (outputs s cycles') ∧ outputs s cycles = outputs s cycles' ∧
      SameStock ((Top.onBus cfg).run s cycles) ((Top.onBus cfg).run s cycles') := by
  obtain ⟨hiff, hrun⟩ := stream_run hstream hcut haxis hnp rfl
  obtain ⟨hiff', hrun'⟩ := stream_run hstream' (hmsgs ▸ hcut) haxis hnp rfl
  rw [← hmsgs] at hiff' hrun'
  have hpayload := hiff.1 hclean
  obtain ⟨hout, hstock⟩ := hrun hpayload
  obtain ⟨hout', hstock'⟩ := hrun' hpayload
  exact ⟨hiff'.2 hpayload, hout.trans hout'.symm, hstock.trans hstock'.symm⟩

/-! ### An example -/

/-- A word of the bus, least significant byte first. -/
def busWord (b0 b1 b2 b3 : Byte) : BitVec 32 := b3 ++ b2 ++ b1 ++ b0

/-- The words of a packet, without idle cycles. -/
def busWords : List Byte → List BusCycle
  | b0 :: b1 :: b2 :: b3 :: b4 :: rest =>
    ⟨busWord b0 b1 b2 b3, false, true, 15⟩ :: busWords (b4 :: rest)
  | [b0, b1, b2, b3] => [⟨busWord b0 b1 b2 b3, true, true, 15⟩]
  | [b0, b1, b2] => [⟨busWord b0 b1 b2 0, true, true, 7⟩]
  | [b0, b1] => [⟨busWord b0 b1 0 0, true, true, 3⟩]
  | [b0] => [⟨busWord b0 0 0 0, true, true, 1⟩]
  | [] => []

theorem byte_busWord (b0 b1 b2 b3 : Byte) :
    (busWord b0 b1 b2 b3).extractLsb' 0 8 = b0 ∧ (busWord b0 b1 b2 b3).extractLsb' 8 8 = b1 ∧
      (busWord b0 b1 b2 b3).extractLsb' 16 8 = b2 ∧ (busWord b0 b1 b2 b3).extractLsb' 24 8 = b3 := by
  refine ⟨?_, ?_, ?_, ?_⟩ <;> ext i hi <;>
    simp only [busWord, BitVec.getElem_extractLsb', BitVec.getLsbD_append] <;> grind

theorem kept_eq (w : BitVec 32) (l v : Bool) {k : BitVec 4} {is : List ℕ}
    (h : (List.range 4).filter (fun i => k.getLsbD i) = is) :
    BusCycle.kept ⟨w, l, v, k⟩ = is.map fun i => w.extractLsb' (8 * i) 8 := by
  rw [BusCycle.kept, h]

theorem delivers_busWords {pkt : List Byte} (hpkt : pkt ≠ []) : Delivers pkt (busWords pkt) := by
  fun_induction busWords pkt with
  | case1 b0 b1 b2 b3 b4 rest ih =>
    obtain ⟨ws, last, hfil, hws, hlast, hbytes⟩ := ih (by simp)
    obtain ⟨h0, h1, h2, h3⟩ := byte_busWord b0 b1 b2 b3
    refine ⟨⟨busWord b0 b1 b2 b3, false, true, 15⟩ :: ws, last, ?_, ?_, hlast, ?_⟩
    · rw [List.filter_cons_of_pos rfl, hfil, List.cons_append]
    · exact List.forall_mem_cons.2 ⟨rfl, hws⟩
    · rw [List.cons_append, List.flatMap_cons, hbytes, kept_eq _ _ _ (show _ = [0, 1, 2, 3] by decide)]
      change [(busWord b0 b1 b2 b3).extractLsb' 0 8, (busWord b0 b1 b2 b3).extractLsb' 8 8,
        (busWord b0 b1 b2 b3).extractLsb' 16 8, (busWord b0 b1 b2 b3).extractLsb' 24 8] ++ _ = _
      rw [h0, h1, h2, h3]
      rfl
  | case2 b0 b1 b2 b3 =>
    obtain ⟨h0, h1, h2, h3⟩ := byte_busWord b0 b1 b2 b3
    refine ⟨[], _, rfl, fun w hw => (nomatch hw), rfl, ?_⟩
    rw [List.nil_append, List.flatMap_singleton, kept_eq _ _ _ (show _ = [0, 1, 2, 3] by decide)]
    change [(busWord b0 b1 b2 b3).extractLsb' 0 8, (busWord b0 b1 b2 b3).extractLsb' 8 8,
      (busWord b0 b1 b2 b3).extractLsb' 16 8, (busWord b0 b1 b2 b3).extractLsb' 24 8] = _
    rw [h0, h1, h2, h3]
  | case3 b0 b1 b2 =>
    obtain ⟨h0, h1, h2, -⟩ := byte_busWord b0 b1 b2 0
    refine ⟨[], _, rfl, fun w hw => (nomatch hw), rfl, ?_⟩
    rw [List.nil_append, List.flatMap_singleton, kept_eq _ _ _ (show _ = [0, 1, 2] by decide)]
    change [(busWord b0 b1 b2 0).extractLsb' 0 8, (busWord b0 b1 b2 0).extractLsb' 8 8,
      (busWord b0 b1 b2 0).extractLsb' 16 8] = _
    rw [h0, h1, h2]
  | case4 b0 b1 =>
    obtain ⟨h0, h1, -, -⟩ := byte_busWord b0 b1 0 0
    refine ⟨[], _, rfl, fun w hw => (nomatch hw), rfl, ?_⟩
    rw [List.nil_append, List.flatMap_singleton, kept_eq _ _ _ (show _ = [0, 1] by decide)]
    change [(busWord b0 b1 0 0).extractLsb' 0 8, (busWord b0 b1 0 0).extractLsb' 8 8] = _
    rw [h0, h1]
  | case5 b0 =>
    obtain ⟨h0, -, -, -⟩ := byte_busWord b0 0 0 0
    refine ⟨[], _, rfl, fun w hw => (nomatch hw), rfl, ?_⟩
    rw [List.nil_append, List.flatMap_singleton, kept_eq _ _ _ (show _ = [0] by decide)]
    change [(busWord b0 0 0 0).extractLsb' 0 8] = _
    rw [h0]
  | case6 => exact absurd rfl hpkt

/-- An order of 100 shares for the stock with the locate 7. -/
def addMsg : List Byte :=
  [0, 36, 65, 0, 7, 0, 0, 0, 0, 0, 0, 0, 0] ++ [0, 0, 0, 0, 0, 0, 0, 1] ++ [66] ++ [0, 0, 0, 100] ++
    [69, 88, 65, 77, 80, 76, 69, 49] ++ [0, 0, 41, 4]

/-- The session of the packets of `examplePkt`. -/
def exampleSession : List Byte := [84, 69, 83, 84, 95, 68, 82, 67, 84, 89]

theorem stream_example {seq count : Byte} {seq' : ℕ} {ms : List (List Byte)}
    {cut : List (List (List Byte))} {cycles : List BusCycle} (hseq : seq.toNat = seq')
    (hlen : ms.length = count.toNat) (h : Stream exampleSession (seq' + ms.length) cut cycles) :
    Stream exampleSession seq' (ms :: cut) (busWords (examplePkt seq count ms) ++ cycles) := by
  refine .packet ⟨?_, rfl, ?_, ?_, rfl⟩ (delivers_busWords ?_) h
  · simp [examplePkt]
  · rw [← hseq]
    simp [examplePkt, seqOf, slice, fromBytes]
  · rw [hlen]
    simp [examplePkt, countOf, slice, fromBytes]
  · simp [examplePkt]

theorem parsers_of_init {ideal b : Bool} {marketCode : Char} {stockSymbol : String} {priceBase : ℤ}
    {s : Top cfg}
    (hinit : (Top.new cfg ideal).initParams marketCode stockSymbol priceBase = .ok (b, s)) :
    s.axis = [] ∧ s.np = .new := by
  unfold Top.initParams at hinit
  split at hinit
  · cases hinit
  · split at hinit
    · cases hinit
    · cases hinit
      exact ⟨rfl, rfl⟩

/-- Three messages in one packet, and in two with a heartbeat and idle cycles around them. -/
theorem cuts_agree_example :
    ∃ cycles cycles', Stream exampleSession 1 [[openMsg, directoryMsg, addMsg]] cycles ∧
      Stream exampleSession 1 [[openMsg, directoryMsg], [], [addMsg]] cycles' ∧
      outputs exampleTop cycles = [.result ⟨none, none, none⟩] ∧
      outputs exampleTop cycles' = [.result ⟨none, none, none⟩] := by
  have hidle : Stream exampleSession 4 [] [⟨0, false, false, 15⟩] :=
    .idle fun c hc => by rw [List.mem_singleton.1 hc]
  have hone : Stream exampleSession 1 [[openMsg, directoryMsg, addMsg]]
      (busWords (examplePkt 1 3 [openMsg, directoryMsg, addMsg]) ++ [⟨0, false, false, 15⟩]) :=
    stream_example rfl rfl hidle
  have htwo : Stream exampleSession 1 [[openMsg, directoryMsg], [], [addMsg]]
      (busWords (examplePkt 1 2 [openMsg, directoryMsg]) ++
        (busWords (examplePkt 3 0 []) ++
          (busWords (examplePkt 3 1 [addMsg]) ++ [⟨0, false, false, 15⟩]))) :=
    stream_example rfl rfl (stream_example rfl rfl (stream_example rfl rfl hidle))
  have hout : outputs exampleTop
      (busWords (examplePkt 1 3 [openMsg, directoryMsg, addMsg]) ++ [⟨0, false, false, 15⟩]) =
        [.result ⟨none, none, none⟩] := by
    decide +kernel
  have hclean : Clean [.result ⟨none, none, none⟩] :=
    fun out h => ⟨_, List.mem_singleton.1 h⟩
  have hmsgs : ∀ m ∈ [[openMsg, directoryMsg, addMsg]].flatten, IsMsg m := by
    unfold IsMsg
    decide
  obtain ⟨haxis, hnp⟩ := parsers_of_init exampleTop_init
  have hseq : exampleTop.np.seqExpected = 1 := by rw [hnp]; rfl
  rw [← hseq] at hone htwo
  obtain ⟨-, hsame, -⟩ := @cuts_agree {} exampleSession exampleTop haxis (Or.inl (by rw [hnp]; rfl))
    [[openMsg, directoryMsg, addMsg]] [[openMsg, directoryMsg], [], [addMsg]] rfl hmsgs _ _ hone htwo
    (hout ▸ hclean)
  rw [hseq] at hone htwo
  exact ⟨_, _, hone, htwo, hout, hsame ▸ hout⟩

end ItchOrderBook.Session
