import ItchOrderBook.Lib.Sequenced
import ItchOrderBook.System.Sessions

/-!
# A network between the sender and the pipeline

UDP packets are lost, repeated and reordered, and packets of other sessions arrive among them. The parser
of the reference is a receiver in sequence (`Delivered.arrivals`): it takes the next packet of its session
and answers every other one with an error. So the pipeline does what it does with the first messages of the
stream, in their order (`network_safe`), and if all packets of the generator arrive in their order, among
others, what it does with the file (`network_complete`).
-/

namespace ItchOrderBook.System

open Framing (Framed IsMsg WellFramed countOf seqOf sessionOf)
open Numbered (InRow PartOf itemsOf receive receiveAll)
open Ref (Byte MoldUDP64Parser Params Top TopOut generateFrom generateMoldudpPackets packHeader streamRawItch)
open Session (Clean InSession SameStock onLine received)

/-! ### Packets with numbers -/

/-- The header has the session. -/
def ours (session pkt : List Byte) : Bool := decide (20 ≤ pkt.length) && decide (sessionOf pkt = session)

/-- The messages of a packet. -/
def chunksOf (pkt : List Byte) : List (List Byte) :=
  match MoldUDP64Parser.parsePayload pkt (countOf pkt) 20 with
  | .ok (itchMsgs, _) => itchMsgs
  | .error _ => []

/-- The packet with its sequence number. -/
def numbered (pkt : List Byte) : Numbered (List Byte) := ⟨seqOf pkt, chunksOf pkt⟩

theorem ours_iff {session pkt : List Byte} :
    ours session pkt = true ↔ 20 ≤ pkt.length ∧ sessionOf pkt = session := by
  rw [ours, Bool.and_eq_true, decide_eq_true_eq, decide_eq_true_eq]

theorem chunksOf_eq {pkt : List Byte} {msgs : List (List Byte)} (hlen : 20 ≤ pkt.length)
    (h : Framed (countOf pkt) (pkt.drop 20) msgs) : chunksOf pkt = msgs := by
  rw [chunksOf, (Framing.parsePayload_iff hlen).2 h]

section Arrivals

variable {cfg : Params} {s : Top cfg} {session pkt : List Byte} {pkts : List (List Byte)}

/-- The parser is in the session. -/
def Open (session : List Byte) (np : MoldUDP64Parser) : Prop :=
  np.firstPktReceived = true ∧ np.sessionId = some session

theorem open_received (n : ℕ) (np : MoldUDP64Parser) : Open session (received session n np) := ⟨rfl, rfl⟩

/-- The next packet of the session is taken. -/
theorem processPkt_taken (hnp : InSession session s.np) (hours : ours session pkt = true)
    (hw : WellFramed pkt) (hseq : seqOf pkt = s.np.seqExpected) :
    s.processPkt pkt = ((s.processPayload (chunksOf pkt)).1,
      onLine (s.processPayload (chunksOf pkt)).2 s.axis (received session (chunksOf pkt).length s.np)) := by
  obtain ⟨hlen, hsession⟩ := ours_iff.1 hours
  obtain ⟨msgs, hframed⟩ := hw
  rw [chunksOf_eq hlen hframed]
  exact Session.processPkt_eq hframed.isMsg hnp
    ⟨hlen, hsession, hseq, hframed.length.symm, hframed.flatten.symm⟩

/-- Any other packet is answered with an error. -/
theorem processPkt_dropped (hnp : InSession session s.np)
    (hopen : Open session s.np ∨ ours session pkt = true)
    (hno : ours session pkt = true → seqOf pkt ≠ s.np.seqExpected) :
    ∃ code, s.processPkt pkt = ([.error .np code], onLine s s.axis (received session 0 s.np)) := by
  have hkeep : Open session s.np → received session 0 s.np = s.np := by
    rintro ⟨hfirst, hid⟩
    rw [received, Nat.add_zero, ← hfirst, ← hid]
  have hopened : ours session pkt = true → Framing.opened s.np pkt = received session 0 s.np := by
    intro hours
    rcases hnp with hfirst | hid
    · rw [Framing.opened, hfirst, (ours_iff.1 hours).2]
      rfl
    · cases hfirst : s.np.firstPktReceived with
      | false =>
        rw [Framing.opened, hfirst, (ours_iff.1 hours).2]
        rfl
      | true => rw [(Framing.opened_eq_iff s.np pkt).2 hfirst, hkeep ⟨hfirst, hid⟩]
  have hbad : 20 ≤ pkt.length → ¬ Framing.HeaderOk s.np pkt := by
    rintro hlen ⟨hsession, hseq⟩
    have hforeign : ¬ ours session pkt = true := fun hours => hno hours hseq
    obtain ⟨hfirst, hid⟩ := hopen.resolve_right hforeign
    rcases hsession with hnew | hsame
    · rw [hfirst] at hnew
      cases hnew
    · exact hforeign (ours_iff.2 ⟨hlen, Option.some.inj (hsame.symm.trans hid)⟩)
  rcases Framing.processPkt_spec s.np pkt with ⟨hshort, c, hp⟩ | ⟨hlen, -, c, hp⟩ | ⟨hlen, hok, -⟩ |
    ⟨hlen, hok, -⟩
  · refine ⟨Ref.Origin.prefixText .np ++ c, ?_⟩
    have hforeign : ¬ ours session pkt = true := fun hours => absurd (ours_iff.1 hours).1 (by omega)
    rw [Top.processPkt, hp, hkeep (hopen.resolve_right hforeign)]
    rfl
  · refine ⟨Ref.Origin.prefixText .np ++ c, ?_⟩
    have hstate : Framing.opened s.np pkt = received session 0 s.np := by
      rcases hopen with hopen | hours
      · rw [(Framing.opened_eq_iff s.np pkt).2 hopen.1, hkeep hopen]
      · exact hopened hours
    rw [Top.processPkt, hp, hstate]
    rfl
  · exact absurd hok (hbad hlen)
  · exact absurd hok (hbad hlen)

/-- The messages that are delivered of the arrivals. -/
def takes (session : List Byte) (n : ℕ) (pkts : List (List Byte)) : List (List Byte) :=
  (receiveAll n ((pkts.filter (ours session)).map numbered)).1

/-- The next packet of the session. -/
theorem takes_next {n : ℕ} (hours : ours session pkt = true) (hseq : seqOf pkt = n) :
    takes session n (pkt :: pkts) = chunksOf pkt ++ takes session (n + (chunksOf pkt).length) pkts := by
  have hreceive : receive n (numbered pkt) = (chunksOf pkt, n + (chunksOf pkt).length) := if_pos hseq
  rw [takes, List.filter_cons_of_pos hours, List.map_cons, receiveAll, hreceive]
  rfl

/-- Any other one. -/
theorem takes_other {n : ℕ} (hno : ours session pkt = true → seqOf pkt ≠ n) :
    takes session n (pkt :: pkts) = takes session n pkts := by
  cases hours : ours session pkt with
  | false => rw [takes, List.filter_cons_of_neg (by simp [hours]), takes]
  | true =>
    have hreceive : receive n (numbered pkt) = ([], n) := if_neg (hno hours)
    rw [takes, List.filter_cons_of_pos hours, List.map_cons, receiveAll, hreceive]
    rfl

/-- The pipeline does with the arrivals what it does with the messages, and answers what it drops with
errors of its parser. -/
structure Delivered (s : Top cfg) (pkts ms : List (List Byte)) : Prop where
  results : (outputs s pkts).filter isResult = (s.processPayload ms).1
  stock : SameStock ((Top.onPkts cfg).run s pkts) (s.processPayload ms).2
  expected : ((Top.onPkts cfg).run s pkts).np.seqExpected = s.np.seqExpected + ms.length
  dropped : ∀ out ∈ outputs s pkts, isResult out = false → ∃ code, out = .error .np code

theorem filter_clean {outs : List TopOut} (h : Clean outs) : outs.filter isResult = outs := by
  rw [List.filter_eq_self]
  exact List.all_eq_true.1 (all_isResult_iff.2 h)

theorem Delivered.nil : Delivered s [] [] where
  results := rfl
  stock := ⟨rfl, rfl, rfl, rfl⟩
  expected := rfl
  dropped _ hout := absurd hout List.not_mem_nil

/-- One arrival before the others, with the messages it delivers. -/
theorem Delivered.cons {new rest : List (List Byte)} {out : List TopOut}
    (hclean : Clean (s.processPayload (new ++ rest)).1)
    (hp : s.processPkt pkt =
      (out, onLine (s.processPayload new).2 s.axis (received session new.length s.np)))
    (hout : out.filter isResult = (s.processPayload new).1)
    (hdropped : ∀ o ∈ out, isResult o = false → ∃ code, o = .error .np code)
    (h : Delivered (onLine (s.processPayload new).2 s.axis (received session new.length s.np)) pkts rest) :
    Delivered s (pkt :: pkts) (new ++ rest) := by
  obtain ⟨happ, hrun⟩ := Session.processPayload_append s new rest
  obtain ⟨hfront, hback⟩ := happ.1 hclean
  obtain ⟨hresults, hstock, hexpected, hrest⟩ := h
  rw [Session.processPayload_onLine] at hresults hstock
  constructor
  · rw [outputs_cons, hp, List.filter_append, hout, hresults, hrun hfront]
  · rw [Circuit.run_cons, hrun hfront]
    change SameStock ((Top.onPkts cfg).run (s.processPkt pkt).2 pkts) _
    rw [hp]
    exact hstock.trans (Session.sameStock_onLine _ _ _)
  · rw [Circuit.run_cons]
    change ((Top.onPkts cfg).run (s.processPkt pkt).2 pkts).np.seqExpected = _
    rw [hp, hexpected, List.length_append, ← Nat.add_assoc]
    rfl
  · intro o ho hno
    rw [outputs_cons, hp, List.mem_append] at ho
    rcases ho with ho | ho
    · exact hdropped o ho hno
    · exact hrest o ho hno

/-- **The parser is a receiver in sequence.** -/
theorem Delivered.arrivals (hnp : InSession session s.np)
    (hopen : Open session s.np ∨ ∃ first rest, pkts = first :: rest ∧ ours session first = true)
    (hw : ∀ pkt ∈ pkts, ours session pkt = true → WellFramed pkt)
    (hclean : Clean (s.processPayload (takes session s.np.seqExpected pkts)).1) :
    Delivered s pkts (takes session s.np.seqExpected pkts) := by
  induction pkts generalizing s with
  | nil => exact .nil
  | cons pkt pkts ih =>
    obtain ⟨hpkt, hpkts⟩ := List.forall_mem_cons.1 hw
    have hopen' : Open session s.np ∨ ours session pkt = true := by
      rcases hopen with hopen | ⟨first, rest, heq, hfirst⟩
      · exact Or.inl hopen
      · cases heq
        exact Or.inr hfirst
    -- the rest of the arrivals, after `new`
    have hrest : ∀ new, Clean ((s.processPayload new).2.processPayload
          (takes session (s.np.seqExpected + new.length) pkts)).1 →
        Delivered (onLine (s.processPayload new).2 s.axis (received session new.length s.np)) pkts
          (takes session (s.np.seqExpected + new.length) pkts) := by
      intro new hback
      apply ih (Or.inr rfl) (Or.inl (open_received _ _)) hpkts
      rw [Session.processPayload_onLine]
      exact hback
    by_cases htake : ours session pkt = true ∧ seqOf pkt = s.np.seqExpected
    · obtain ⟨hours, hseq⟩ := htake
      rw [takes_next hours hseq] at hclean ⊢
      obtain ⟨hfront, hback⟩ := (Session.processPayload_append s _ _).1.1 hclean
      apply Delivered.cons hclean (processPkt_taken hnp hours (hpkt hours) hseq) (filter_clean hfront)
      · intro o ho hno
        obtain ⟨r, rfl⟩ := hfront o ho
        cases hno
      · exact hrest _ hback
    · have hother : ours session pkt = true → seqOf pkt ≠ s.np.seqExpected :=
        fun hours hseq => htake ⟨hours, hseq⟩
      obtain ⟨code, hp⟩ := processPkt_dropped hnp hopen' hother
      have hp' : s.processPkt pkt = ([.error .np code], onLine (s.processPayload []).2 s.axis
          (received session ([] : List (List Byte)).length s.np)) := hp
      rw [takes_other hother] at hclean ⊢
      apply Delivered.cons hclean hp' rfl
      · intro o ho _
        exact ⟨code, List.mem_singleton.1 ho⟩
      · exact hrest [] hclean

end Arrivals

/-! ### The packets of the generator -/

section Generated

variable {sessionId : List Byte}

/-- A packet of the session, well framed. -/
def Proper (session pkt : List Byte) : Prop := ours session pkt = true ∧ WellFramed pkt

/-- The packets of the generator are proper, and in a row. -/
theorem generateFrom_row (hid : sessionId.length = 10) (batchSizes : List ℕ) {n : ℕ}
    {stream : List (List Byte)} (hmsgs : ∀ m ∈ stream, IsMsg m) :
    (∀ pkt ∈ (generateFrom sessionId n stream batchSizes).1, Proper sessionId pkt) ∧
      InRow n ((generateFrom sessionId n stream batchSizes).1.map numbered) := by
  induction batchSizes generalizing n stream with
  | nil => exact ⟨fun _ hpkt => absurd hpkt List.not_mem_nil, trivial⟩
  | cons b bs ih =>
    rw [generateFrom, Framing.takeBatch_eq]
    by_cases hb : b ≤ stream.length
    · rw [if_pos hb]
      dsimp only
      cases hheader : packHeader sessionId n b with
      | none => exact ⟨fun _ hpkt => absurd hpkt List.not_mem_nil, trivial⟩
      | some header =>
        rw [packHeader] at hheader
        split_ifs at hheader with hfit
        rw [List.take_left' hid] at hheader
        obtain rfl := Option.some.inj hheader
        have hlen : (stream.take b).length = b := List.length_take_of_le hb
        have hbatch : ∀ m ∈ stream.take b, IsMsg m := fun m hm => hmsgs m (List.mem_of_mem_take hm)
        have hpacket : Framing.Packet
            (sessionId ++ Ref.toBytes 8 n ++ Ref.toBytes 2 b ++ (stream.take b).flatten) sessionId n
            (stream.take b) :=
          ⟨⟨_, _, rfl, Ref.length_toBytes 8 _, Ref.fromBytes_toBytes hfit.1, Ref.length_toBytes 2 _, by
            rw [Ref.fromBytes_toBytes hfit.2, hlen]⟩, hid, fun m hm => Framing.chunk_iff.2 (hbatch m hm)⟩
        obtain ⟨h20, hsession, hseq, hframed⟩ := Framing.packet_iff.1 hpacket
        obtain ⟨hproper, hrow⟩ := ih (n := n + b) fun m hm => hmsgs m (List.mem_of_mem_drop hm)
        refine ⟨List.forall_mem_cons.2 ⟨⟨ours_iff.2 ⟨h20, hsession⟩, _, hframed⟩, hproper⟩, hseq, ?_⟩
        have hitems : (numbered (sessionId ++ Ref.toBytes 8 n ++ Ref.toBytes 2 b ++
            (stream.take b).flatten)).items = stream.take b := chunksOf_eq h20 hframed
        rw [hitems, hlen]
        exact hrow
    · rw [if_neg hb]
      exact ⟨fun _ hpkt => absurd hpkt List.not_mem_nil, trivial⟩

/-- What the parser returns for proper packets in a row. -/
theorem payloads_row {session : List Byte} {np : MoldUDP64Parser} {pkts : List (List Byte)}
    (hnp : np.firstPktReceived = true → np.sessionId = some session)
    (hpkts : ∀ pkt ∈ pkts, Proper session pkt) (hrow : InRow np.seqExpected (pkts.map numbered)) :
    Framing.payloads np pkts = some (itemsOf (pkts.map numbered)) := by
  induction pkts generalizing np with
  | nil => rfl
  | cons pkt pkts ih =>
    obtain ⟨⟨hours, msgs, hframed⟩, hpkts⟩ := List.forall_mem_cons.1 hpkts
    obtain ⟨hlen, hsession⟩ := ours_iff.1 hours
    obtain ⟨hseq, hrow⟩ := hrow
    have hitems : (numbered pkt).items = msgs := chunksOf_eq hlen hframed
    rw [hitems] at hrow
    obtain ⟨np', hp, hexpected, hid⟩ :=
      Framing.processPkt_packet hnp (Framing.packet_iff.2 ⟨hlen, hsession, hseq, hframed⟩)
    rw [← hexpected] at hrow
    rw [Framing.payloads, hp, List.map_cons, Numbered.itemsOf_cons, hitems]
    dsimp only
    rw [ih (fun _ => hid) hpkts hrow]
    rfl

end Generated

/-! ### Runs -/

section Runs

variable {cfg : Params} {ideal b : Bool} {marketCode : Char} {sym : String} {base : ℤ} {s : Top cfg}
  {session first : List Byte} {rest : List (List Byte)}

/-- **The pipeline takes a prefix of the stream, once and in its order**, of a stream that it takes without
an error result or an exception (`Clean`), whatever packets of the session arrive that are well framed and
carry messages of the stream under their numbers, and whatever foreign packets, or packets that are shorter
than a header, arrive after the first one. -/
theorem network_safe (hinit : (Top.new cfg ideal).initParams marketCode sym base = .ok (b, s))
    {stream : List (List Byte)} (hfirst : ours session first = true)
    (hparts : ∀ pkt ∈ first :: rest, ours session pkt = true →
      WellFramed pkt ∧ (numbered pkt).PartOf 1 stream)
    (hclean : Clean (s.processPayload stream).1) :
    ∃ ms, ms <+: stream ∧ Delivered s (first :: rest) ms := by
  obtain ⟨-, hnp⟩ := Session.parsers_of_init hinit
  have hone : s.np.seqExpected = 1 := by
    rw [hnp]
    rfl
  have hof : ∀ p ∈ ((first :: rest).filter (ours session)).map numbered, p.PartOf 1 stream := by
    intro p hp
    obtain ⟨pkt, hpkt, rfl⟩ := List.mem_map.1 hp
    obtain ⟨hmem, hours⟩ := List.mem_filter.1 hpkt
    exact (hparts pkt hmem hours).2
  obtain ⟨ms, after, hstream, hall⟩ :=
    Numbered.receiveAll_prefix hof (List.nil_append stream) (Nat.add_zero 1).symm
  have htakes : takes session s.np.seqExpected (first :: rest) = ms := by
    rw [takes, hone, hall]
  rw [hstream] at hclean
  refine ⟨ms, ⟨after, hstream.symm⟩, ?_⟩
  rw [← htakes]
  apply Delivered.arrivals
  · exact Or.inl (by rw [hnp]; rfl)
  · exact Or.inr ⟨first, rest, rfl, hfirst⟩
  · exact fun pkt hpkt hours => (hparts pkt hpkt hours).1
  · rw [htakes]
    exact ((Session.processPayload_append s ms after).1.1 hclean).1

/-- **The pipeline takes the whole file** if the packets of the generator arrive in their order, among
repeated, late and foreign ones. The session id has ten bytes, every packet of the session that arrives is
one of the generator, and the pipeline takes them, once and in order, without an error result or an
exception (`Clean`). -/
theorem network_complete (hinit : (Top.new cfg ideal).initParams marketCode sym base = .ok (b, s))
    (hid : session.length = 10) {file : List Byte} {batchSizes : List ℕ} (hfirst : ours session first = true)
    (harrivals : ∀ pkt ∈ first :: rest, ours session pkt = true →
      pkt ∈ (generateMoldudpPackets file session batchSizes).1)
    (hsent : (generateMoldudpPackets file session batchSizes).1.Sublist (first :: rest))
    (hclean : Clean (outputs s (generateMoldudpPackets file session batchSizes).1)) :
    (outputs s (first :: rest)).filter isResult =
        outputs s (generateMoldudpPackets file session batchSizes).1 ∧
      SameStock ((Top.onPkts cfg).run s (first :: rest))
        ((Top.onPkts cfg).run s (generateMoldudpPackets file session batchSizes).1) ∧
      ∀ out ∈ outputs s (first :: rest), isResult out = false → ∃ code, out = .error .np code := by
  obtain ⟨-, hnp⟩ := Session.parsers_of_init hinit
  have hone : s.np.seqExpected = 1 := by
    rw [hnp]
    rfl
  obtain ⟨hproper, hrow⟩ := generateFrom_row hid batchSizes
    (fun m hm => Framing.isMsg_of_mem_stream hm : ∀ m ∈ streamRawItch file, IsMsg m)
  change ∀ pkt ∈ (generateMoldudpPackets file session batchSizes).1, Proper session pkt at hproper
  change InRow 1 ((generateMoldudpPackets file session batchSizes).1.map numbered) at hrow
  generalize (generateMoldudpPackets file session batchSizes).1 = sent at *
  have hpayloads : Framing.payloads s.np sent = some (itemsOf (sent.map numbered)) := by
    apply payloads_row _ hproper
    · rw [hone]
      exact hrow
    · rw [hnp]
      exact fun h => absurd h Bool.false_ne_true
  obtain ⟨hiff, hrun⟩ := payloads_run hpayloads
  have hpayload := hiff.1 hclean
  obtain ⟨hout, hstock⟩ := hrun hpayload
  have hours : sent.filter (ours session) = sent :=
    List.filter_eq_self.2 fun pkt hpkt => (hproper pkt hpkt).1
  have hsublist : (sent.map numbered).Sublist (((first :: rest).filter (ours session)).map numbered) := by
    have h := (hsent.filter (ours session)).map numbered
    rwa [hours] at h
  have hmem : ∀ p ∈ ((first :: rest).filter (ours session)).map numbered, p ∈ sent.map numbered := by
    intro p hp
    obtain ⟨pkt, hpkt, rfl⟩ := List.mem_map.1 hp
    obtain ⟨hpkt, hours⟩ := List.mem_filter.1 hpkt
    exact List.mem_map_of_mem (harrivals pkt hpkt hours)
  have htakes : takes session s.np.seqExpected (first :: rest) = itemsOf (sent.map numbered) := by
    rw [takes, hone, Numbered.receiveAll_complete hrow hmem hsublist]
  have hdelivered : Delivered s (first :: rest) (itemsOf (sent.map numbered)) := by
    rw [← htakes]
    apply Delivered.arrivals
    · exact Or.inl (by rw [hnp]; rfl)
    · exact Or.inr ⟨first, rest, rfl, hfirst⟩
    · exact fun pkt hpkt hours => (hproper pkt (harrivals pkt hpkt hours)).2
    · rw [htakes]
      exact hpayload
  refine ⟨hdelivered.results.trans hout.symm, hdelivered.stock.trans hstock.symm, hdelivered.dropped⟩

end Runs

/-! ### Late, repeated and foreign packets -/

/-- The stock is opened and a bid added, in two packets. -/
def earlyPkt : List Byte := Session.examplePkt 1 2 [Session.openMsg, Session.directoryMsg]

def latePkt : List Byte := Session.examplePkt 3 3 [Gating.eventMsg 83, Gating.actionMsg 84, Gating.bidMsg 1]

/-- A heartbeat of another session. -/
def foreignPkt : List Byte := List.replicate 20 0

/-- The first packet twice, a packet of another session, and the second packet twice. -/
def exampleArrivals : List (List Byte) := [earlyPkt, earlyPkt, foreignPkt, latePkt, latePkt]

theorem generated_example : (generateMoldudpPackets exampleMsgs.flatten Session.exampleSession [2, 3, 1]).1 =
    [earlyPkt, latePkt] := by
  have hstream : streamRawItch exampleMsgs.flatten = exampleMsgs :=
    Framing.streamRawItch_flatten (by unfold IsMsg; decide +kernel)
  rw [generateMoldudpPackets, hstream]
  decide +kernel

theorem arrivals_example {pkt : List Byte} (h : pkt ∈ latePkt :: exampleArrivals)
    (hours : ours Session.exampleSession pkt = true) : pkt ∈ [earlyPkt, latePkt] := by
  have hall : (latePkt :: exampleArrivals).filter (ours Session.exampleSession) =
      [latePkt, earlyPkt, earlyPkt, latePkt, latePkt] := by
    decide +kernel
  have hmem := List.mem_filter.2 ⟨h, hours⟩
  rw [hall] at hmem
  simp only [List.mem_cons, List.not_mem_nil, or_false] at hmem ⊢
  tauto

theorem network_safe_example :
    ∃ ms, ms <+: exampleMsgs ∧ Delivered Session.exampleTop (latePkt :: exampleArrivals) ms := by
  have hclean : Clean (Session.exampleTop.processPayload exampleMsgs).1 := by
    have hout : (Session.exampleTop.processPayload exampleMsgs).1 =
        [.result ⟨some ⟨100, 10500⟩, none, none⟩] := by
      decide +kernel
    rw [hout]
    exact fun out h => ⟨_, List.mem_singleton.1 h⟩
  have hearly : WellFramed earlyPkt ∧ (numbered earlyPkt).PartOf 1 exampleMsgs := by
    have hframed : Framed (countOf earlyPkt) (earlyPkt.drop 20) [Session.openMsg, Session.directoryMsg] :=
      ⟨by decide +kernel, by unfold IsMsg; decide +kernel, by decide +kernel⟩
    refine ⟨⟨_, hframed⟩, [], by decide +kernel, ?_⟩
    change [] ++ chunksOf earlyPkt <+: exampleMsgs
    rw [chunksOf_eq (by decide +kernel) hframed]
    exact ⟨_, rfl⟩
  have hlate : WellFramed latePkt ∧ (numbered latePkt).PartOf 1 exampleMsgs := by
    have hframed : Framed (countOf latePkt) (latePkt.drop 20)
        [Gating.eventMsg 83, Gating.actionMsg 84, Gating.bidMsg 1] :=
      ⟨by decide +kernel, by unfold IsMsg; decide +kernel, by decide +kernel⟩
    refine ⟨⟨_, hframed⟩, [Session.openMsg, Session.directoryMsg], by decide +kernel, ?_⟩
    change _ ++ chunksOf latePkt <+: exampleMsgs
    rw [chunksOf_eq (by decide +kernel) hframed]
    exact ⟨[], rfl⟩
  have hfirst : ours Session.exampleSession latePkt = true := by decide +kernel
  apply network_safe Session.exampleTop_init hfirst _ hclean
  intro pkt hpkt hours
  have hmem := arrivals_example hpkt hours
  rw [List.mem_cons, List.mem_singleton] at hmem
  rcases hmem with rfl | rfl
  · exact hearly
  · exact hlate

theorem network_complete_example : (outputs Session.exampleTop (latePkt :: exampleArrivals)).filter isResult =
    [.result ⟨some ⟨100, 10500⟩, none, none⟩] := by
  have hout : outputs Session.exampleTop [earlyPkt, latePkt] =
      [.result ⟨some ⟨100, 10500⟩, none, none⟩] := by
    decide +kernel
  have hclean : Clean (outputs Session.exampleTop
      (generateMoldudpPackets exampleMsgs.flatten Session.exampleSession [2, 3, 1]).1) := by
    rw [generated_example, hout]
    exact fun out h => ⟨_, List.mem_singleton.1 h⟩
  have hsent : (generateMoldudpPackets exampleMsgs.flatten Session.exampleSession [2, 3, 1]).1.Sublist
      (latePkt :: exampleArrivals) := by
    rw [generated_example]
    decide +kernel
  have hcomplete := network_complete Session.exampleTop_init rfl (by decide +kernel)
    (fun pkt hpkt hours => by rw [generated_example]; exact arrivals_example hpkt hours) hsent hclean
  rw [hcomplete.1, generated_example, hout]

end ItchOrderBook.System
