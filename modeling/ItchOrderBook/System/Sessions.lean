import ItchOrderBook.Gating.Stream
import ItchOrderBook.System.Accepted

/-!
# Sessions on the bus

Packets that the reference pipeline takes without an error result or an exception are, on the bus, a
stream of well-formed packets, unless a message has the type `'B'`; what is shown of their messages, at
any locate, is admitted by the control module of the RTL, and at the locate of the stock its book answers
it (`Follows.packets`).
-/

namespace ItchOrderBook.System

open Decode (ValidMsg byteAt view views yielded)
open Framing (Carries Framed countOf)
open Gating (Stream after sent)
open Ref (Byte ITCHMsg Top chr)
open Rtl (Axis ControlRegs)
open Session (Clean)

/-- The cycles carry the packets. The cycles in between, and inside a packet, may be idle. -/
inductive Sent : List (List Byte) → List Axis → Prop
  | idle {cycles : List Axis} (h : ∀ axis ∈ cycles, axis.tvalid = false) : Sent [] cycles
  | packet {pkt : List Byte} {pkts : List (List Byte)} {cycles cycles' : List Axis}
    (hc : Carries pkt (cycles.filter fun axis => axis.tvalid)) (h : Sent pkts cycles') :
    Sent (pkt :: pkts) (cycles ++ cycles')

/-- The packet has the chunk. -/
def HasChunk (pkt m : List Byte) : Prop :=
  ∃ chunks, Framed (countOf pkt) (pkt.drop 20) chunks ∧ m ∈ chunks

/-- No message of the packets has the type `'B'`. -/
def NoTypeB (pkts : List (List Byte)) : Prop :=
  ∀ pkt ∈ pkts, ∀ m, HasChunk pkt m → chr (byteAt m 2) ≠ 'B'

section Chunks

variable {m : List Byte}

/-- A message that is parsed is valid for the RTL. -/
theorem validMsg_of_isRet (h : (Ref.ITCHParser.parseMsg m).IsRet) (hB : chr (byteAt m 2) ≠ 'B') :
    ValidMsg 19 m :=
  (Decode.validMsg_congr hB).1
    ((Decode.isRet_iff (Decode.length_of_isRet h) (Decode.hasSymbol_of_isRet h)).1 h)

/-- What the RTL sends of it is what the reference yields. -/
theorem decodeMsg_of_isRet (loc : BitVec 16) (h : (Ref.ITCHParser.parseMsg m).IsRet)
    (hB : chr (byteAt m 2) ≠ 'B') : Decode.decodeMsg loc m = some (yielded loc m) := by
  rw [Decode.decodeMsg_eq loc (Decode.length_of_isRet h) (Decode.hasSymbol_of_isRet h) hB, yielded]
  obtain ⟨msgs, hmsgs⟩ := h
  rw [hmsgs]
  rfl

theorem sent_cons (loc : BitVec 16) (msgs : List (List Byte)) (packets : List (List (List Byte))) :
    sent loc (msgs :: packets) = sent loc [msgs] ++ sent loc packets := by
  rw [sent, sent, sent, List.flatten_cons, List.flatMap_append, List.flatten_cons, List.flatten_nil,
    List.append_nil]

/-- The control module sees the same of the messages, whatever locate its orders are shown for. -/
theorem foldl_view (loc loc' : BitVec 16) (hr : Bool) (m : ITCHMsg) (q : ControlRegs) :
    (view loc hr m).foldl after q = (view loc' hr m).foldl after q := by
  cases m with
  | book o => rw [foldl_after_book, foldl_after_book]
  | systemEvent l e => rfl
  | directory l t => rfl
  | tradeAction l t a => rfl
  | opHalt l t c b => rfl
  | other l => rfl

theorem foldl_views (loc loc' : BitVec 16) (msgs : List ITCHMsg) (q : ControlRegs) :
    (views loc msgs).foldl after q = (views loc' msgs).foldl after q := by
  induction msgs generalizing q with
  | nil => rfl
  | cons m msgs ih => rw [views, views, List.foldl_append, List.foldl_append, foldl_view loc loc', ih]

theorem foldl_yielded (loc loc' : BitVec 16) (msgs : List (List Byte)) (q : ControlRegs) :
    (msgs.flatMap (yielded loc)).foldl after q = (msgs.flatMap (yielded loc')).foldl after q := by
  induction msgs generalizing q with
  | nil => rfl
  | cons m msgs ih =>
    have hm : (yielded loc m).foldl after q = (yielded loc' m).foldl after q := by
      rw [yielded, yielded]
      cases Ref.ITCHParser.parseMsg m with
      | ret msgs => exact foldl_views loc loc' msgs q
      | err c => rfl
      | raise e => rfl
    rw [List.flatMap_cons, List.flatMap_cons, List.foldl_append, List.foldl_append, hm, ih]

/-- The messages of a packet that is taken. -/
theorem sent_packet (loc : BitVec 16) {msgs : List (List Byte)}
    (h : ∀ m ∈ msgs, (Ref.ITCHParser.parseMsg m).IsRet) (hB : ∀ m ∈ msgs, chr (byteAt m 2) ≠ 'B') :
    sent loc [msgs] = msgs.flatMap (yielded loc) := by
  rw [sent, List.flatten_cons, List.flatten_nil, List.append_nil]
  refine List.flatMap_congr fun m hm => ?_
  rw [decodeMsg_of_isRet loc (h m hm) (hB m hm)]
  rfl

/-- The control module sees the same of them, whatever locate the orders are shown for. -/
theorem foldl_sent (loc loc' : BitVec 16) {msgs : List (List Byte)}
    (h : ∀ m ∈ msgs, (Ref.ITCHParser.parseMsg m).IsRet) (hB : ∀ m ∈ msgs, chr (byteAt m 2) ≠ 'B')
    {q : ControlRegs} : (sent loc [msgs]).foldl after q = (sent loc' [msgs]).foldl after q := by
  rw [sent_packet loc h hB, sent_packet loc' h hB, foldl_yielded loc loc']

end Chunks

section Packets

variable {mkt : Rtl.Market} {sym : String} {loc : BitVec 16} {q : ControlRegs} {s : Top {}}
  {pkt : List Byte} {pkts msgs : List (List Byte)} {cycles : List Axis}

/-- The reference takes the packet, and its messages are these. -/
structure Unpacks (s : Top {}) (pkt : List Byte) (msgs : List (List Byte)) : Prop where
  length : 20 ≤ pkt.length
  header : Framing.HeaderOk s.np pkt
  framed : Framed (countOf pkt) (pkt.drop 20) msgs
  line : s.processPkt pkt = ((s.processPayload msgs).1,
    Session.onLine (s.processPayload msgs).2 s.axis (s.np.processPkt pkt).2)
  parsed : ∀ m ∈ msgs, (Ref.ITCHParser.parseMsg m).IsRet
  noTypeB : ∀ m ∈ msgs, chr (byteAt m 2) ≠ 'B'

/-- Such a packet in front of a stream. -/
theorem Unpacks.stream (h : Unpacks s pkt msgs) {packets : List (List (List Byte))} {cycles' : List Axis}
    (hc : Carries pkt (cycles.filter fun axis => axis.tvalid))
    (hs : Stream (s.processPkt pkt).2.np packets cycles') :
    Stream s.np (msgs :: packets) (cycles ++ cycles') := by
  have hnp : (s.processPkt pkt).2.np = (s.np.processPkt pkt).2 := congrArg (fun r => r.2.np) h.line
  rw [hnp] at hs
  exact .packet h.length h.header h.framed (fun m hm => validMsg_of_isRet (h.parsed m hm) (h.noTypeB m hm))
    hc hs

/-- **One packet that the reference takes.** -/
theorem Follows.packet (h : Follows mkt sym loc q s) (hsym : sym.toByteArray.size = 8)
    (hB : ∀ m, HasChunk pkt m → chr (byteAt m 2) ≠ 'B') (hclean : Clean (s.processPkt pkt).1)
    (hknown : ∀ l, (s.processPkt pkt).2.stockLocate = some l → l = loc.toNat) :
    ∃ msgs, Unpacks s pkt msgs ∧
      ∀ loc', ∃ results, (s.processPkt pkt).1 = results.map .result ∧
        Served mkt sym loc loc' q s (sent loc' [msgs]) results (s.processPkt pkt).2 := by
  have hno : ∀ c np, s.np.processPkt pkt ≠ (.err c, np) := by
    intro c np hp
    rw [Top.processPkt, hp] at hclean
    obtain ⟨r, hr⟩ := hclean _ (List.mem_singleton_self _)
    cases hr
  rcases Framing.processPkt_spec s.np pkt with ⟨-, c, hp⟩ | ⟨-, -, c, hp⟩ | ⟨-, -, -, c, hp⟩ |
    ⟨hlen, hok, msgs, hfr, hp⟩
  · exact absurd hp (hno _ _)
  · exact absurd hp (hno _ _)
  · exact absurd hp (hno _ _)
  have hpkt : s.processPkt pkt = ({ s with np := Framing.advanced s.np pkt } : Top {}).processPayload msgs := by
    rw [Top.processPkt, hp]
  have h' : Follows mkt sym loc q ({ s with np := Framing.advanced s.np pkt } : Top {}) :=
    ⟨h.config, h.agree, h.synced, h.active, h.known⟩
  have hline : s.processPkt pkt = ((s.processPayload msgs).1,
      Session.onLine (s.processPayload msgs).2 s.axis (s.np.processPkt pkt).2) := by
    rw [hpkt, hp]
    exact Session.processPayload_onLine s s.axis (Framing.advanced s.np pkt) msgs
  rw [hpkt] at hclean hknown
  have hBmsgs : ∀ m ∈ msgs, chr (byteAt m 2) ≠ 'B' := fun m hm => hB m ⟨msgs, hfr, hm⟩
  obtain ⟨hret, -⟩ := h'.payload hsym hclean hknown loc
  refine ⟨msgs, ⟨hlen, hok, hfr, hline, hret, hBmsgs⟩, fun loc' => ?_⟩
  rw [hpkt, sent_packet loc' hret hBmsgs]
  obtain ⟨-, results, hout, hserved⟩ := h'.payload hsym hclean hknown loc'
  exact ⟨results, hout, hserved.follows, hserved.admits, hserved.serves⟩

/-- **The packets of a session that the reference takes.** -/
theorem Follows.packets (h : Follows mkt sym loc q s) (hsym : sym.toByteArray.size = 8)
    (hsent : Sent pkts cycles) (hB : NoTypeB pkts) (hclean : Clean (outputs s pkts))
    (hknown : ∀ l, ((Top.onPkts {}).run s pkts).stockLocate = some l → l = loc.toNat) :
    ∃ packets, Stream s.np packets cycles ∧
      (∀ m ∈ packets.flatten, (Ref.ITCHParser.parseMsg m).IsRet ∧ ∃ pkt ∈ pkts, HasChunk pkt m) ∧
      ∀ loc', ∃ results, outputs s pkts = results.map .result ∧
        Served mkt sym loc loc' q s (sent loc' packets) results ((Top.onPkts {}).run s pkts) := by
  induction hsent generalizing q s with
  | idle hidle =>
    exact ⟨[], .idle hidle, fun m hm => absurd hm List.not_mem_nil, fun loc' => ⟨[], rfl, h.served_nil⟩⟩
  | @packet pkt pkts cycles cycles' hc hs ih =>
    rw [outputs_cons, Session.clean_append] at hclean
    have hknown₁ : ∀ l, (s.processPkt pkt).2.stockLocate = some l → l = loc.toNat := fun l hl =>
      hknown l ((kept_locate l).packets hl pkts)
    obtain ⟨msgs, hunpacks, hserved⟩ := h.packet hsym (hB pkt List.mem_cons_self) hclean.1 hknown₁
    obtain ⟨_, -, hserved₀⟩ := hserved loc
    obtain ⟨packets, hstream, hchunks, hrest⟩ := ih hserved₀.follows
      (fun p hp => hB p (List.mem_cons_of_mem pkt hp)) hclean.2 hknown
    refine ⟨msgs :: packets, hunpacks.stream hc hstream, ?_, fun loc' => ?_⟩
    · intro m hm
      rw [List.flatten_cons, List.mem_append] at hm
      rcases hm with hm | hm
      · exact ⟨hunpacks.parsed m hm, pkt, List.mem_cons_self, msgs, hunpacks.framed, hm⟩
      · obtain ⟨hm', p, hp, hchunk⟩ := hchunks m hm
        exact ⟨hm', p, List.mem_cons_of_mem pkt hp, hchunk⟩
    · obtain ⟨results, hres, hserved'⟩ := hserved loc'
      obtain ⟨results', hres', hrest'⟩ := hrest loc'
      rw [foldl_sent loc loc' hunpacks.parsed hunpacks.noTypeB] at hrest'
      refine ⟨results ++ results', ?_, ?_⟩
      · rw [outputs_cons, hres, hres', List.map_append]
      · rw [sent_cons]
        exact hserved'.append hrest'

end Packets

/-! ### A session -/

/-- The stock is opened, and a bid added. -/
def exampleMsgs : List (List Byte) :=
  [Session.openMsg, Session.directoryMsg, Gating.eventMsg 83, Gating.actionMsg 84, Gating.bidMsg 1]

/-- An offer for 50 shares. -/
def offerMsg : List Byte :=
  [0, 36, 0x41, 0, 7, 0, 0, 0, 0, 0, 0, 0, 0] ++ [0, 0, 0, 0, 0, 0, 0, 2] ++ [83] ++ [0, 0, 0, 50] ++
    [69, 88, 65, 77, 80, 76, 69, 49] ++ [0, 0, 41, 104]

/-- The offer is added, and a part of the bid executed. -/
def tradeMsgs : List (List Byte) :=
  [offerMsg, [0, 31, 0x45, 0, 7, 0, 0, 0, 0, 0, 0, 0, 0] ++ [0, 0, 0, 0, 0, 0, 0, 1] ++ [0, 0, 0, 40] ++
    List.replicate 8 0]

/-- The bid is replaced, and the offer deleted. -/
def changeMsgs : List (List Byte) :=
  [[0, 35, 0x55, 0, 7, 0, 0, 0, 0, 0, 0, 0, 0] ++ [0, 0, 0, 0, 0, 0, 0, 1] ++
      [0, 0, 0, 0, 0, 0, 0, 3] ++ [0, 0, 0, 80] ++ [0, 0, 41, 54],
    [0, 19, 0x44, 0, 7, 0, 0, 0, 0, 0, 0, 0, 0] ++ [0, 0, 0, 0, 0, 0, 0, 2]]

/-- The packets, with a heartbeat among them. -/
def examplePkts : List (List Byte) :=
  [Session.examplePkt 1 5 exampleMsgs, Session.examplePkt 6 2 tradeMsgs, Session.examplePkt 8 0 [],
    Session.examplePkt 8 2 changeMsgs]

/-- Their messages. -/
def sessionMsgs : List (List Byte) := exampleMsgs ++ tradeMsgs ++ changeMsgs

theorem isMsg_example : ∀ m ∈ sessionMsgs, Framing.IsMsg m := by
  unfold Framing.IsMsg
  decide +kernel

theorem framed_examplePkt {seq count : Byte} {msgs : List (List Byte)} (hlen : msgs.length = count.toNat)
    (hmsgs : ∀ m ∈ msgs, Framing.IsMsg m) :
    Framed (countOf (Session.examplePkt seq count msgs)) ((Session.examplePkt seq count msgs).drop 20)
      msgs := by
  have hcount : countOf (Session.examplePkt seq count msgs) = count.toNat := by
    simp [Session.examplePkt, countOf, Ref.slice, Ref.fromBytes]
  exact ⟨hlen.trans hcount.symm, hmsgs, by simp [Session.examplePkt]⟩

/-- The chunks of the packets are the messages. -/
theorem hasChunk_example {pkt m : List Byte} (hpkt : pkt ∈ examplePkts) (h : HasChunk pkt m) :
    m ∈ sessionMsgs := by
  have hmsgs : ∀ {seq count : Byte} {msgs : List (List Byte)}, msgs.length = count.toNat →
      msgs ⊆ sessionMsgs → HasChunk (Session.examplePkt seq count msgs) m → m ∈ sessionMsgs := by
    rintro seq count msgs hlen hsub ⟨chunks, hframed, hmem⟩
    rw [Framing.framed_unique hframed
      (framed_examplePkt hlen fun m' hm' => isMsg_example m' (hsub hm'))] at hmem
    exact hsub hmem
  simp only [examplePkts, List.mem_cons, List.not_mem_nil, or_false] at hpkt
  rcases hpkt with rfl | rfl | rfl | rfl <;> exact hmsgs (by decide) (by decide +kernel) h

/-- The orders of the session. -/
def exampleOrders : List Ref.BookMsg :=
  [.add 7 1 true 100 10500, .add 7 2 false 50 10600, .reduce 7 1 40, .delete 7 1, .replace 7 3 80 10550,
    .delete 7 2]

theorem orders_example {pkt m : List Byte} (hpkt : pkt ∈ examplePkts) (h : HasChunk pkt m)
    {msgs : List ITCHMsg} (hmsgs : Ref.ITCHParser.parseMsg m = .ret msgs) {o : Ref.BookMsg}
    (ho : .book o ∈ msgs) : o ∈ exampleOrders := by
  have hparsed : sessionMsgs.map Ref.ITCHParser.parseMsg =
      [.ret [.systemEvent 0 .msgBegin], .ret [.directory 7 "EXAMPLE1"], .ret [.systemEvent 0 .sysBegin],
        .ret [.tradeAction 7 "EXAMPLE1" .trade], .ret [.book (.add 7 1 true 100 10500)],
        .ret [.book (.add 7 2 false 50 10600)], .ret [.book (.reduce 7 1 40)],
        .ret [.book (.delete 7 1), .book (.replace 7 3 80 10550)], .ret [.book (.delete 7 2)]] := by
    decide +kernel
  have hmem : Ref.ITCHParser.parseMsg m ∈ sessionMsgs.map Ref.ITCHParser.parseMsg :=
    List.mem_map_of_mem (hasChunk_example hpkt h)
  rw [hparsed, hmsgs] at hmem
  simp only [List.mem_cons, Ref.Outcome.ret.injEq, List.not_mem_nil, or_false] at hmem
  rcases hmem with rfl | rfl | rfl | rfl | rfl | rfl | rfl | rfl | rfl <;>
    simp only [List.mem_cons, List.not_mem_nil, or_false, ITCHMsg.book.injEq, reduceCtorEq] at ho <;>
    simp only [exampleOrders, List.mem_cons, List.not_mem_nil, or_false] <;> tauto

/-- The results of the session. -/
def exampleResults : List Ref.TopOut :=
  [.result ⟨some ⟨100, 10500⟩, none, none⟩, .result ⟨some ⟨100, 10500⟩, some ⟨50, 10600⟩, some 100⟩,
    .result ⟨some ⟨60, 10500⟩, some ⟨50, 10600⟩, some 100⟩,
    .result ⟨some ⟨80, 10550⟩, some ⟨50, 10600⟩, some 50⟩, .result ⟨some ⟨80, 10550⟩, none, none⟩]

theorem outputs_example : outputs Session.exampleTop examplePkts = exampleResults := by
  decide +kernel

theorem clean_exampleResults : Clean exampleResults := by
  intro out hout
  simp only [exampleResults, List.mem_cons, List.not_mem_nil, or_false] at hout
  rcases hout with rfl | rfl | rfl | rfl | rfl <;> exact ⟨_, rfl⟩

end ItchOrderBook.System
