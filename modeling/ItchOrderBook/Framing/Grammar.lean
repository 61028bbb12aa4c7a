import ItchOrderBook.Framing.Delivery

/-!
# The packet grammar

A packet is a session id, a sequence number, a message count and that many chunks, each of them two
length bytes and a body of that length (`Packet`). The reference parser accepts exactly the packets of
its session that carry the expected number, and returns their chunks (`processPkt_ret_iff`).
-/

namespace ItchOrderBook.Framing

open Ref

/-- Two big-endian length bytes, and a body of that length. -/
def Chunk (m : List Byte) : Prop :=
  ∃ len body : List Byte, m = len ++ body ∧ len.length = 2 ∧ fromBytes len = body.length

/-- The bytes are a session id, a sequence number, the number of the chunks, and the chunks. -/
structure Packet (pkt session : List Byte) (seq : ℕ) (chunks : List (List Byte)) : Prop where
  bytes : ∃ number count : List Byte, pkt = session ++ number ++ count ++ chunks.flatten ∧
    number.length = 8 ∧ fromBytes number = seq ∧ count.length = 2 ∧ fromBytes count = chunks.length
  session : session.length = 10
  chunk : ∀ m ∈ chunks, Chunk m

theorem chunk_iff {m : List Byte} : Chunk m ↔ IsMsg m := by
  constructor
  · rintro ⟨len, body, rfl, hlen, hbody⟩
    refine ⟨by rw [List.length_append]; omega, ?_⟩
    rw [List.take_left' hlen, List.length_append, hlen, hbody]
  · rintro ⟨htwo, hlen⟩
    refine ⟨m.take 2, m.drop 2, (List.take_append_drop 2 m).symm, ?_, ?_⟩
    · rw [List.length_take]
      omega
    · rw [List.length_drop]
      omega

/-- The fields of the header, and what is behind it. -/
theorem header_append {session number count rest : List Byte} (hs : session.length = 10)
    (hn : number.length = 8) (hc : count.length = 2) :
    sessionOf (session ++ number ++ count ++ rest) = session ∧
      seqOf (session ++ number ++ count ++ rest) = fromBytes number ∧
      countOf (session ++ number ++ count ++ rest) = fromBytes count ∧
      (session ++ number ++ count ++ rest).drop 20 = rest := by
  have hlen : (session ++ number ++ count).length = 20 := by simp [hs, hn, hc]
  refine ⟨?_, congrArg fromBytes ?_, congrArg fromBytes ?_, List.drop_left' hlen⟩
  · have hsplit : session ++ number ++ count ++ rest = [] ++ session ++ (number ++ count ++ rest) := by
      simp
    rw [sessionOf, hsplit]
    exact slice_append rfl (by rw [hs])
  · have hsplit : session ++ number ++ count ++ rest = session ++ number ++ (count ++ rest) := by simp
    rw [hsplit]
    exact slice_append hs.symm (by rw [hn])
  · exact slice_append (by simp [hs, hn]) (by rw [hc])

/-- A packet by its header fields and its payload. -/
theorem packet_iff {pkt session : List Byte} {seq : ℕ} {chunks : List (List Byte)} :
    Packet pkt session seq chunks ↔ 20 ≤ pkt.length ∧ sessionOf pkt = session ∧ seqOf pkt = seq ∧
      Framed (countOf pkt) (pkt.drop 20) chunks := by
  constructor
  · rintro ⟨⟨number, count, rfl, hn, rfl, hc, hcount⟩, hs, hchunk⟩
    obtain ⟨h1, h2, h3, h4⟩ : sessionOf _ = session ∧ seqOf _ = _ ∧ countOf _ = _ ∧
      (session ++ number ++ count ++ chunks.flatten).drop 20 = chunks.flatten := header_append hs hn hc
    refine ⟨by simp only [List.length_append]; omega, h1, h2, ?_⟩
    rw [h3, h4]
    exact ⟨hcount.symm, fun m hm => chunk_iff.1 (hchunk m hm), rfl⟩
  · rintro ⟨hlen, rfl, rfl, hcount, hmsg, hflat⟩
    have hpkt : pkt = slice pkt 0 10 ++ slice pkt 10 18 ++ slice pkt 18 20 ++ pkt.drop 20 := by
      rw [slice_append_slice pkt (by omega) (by omega), slice_append_slice pkt (by omega) (by omega)]
      exact (List.take_append_drop 20 pkt).symm
    refine ⟨⟨slice pkt 10 18, slice pkt 18 20, ?_, ?_, rfl, ?_, hcount.symm⟩, ?_,
      fun m hm => chunk_iff.2 (hmsg m hm)⟩
    · rw [hflat]
      exact hpkt
    · rw [length_slice]
      omega
    · rw [length_slice]
      omega
    · rw [sessionOf, length_slice]
      omega

section Call

variable {s : MoldUDP64Parser} {pkt session : List Byte} {chunks : List (List Byte)}

theorem headerOk_iff : HeaderOk s pkt ↔
    (s.firstPktReceived = true → s.sessionId = some (sessionOf pkt)) ∧ seqOf pkt = s.seqExpected := by
  rw [HeaderOk]
  cases s.firstPktReceived <;> simp

/-- A packet of the session with the expected number is accepted, and counted. -/
theorem processPkt_packet (hs : s.firstPktReceived = true → s.sessionId = some session)
    (hp : Packet pkt session s.seqExpected chunks) : ∃ s', s.processPkt pkt = (.ret chunks, s') ∧
      s'.seqExpected = s.seqExpected + chunks.length ∧ s'.sessionId = some session := by
  obtain ⟨hlen, rfl, hseq, hf⟩ := packet_iff.1 hp
  have hok : HeaderOk s pkt := headerOk_iff.2 ⟨hs, hseq⟩
  rcases processPkt_spec s pkt with ⟨hlt, -⟩ | ⟨-, hno, -⟩ | ⟨-, -, hno, -⟩ | ⟨-, -, msgs, hf', h⟩
  · omega
  · exact absurd hok hno
  · exact absurd ⟨chunks, hf⟩ hno
  · obtain rfl := framed_unique hf hf'
    refine ⟨_, h, ?_, ?_⟩
    · rw [hf.length]
      simp [advanced]
    · have hsession : (advanced s pkt).sessionId = (opened s pkt).sessionId := rfl
      rw [hsession, opened]
      cases hfirst : s.firstPktReceived
      · rfl
      · exact hs hfirst

/-- **The parser accepts exactly its packet grammar**, and returns the chunks. -/
theorem processPkt_ret_iff (s : MoldUDP64Parser) (pkt : List Byte) (chunks : List (List Byte)) :
    (s.processPkt pkt).1 = .ret chunks ↔
      ∃ session, (s.firstPktReceived = true → s.sessionId = some session) ∧
        Packet pkt session s.seqExpected chunks := by
  constructor
  · intro hret
    rcases processPkt_spec s pkt with ⟨-, c, h⟩ | ⟨-, -, c, h⟩ | ⟨-, -, -, c, h⟩ | ⟨hlen, hok, msgs, hf, h⟩
    all_goals rw [h] at hret
    · cases hret
    · cases hret
    · cases hret
    · obtain rfl := Outcome.ret.inj hret
      obtain ⟨hs, hseq⟩ := headerOk_iff.1 hok
      exact ⟨sessionOf pkt, hs, packet_iff.2 ⟨hlen, rfl, hseq, hf⟩⟩
  · rintro ⟨session, hs, hp⟩
    obtain ⟨s', h, -⟩ := processPkt_packet hs hp
    rw [h]

end Call

end ItchOrderBook.Framing
