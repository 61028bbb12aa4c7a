import ItchOrderBook.Framing.Grammar
import ItchOrderBook.Ref.StreamPkt

/-!
# The packet generator and the packet parser

The packets of the generator are accepted one after another, and the parser returns their messages. The
batch that runs into the end of the file is dropped, though. So all messages of the file are delivered
exactly if the batches before it are all of them (`delivers_iff`).
-/

namespace ItchOrderBook.Framing

open Ref

/-! ### The file -/

/-- The messages of a file of complete messages. -/
theorem streamRawItch_flatten {msgs : List (List Byte)} (h : ∀ m ∈ msgs, IsMsg m) :
    streamRawItch msgs.flatten = msgs := by
  induction msgs with
  | nil =>
    rw [streamRawItch]
    rfl
  | cons m msgs ih =>
    obtain ⟨⟨htwo, hlen⟩, hrest⟩ := List.forall_mem_cons.1 h
    have htake : (m ++ msgs.flatten).take 2 = m.take 2 := List.take_append_of_le_length htwo
    have hdrop : (m ++ msgs.flatten).drop 2 = m.drop 2 ++ msgs.flatten :=
      List.drop_append_of_le_length htwo
    have hbody : (m.drop 2).length = fromBytes (m.take 2) := by
      rw [List.length_drop]
      omega
    rw [List.flatten_cons, streamRawItch, htake, hdrop]
    rw [dif_neg (by rw [List.length_take]; omega)]
    dsimp only
    rw [List.take_left' hbody, List.drop_left' hbody, if_neg (by omega), List.take_append_drop, ih hrest]

/-- Each message of a file is complete. -/
theorem isMsg_of_mem_stream {file m : List Byte} (hm : m ∈ streamRawItch file) : IsMsg m := by
  fun_induction streamRawItch file with
  | case1 => cases hm
  | case2 => cases hm
  | case3 file lenBytes hlen msgLen msg hmsg ih =>
    rcases List.mem_cons.1 hm with rfl | hm
    · have htwo : lenBytes.length = 2 := by
        have : lenBytes.length ≤ 2 := List.length_take_le 2 file
        omega
      have hbody : msg.length = msgLen := by
        have : msg.length ≤ msgLen := List.length_take_le _ _
        omega
      have htake : (lenBytes ++ msg).take 2 = lenBytes := List.take_left' htwo
      rw [IsMsg, htake, List.length_append]
      omega
    · exact ih hm

/-- A batch is cut off the stream, if there are enough messages. -/
theorem takeBatch_eq (n : ℕ) (stream : List (List Byte)) :
    takeBatch n stream =
      if n ≤ stream.length then some ((stream.take n).flatten, stream.drop n) else none := by
  induction n generalizing stream with
  | zero => simp [takeBatch]
  | succ n ih =>
    cases stream with
    | nil => simp [takeBatch]
    | cons m stream =>
      rw [takeBatch, ih, List.length_cons]
      by_cases h : n ≤ stream.length
      · rw [if_pos h, if_pos (Nat.succ_le_succ h)]
        rfl
      · rw [if_neg h, if_neg fun h' => h (Nat.le_of_succ_le_succ h')]
        rfl

/-! ### The packets -/

/-- The messages that the parser returns for packets, if it accepts all of them. -/
def payloads (s : MoldUDP64Parser) : List (List Byte) → Option (List (List Byte))
  | [] => some []
  | pkt :: pkts =>
    match s.processPkt pkt with
    | (.ret payload, s) => (payloads s pkts).map (payload ++ ·)
    | _ => none

/-- The generator reads the file to its end, and the parser returns exactly its messages. -/
def Delivers (sessionId : List Byte) (msgs : List (List Byte)) (batchSizes : List ℕ) : Prop :=
  (generateMoldudpPackets msgs.flatten sessionId batchSizes).2 = .fileEnd ∧
    payloads .new (generateMoldudpPackets msgs.flatten sessionId batchSizes).1 = some msgs

/-- The header fields of the batches fit, from a sequence number on. -/
def HeadersFit (seq : ℕ) (batches : List ℕ) : Prop :=
  (∀ n ∈ batches, n < 2 ^ 16) ∧ ∀ i < batches.length, seq + (batches.take i).sum < 2 ^ 64

theorem headersFit_cons {seq n : ℕ} {batches : List ℕ} :
    HeadersFit seq (n :: batches) ↔ (seq < 2 ^ 64 ∧ n < 2 ^ 16) ∧ HeadersFit (seq + n) batches := by
  rw [HeadersFit, HeadersFit, List.forall_mem_cons]
  constructor
  · rintro ⟨⟨hn, hall⟩, hseq⟩
    refine ⟨⟨hseq 0 (Nat.succ_pos _), hn⟩, hall, fun i hi => ?_⟩
    have := hseq (i + 1) (Nat.succ_lt_succ hi)
    rw [List.take_succ_cons, List.sum_cons] at this
    omega
  · rintro ⟨⟨hs, hn⟩, hall, hseq⟩
    refine ⟨⟨hn, hall⟩, fun i hi => ?_⟩
    cases i with
    | zero => exact hs
    | succ i =>
      have := hseq i (Nat.lt_of_succ_lt_succ hi)
      rw [List.take_succ_cons, List.sum_cons]
      omega

/-- The messages before the batch that runs into the end of the file are all `n` messages. -/
def EndsEven (seq n : ℕ) (batchSizes : List ℕ) : Prop :=
  ∃ sent last rest, batchSizes = sent ++ last :: rest ∧ 0 < last ∧ sent.sum = n ∧ HeadersFit seq sent

theorem not_endsEven_nil {seq n : ℕ} : ¬ EndsEven seq n [] := by
  rintro ⟨sent, last, rest, h, -⟩
  simp at h

/-- The batch that runs into the end of the file. -/
theorem endsEven_last {seq n b : ℕ} {bs : List ℕ} (h : n < b) : EndsEven seq n (b :: bs) ↔ n = 0 := by
  constructor
  · rintro ⟨sent, last, rest, hsplit, -, hsum, -⟩
    cases sent with
    | nil => exact hsum.symm
    | cons c sent =>
      obtain ⟨rfl, -⟩ := List.cons.inj hsplit
      rw [List.sum_cons] at hsum
      omega
  · rintro rfl
    exact ⟨[], b, bs, rfl, h, rfl, by simp, by simp⟩

/-- A batch that is sent. -/
theorem endsEven_cons {seq n b : ℕ} {bs : List ℕ} (h : b ≤ n) :
    EndsEven seq n (b :: bs) ↔ (seq < 2 ^ 64 ∧ b < 2 ^ 16) ∧ EndsEven (seq + b) (n - b) bs := by
  constructor
  · rintro ⟨sent, last, rest, hsplit, hpos, hsum, hfit⟩
    cases sent with
    | nil =>
      obtain ⟨rfl, -⟩ := List.cons.inj hsplit
      rw [List.sum_nil] at hsum
      omega
    | cons c sent =>
      obtain ⟨rfl, hsplit'⟩ := List.cons.inj hsplit
      obtain ⟨hb, hfit'⟩ := headersFit_cons.1 hfit
      rw [List.sum_cons] at hsum
      exact ⟨hb, sent, last, rest, hsplit', hpos, by omega, hfit'⟩
  · rintro ⟨hb, sent, last, rest, rfl, hpos, hsum, hfit⟩
    refine ⟨b :: sent, last, rest, rfl, hpos, ?_, headersFit_cons.2 ⟨hb, hfit⟩⟩
    rw [List.sum_cons]
    omega

section Run

variable {sessionId : List Byte}

/-- A generated packet is accepted. -/
theorem processPkt_generated (hid : sessionId.length = 10) {s : MoldUDP64Parser} {n : ℕ}
    {header : List Byte} {stream : List (List Byte)} (hmsgs : ∀ m ∈ stream, IsMsg m)
    (hn : n ≤ stream.length) (hs : s.firstPktReceived = true → s.sessionId = some sessionId)
    (hheader : packHeader sessionId s.seqExpected n = some header) :
    ∃ s', s.processPkt (header ++ (stream.take n).flatten) = (.ret (stream.take n), s') ∧
      s'.seqExpected = s.seqExpected + n ∧ s'.sessionId = some sessionId := by
  rw [packHeader] at hheader
  split_ifs at hheader with hfit
  rw [List.take_left' hid] at hheader
  obtain rfl := Option.some.inj hheader
  have hlen : (stream.take n).length = n := List.length_take_of_le hn
  have hcount : fromBytes (toBytes 2 n) = n := fromBytes_toBytes hfit.2
  have hp : Packet (sessionId ++ toBytes 8 s.seqExpected ++ toBytes 2 n ++ (stream.take n).flatten)
      sessionId s.seqExpected (stream.take n) :=
    ⟨⟨_, _, rfl, length_toBytes 8 _, fromBytes_toBytes hfit.1, length_toBytes 2 _, by rw [hcount, hlen]⟩,
      hid, fun m hm => chunk_iff.2 (hmsgs m (List.mem_of_mem_take hm))⟩
  obtain ⟨s', h, hseq, hsession⟩ := processPkt_packet hs hp
  exact ⟨s', h, by rw [hseq, hlen], hsession⟩

/-- **The batches one after another.** -/
theorem generateFrom_iff (hid : sessionId.length = 10) {s : MoldUDP64Parser}
    {stream : List (List Byte)} {batchSizes : List ℕ} (hmsgs : ∀ m ∈ stream, IsMsg m)
    (hs : s.firstPktReceived = true → s.sessionId = some sessionId) :
    ((generateFrom sessionId s.seqExpected stream batchSizes).2 = .fileEnd ∧
        payloads s (generateFrom sessionId s.seqExpected stream batchSizes).1 = some stream) ↔
      EndsEven s.seqExpected stream.length batchSizes := by
  induction batchSizes generalizing s stream with
  | nil => exact iff_of_false (fun h => by cases h.1) not_endsEven_nil
  | cons b bs ih =>
    rw [generateFrom, takeBatch_eq]
    by_cases hb : b ≤ stream.length
    · -- the batch is complete
      rw [if_pos hb, endsEven_cons hb]
      dsimp only
      cases hheader : packHeader sessionId s.seqExpected b with
      | none =>
        refine iff_of_false (fun h => by cases h.1) fun h => ?_
        rw [packHeader, if_pos h.1] at hheader
        cases hheader
      | some header =>
        have hfit : s.seqExpected < 2 ^ 64 ∧ b < 2 ^ 16 := by
          rw [packHeader] at hheader
          split_ifs at hheader with hfit
          exact hfit
        obtain ⟨s', hp, hseq, hsession⟩ := processPkt_generated hid hmsgs hb hs hheader
        have hdrop : ∀ m ∈ stream.drop b, IsMsg m := fun m hm => hmsgs m (List.mem_of_mem_drop hm)
        have hrest := ih hdrop fun _ => hsession
        rw [hseq, List.length_drop] at hrest
        rw [and_iff_right hfit, ← hrest]
        dsimp only
        rw [payloads, hp]
        dsimp only
        refine and_congr_right fun _ => ?_
        rw [Option.map_eq_some_iff]
        constructor
        · rintro ⟨out, hout, happend⟩
          rw [hout, List.append_cancel_left (happend.trans (List.take_append_drop b stream).symm)]
        · intro h
          exact ⟨_, h, List.take_append_drop b stream⟩
    · -- the file ends in the batch
      rw [if_neg hb, endsEven_last (not_le.1 hb)]
      dsimp only
      rw [payloads, and_iff_right rfl, Option.some.injEq, List.length_eq_zero_iff, eq_comm]

end Run

/-- **Generator and parser are inverse** exactly if the file does not end inside a batch, and the header
fields of the packets fit. -/
theorem delivers_iff {sessionId : List Byte} {msgs : List (List Byte)} (hid : sessionId.length = 10)
    (hmsgs : ∀ m ∈ msgs, IsMsg m) (batchSizes : List ℕ) :
    Delivers sessionId msgs batchSizes ↔ EndsEven 1 msgs.length batchSizes := by
  rw [Delivers, generateMoldudpPackets, streamRawItch_flatten hmsgs]
  exact generateFrom_iff (s := .new) hid hmsgs fun h => absurd h Bool.false_ne_true

/-- A message of one byte. -/
def tiny : List Byte := [0, 1, 65]

theorem delivers_iff_tiny : Delivers (List.replicate 10 0) [tiny, tiny, tiny] [2, 1, 3] :=
  (delivers_iff rfl (by unfold IsMsg; decide) _).2 ⟨[2, 1], 3, [], rfl, by decide, rfl, by decide, by decide⟩

/-- **Messages are lost** at the end of the file: two of three are delivered in batches of two. -/
theorem not_delivers_tiny :
    (generateMoldudpPackets [tiny, tiny, tiny].flatten (List.replicate 10 0) [2, 2]).2 = .fileEnd ∧
      payloads .new (generateMoldudpPackets [tiny, tiny, tiny].flatten (List.replicate 10 0) [2, 2]).1 =
        some [tiny, tiny] ∧
      ¬ Delivers (List.replicate 10 0) [tiny, tiny, tiny] [2, 2] := by
  have hstream : streamRawItch [tiny, tiny, tiny].flatten = [tiny, tiny, tiny] :=
    streamRawItch_flatten (by unfold IsMsg; decide)
  have hend : (generateMoldudpPackets [tiny, tiny, tiny].flatten (List.replicate 10 0) [2, 2]).2 =
      .fileEnd := by
    rw [generateMoldudpPackets, hstream]
    decide
  have hlost : payloads .new
      (generateMoldudpPackets [tiny, tiny, tiny].flatten (List.replicate 10 0) [2, 2]).1 =
        some [tiny, tiny] := by
    rw [generateMoldudpPackets, hstream]
    decide +kernel
  refine ⟨hend, hlost, fun h => ?_⟩
  have hall := h.2
  rw [hlost] at hall
  exact absurd hall (by decide)

end ItchOrderBook.Framing
