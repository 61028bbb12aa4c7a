import ItchOrderBook.Ref.MoldUdp64Parser
import Mathlib.Tactic.SplitIfs
import Mathlib.Tactic.Push

/-!
# What the reference MoldUDP64 parser delivers

`processPkt_spec` says what one call does, in terms of the packet: too short, a header that does
not match, or a payload that is or is not the announced number of length-prefixed messages. The
session and the sequence number are recorded before the payload has been checked.

`gapFree_iff` is the consequence for a run of packets. The messages delivered are exactly those
of the sequence numbers below `seq_expected`, and a refused packet leaves no trace, if and only if
every packet of the run is `Clean`: it is accepted, or too short, or refused after the first
packet without having announced messages under a matching header.
-/

namespace ItchOrderBook.Framing

open Ref

/-! ### Packets -/

/-- The session id in the header. -/
def sessionOf (pkt : List Byte) : List Byte := slice pkt 0 10

/-- The sequence number in the header. -/
def seqOf (pkt : List Byte) : ℕ := fromBytes (slice pkt 10 18)

/-- The message count in the header. -/
def countOf (pkt : List Byte) : ℕ := fromBytes (slice pkt 18 20)

/-- Two length bytes and a body of that length. -/
def IsMsg (m : List Byte) : Prop := 2 ≤ m.length ∧ m.length = 2 + fromBytes (m.take 2)

/-- The length field at the front of `data`. -/
def lengthField (data : List Byte) : ℕ := fromBytes (data.take 2)

/-- `data` is the concatenation of the `n` length-prefixed messages `msgs`. -/
structure Framed (n : ℕ) (data : List Byte) (msgs : List (List Byte)) : Prop where
  length : msgs.length = n
  isMsg : ∀ m ∈ msgs, IsMsg m
  flatten : msgs.flatten = data

/-- The payload is the announced number of messages. -/
def WellFramed (pkt : List Byte) : Prop := ∃ msgs, Framed (countOf pkt) (pkt.drop 20) msgs

/-- The packet opens the session, or carries its id, and it carries the expected number. -/
def HeaderOk (s : MoldUDP64Parser) (pkt : List Byte) : Prop :=
  (s.firstPktReceived = false ∨ s.sessionId = some (sessionOf pkt)) ∧ seqOf pkt = s.seqExpected

/-- The parser after it has looked at the session of its first packet. -/
def opened (s : MoldUDP64Parser) (pkt : List Byte) : MoldUDP64Parser :=
  if !s.firstPktReceived then { s with sessionId := some (sessionOf pkt), firstPktReceived := true }
  else s

/-- The parser after it has counted the messages a packet announces. -/
def advanced (s : MoldUDP64Parser) (pkt : List Byte) : MoldUDP64Parser :=
  { opened s pkt with seqExpected := (opened s pkt).seqExpected + countOf pkt }

@[simp] theorem opened_seqExpected (s : MoldUDP64Parser) (pkt : List Byte) :
    (opened s pkt).seqExpected = s.seqExpected := by
  unfold opened
  split_ifs <;> rfl

@[simp] theorem opened_firstPktReceived (s : MoldUDP64Parser) (pkt : List Byte) :
    (opened s pkt).firstPktReceived = true := by
  unfold opened
  cases h : s.firstPktReceived
  · rfl
  · exact h

/-! ### The payload loop -/

theorem framed_nil {n : ℕ} {data : List Byte} : Framed n data [] ↔ n = 0 ∧ data = [] := by
  constructor
  · rintro ⟨h1, -, h3⟩
    exact ⟨h1.symm, h3.symm⟩
  · rintro ⟨rfl, rfl⟩
    exact ⟨rfl, by simp, rfl⟩

theorem framed_cons {n : ℕ} {data m : List Byte} {msgs : List (List Byte)} :
    Framed (n + 1) data (m :: msgs) ↔ IsMsg m ∧ ∃ rest, data = m ++ rest ∧ Framed n rest msgs := by
  constructor
  · rintro ⟨h1, h2, h3⟩
    refine ⟨h2 m List.mem_cons_self, msgs.flatten, by rw [← h3, List.flatten_cons], ?_⟩
    exact ⟨Nat.succ.inj h1, fun x hx => h2 x (List.mem_cons_of_mem _ hx), rfl⟩
  · rintro ⟨hm, rest, rfl, h1, h2, h3⟩
    refine ⟨by simp [h1], fun x hx => ?_, by simp [h3]⟩
    rcases List.mem_cons.1 hx with rfl | hx
    · exact hm
    · exact h2 x hx

theorem framed_zero {data : List Byte} {msgs : List (List Byte)} :
    Framed 0 data msgs ↔ msgs = [] ∧ data = [] := by
  constructor
  · intro h
    obtain rfl := List.eq_nil_of_length_eq_zero h.length
    exact ⟨rfl, (framed_nil.1 h).2⟩
  · rintro ⟨rfl, rfl⟩
    exact framed_nil.2 ⟨rfl, rfl⟩

/-- The head message of framed data is cut off where its length field says. -/
theorem framed_succ {n : ℕ} {data : List Byte} {msgs : List (List Byte)} :
    Framed (n + 1) data msgs ↔ 2 + lengthField data ≤ data.length ∧ ∃ rest,
      msgs = data.take (2 + lengthField data) :: rest ∧
        Framed n (data.drop (2 + lengthField data)) rest := by
  constructor
  · intro h
    cases msgs with
    | nil => exact absurd h.length (by simp)
    | cons m msgs =>
      obtain ⟨hm, rest, rfl, hfr⟩ := framed_cons.1 h
      have hfield : 2 + lengthField (m ++ rest) = m.length := by
        rw [lengthField, List.take_append_of_le_length hm.1, ← hm.2]
      rw [hfield, List.take_left, List.drop_left, List.length_append]
      exact ⟨Nat.le_add_right .., msgs, rfl, hfr⟩
  · rintro ⟨hlen, rest, rfl, hfr⟩
    refine framed_cons.2 ⟨⟨?_, ?_⟩, _, ?_, hfr⟩
    · rw [List.length_take]
      omega
    · rw [List.length_take, List.take_take, Nat.min_eq_left (show 2 ≤ 2 + _ by omega), ← lengthField]
      omega
    · rw [List.take_append_drop]

/-- There is one way to cut a payload into messages. -/
theorem framed_unique {n : ℕ} {data : List Byte} {msgs msgs' : List (List Byte)}
    (h : Framed n data msgs) (h' : Framed n data msgs') : msgs = msgs' := by
  induction n generalizing data msgs msgs' with
  | zero => rw [(framed_zero.1 h).1, (framed_zero.1 h').1]
  | succ n ih =>
    obtain ⟨-, rest, rfl, hfr⟩ := framed_succ.1 h
    obtain ⟨-, rest', rfl, hfr'⟩ := framed_succ.1 h'
    rw [ih hfr hfr']

/-- **The loop accepts exactly the framed payloads.** -/
theorem parsePayload_iff {pkt : List Byte} {n idx : ℕ} {msgs : List (List Byte)}
    (hidx : idx ≤ pkt.length) :
    MoldUDP64Parser.parsePayload pkt n idx = .ok (msgs, pkt.length) ↔
      Framed n (pkt.drop idx) msgs := by
  induction n generalizing idx msgs with
  | zero =>
    rw [MoldUDP64Parser.parsePayload, Except.ok.injEq, Prod.mk.injEq, framed_zero,
      List.drop_eq_nil_iff, eq_comm]
    exact and_congr_right fun _ => ⟨Eq.ge, hidx.antisymm⟩
  | succ n ih =>
    obtain ⟨k, hk⟩ : ∃ k, k = lengthField (pkt.drop idx) := ⟨_, rfl⟩
    have hfield : fromBytes (slice pkt idx (idx + 2)) = k := by
      rw [hk, lengthField, slice_eq_take_drop]
    rw [MoldUDP64Parser.parsePayload, framed_succ, ← hk, hfield, List.length_drop]
    by_cases hfit : 2 + k ≤ pkt.length - idx
    · -- the message is there
      rw [if_neg (by omega), if_neg (by omega), Nat.add_assoc, slice_eq_take_drop, List.drop_drop,
        and_iff_right hfit]
      constructor
      · intro h
        cases hp : MoldUDP64Parser.parsePayload pkt n (idx + (2 + k)) with
        | error e =>
          rw [hp] at h
          cases h
        | ok out =>
          rw [hp] at h
          simp only [Except.map, Except.ok.injEq, Prod.mk.injEq] at h
          obtain ⟨rfl, hlast⟩ := h
          exact ⟨out.1, rfl, (ih (by omega)).1 (by rw [hp, ← hlast])⟩
      · rintro ⟨rest, rfl, hfr⟩
        rw [(ih (by omega)).2 hfr]
        rfl
    · -- the packet ends before the message does
      refine iff_of_false ?_ fun h => hfit h.1
      by_cases hshort : pkt.length < idx + 2
      · rw [if_pos hshort]
        exact fun h => by cases h
      · rw [if_neg hshort, if_pos (by omega)]
        exact fun h => by cases h

/-! ### One call -/

section Call

variable {s : MoldUDP64Parser} {pkt : List Byte}

/-- **One call.** -/
theorem processPkt_spec (s : MoldUDP64Parser) (pkt : List Byte) :
    (pkt.length < 20 ∧ ∃ c, s.processPkt pkt = (.err c, s)) ∨
    (20 ≤ pkt.length ∧ ¬ HeaderOk s pkt ∧ ∃ c, s.processPkt pkt = (.err c, opened s pkt)) ∨
    (20 ≤ pkt.length ∧ HeaderOk s pkt ∧ ¬ WellFramed pkt ∧
      ∃ c, s.processPkt pkt = (.err c, advanced s pkt)) ∨
    (20 ≤ pkt.length ∧ HeaderOk s pkt ∧ ∃ msgs, Framed (countOf pkt) (pkt.drop 20) msgs ∧
      s.processPkt pkt = (.ret msgs, advanced s pkt)) := by
  by_cases hlen : pkt.length < 20
  · exact Or.inl ⟨hlen, _, if_pos hlen⟩
  have hsess : some (sessionOf pkt) = (opened s pkt).sessionId ↔
      s.firstPktReceived = false ∨ s.sessionId = some (sessionOf pkt) := by
    unfold opened
    cases s.firstPktReceived
    · simp
    · simp [eq_comm]
  -- the payload is reached with the session and the sequence number expected
  obtain ⟨call, hcall, herror, hok⟩ : ∃ call, s.processPkt pkt =
      (if some (sessionOf pkt) ≠ (opened s pkt).sessionId then
        (.err "Session ID mismatch.", opened s pkt)
      else if seqOf pkt ≠ (opened s pkt).seqExpected then
        (.err s!"Seq number mismatch. Expected: {(opened s pkt).seqExpected}, received: {seqOf pkt}.",
          opened s pkt)
      else call) ∧
      (∀ c, MoldUDP64Parser.parsePayload pkt (countOf pkt) 20 = .error c →
        call = (.err c, advanced s pkt)) ∧
      ∀ msgs idx, MoldUDP64Parser.parsePayload pkt (countOf pkt) 20 = .ok (msgs, idx) →
        call = if pkt.length ≠ idx then (.err "Packet has remaining bytes.", advanced s pkt)
          else (.ret msgs, advanced s pkt) := by
    refine ⟨_, (MoldUDP64Parser.processPkt.eq_1 s pkt).trans (if_neg hlen), ?_, ?_⟩
    · intro c hc
      rw [countOf] at hc
      rw [hc]
      rfl
    · intro msgs idx hc
      rw [countOf] at hc
      rw [hc]
      rfl
  rw [hcall, opened_seqExpected]
  by_cases h1 : some (sessionOf pkt) = (opened s pkt).sessionId
  · rw [if_neg (not_not.2 h1)]
    by_cases h2 : seqOf pkt = s.seqExpected
    · rw [if_neg (not_not.2 h2)]
      have hhead : HeaderOk s pkt := ⟨hsess.1 h1, h2⟩
      cases hp : MoldUDP64Parser.parsePayload pkt (countOf pkt) 20 with
      | error c =>
        refine Or.inr (Or.inr (Or.inl ⟨not_lt.1 hlen, hhead, ?_, c, herror c hp⟩))
        rintro ⟨msgs, hfr⟩
        rw [(parsePayload_iff (not_lt.1 hlen)).2 hfr] at hp
        cases hp
      | ok out =>
        obtain ⟨msgs, idx⟩ := out
        by_cases h3 : pkt.length = idx
        · subst h3
          refine Or.inr (Or.inr (Or.inr ⟨not_lt.1 hlen, hhead, msgs, ?_, ?_⟩))
          · exact (parsePayload_iff (not_lt.1 hlen)).1 hp
          · exact (hok _ _ hp).trans (if_neg (not_not.2 rfl))
        · refine Or.inr (Or.inr (Or.inl
            ⟨not_lt.1 hlen, hhead, ?_, _, (hok _ _ hp).trans (if_pos h3)⟩))
          rintro ⟨msgs', hfr⟩
          rw [(parsePayload_iff (not_lt.1 hlen)).2 hfr] at hp
          cases hp
          exact h3 rfl
    · rw [if_pos h2]
      exact Or.inr (Or.inl ⟨not_lt.1 hlen, fun h => h2 h.2, _, rfl⟩)
  · rw [if_pos h1]
    exact Or.inr (Or.inl ⟨not_lt.1 hlen, fun h => h1 (hsess.2 h.1), _, rfl⟩)

theorem opened_eq_iff (s : MoldUDP64Parser) (pkt : List Byte) :
    opened s pkt = s ↔ s.firstPktReceived = true := by
  unfold opened
  cases h : s.firstPktReceived
  · simp only [Bool.not_false, if_true, Bool.false_eq_true, iff_false]
    intro he
    have := congrArg MoldUDP64Parser.firstPktReceived he
    rw [h] at this
    cases this
  · simp

theorem advanced_eq_iff :
    advanced s pkt = s ↔ s.firstPktReceived = true ∧ countOf pkt = 0 := by
  constructor
  · intro h
    have hseq := congrArg MoldUDP64Parser.seqExpected h
    have hcount : countOf pkt = 0 := by
      simp only [advanced, opened_seqExpected] at hseq
      omega
    have hfirst := congrArg MoldUDP64Parser.firstPktReceived h
    simp only [advanced, opened_firstPktReceived] at hfirst
    exact ⟨hfirst.symm, hcount⟩
  · rintro ⟨hf, hc⟩
    rw [advanced, (opened_eq_iff s pkt).2 hf, hc]
    rfl

/-! ### Runs of packets -/

/-- The numbers of the messages a call delivers. -/
def delivered (pkt : List Byte) : Outcome (List (List Byte)) → List ℕ
  | .ret msgs => List.range' (seqOf pkt) msgs.length
  | _ => []

/-- Gap-free delivery over a run: after each call the numbers delivered are `1`, `2`, ... up to
`seq_expected - 1`, and a call that returns an error leaves the parser as it was. -/
def GapFree (before : List ℕ) (s : MoldUDP64Parser) : List (List Byte) → Prop
  | [] => True
  | pkt :: pkts =>
    let out := s.processPkt pkt
    before ++ delivered pkt out.1 = List.range' 1 (out.2.seqExpected - 1) ∧
      (out.1.IsErr → out.2 = s) ∧
      GapFree (before ++ delivered pkt out.1) out.2 pkts

/-- The packet is too short to be looked at, or it is accepted, or it is not the first one and
announces messages under a matching header only if it is accepted. -/
def Clean (s : MoldUDP64Parser) (pkt : List Byte) : Prop :=
  pkt.length < 20 ∨ (HeaderOk s pkt ∧ WellFramed pkt) ∨
    (s.firstPktReceived = true ∧ (HeaderOk s pkt → countOf pkt = 0))

/-- Every packet of the run is clean when its turn comes. -/
def CleanRun (s : MoldUDP64Parser) : List (List Byte) → Prop
  | [] => True
  | pkt :: pkts => Clean s pkt ∧ CleanRun (s.processPkt pkt).2 pkts

/-- One call keeps the law exactly when the packet is clean. -/
theorem call_iff (hs : 1 ≤ s.seqExpected) :
    (List.range' 1 (s.seqExpected - 1) ++ delivered pkt (s.processPkt pkt).1 =
        List.range' 1 ((s.processPkt pkt).2.seqExpected - 1) ∧
      ((s.processPkt pkt).1.IsErr → (s.processPkt pkt).2 = s)) ↔ Clean s pkt := by
  unfold Clean
  rcases processPkt_spec s pkt with ⟨hlen, c, hp⟩ | ⟨hlen, hh, c, hp⟩ | ⟨hlen, hh, hw, c, hp⟩ |
    ⟨hlen, hh, msgs, hfr, hp⟩ <;> rw [hp]
  · exact iff_of_true ⟨by simp [delivered], fun _ => rfl⟩ (Or.inl hlen)
  · simp only [Outcome.isErr_err, true_implies, opened_eq_iff, hh, false_and, false_implies,
      and_true, false_or, not_lt.2 hlen]
    refine ⟨And.right, fun h => ⟨?_, h⟩⟩
    rw [(opened_eq_iff s pkt).2 h]
    simp [delivered]
  · simp only [Outcome.isErr_err, true_implies, advanced_eq_iff, hh, hw, and_false, false_or,
      not_lt.2 hlen]
    refine ⟨And.right, fun h => ⟨?_, h⟩⟩
    rw [advanced_eq_iff.2 h]
    simp [delivered]
  · refine iff_of_true ⟨?_, fun h => absurd h (Outcome.isErr_ret _)⟩ (Or.inr (Or.inl ⟨hh, msgs, hfr⟩))
    simp only [delivered, advanced, opened_seqExpected, hfr.length, hh.2]
    rw [show s.seqExpected + countOf pkt - 1 = s.seqExpected - 1 + countOf pkt by omega,
      ← List.range'_append_1, show 1 + (s.seqExpected - 1) = s.seqExpected by omega]

theorem seqExpected_le (s : MoldUDP64Parser) (pkt : List Byte) :
    s.seqExpected ≤ (s.processPkt pkt).2.seqExpected := by
  rcases processPkt_spec s pkt with ⟨-, c, hp⟩ | ⟨-, -, c, hp⟩ | ⟨-, -, -, c, hp⟩ |
    ⟨-, -, msgs, -, hp⟩ <;> rw [hp]
  · exact Nat.le_of_eq (opened_seqExpected s pkt).symm
  · simp [advanced]
  · simp [advanced]

theorem gapFree_iff_of_le (hs : 1 ≤ s.seqExpected) (pkts : List (List Byte)) :
    GapFree (List.range' 1 (s.seqExpected - 1)) s pkts ↔ CleanRun s pkts := by
  induction pkts generalizing s with
  | nil => exact Iff.rfl
  | cons pkt pkts ih =>
    have hs' := Nat.le_trans hs (seqExpected_le s pkt)
    rw [GapFree, CleanRun, ← call_iff hs, ← ih hs', and_assoc]
    refine and_congr_right fun hnum => ?_
    rw [hnum]

/-- **Gap-free delivery.** A run of packets is delivered without gaps, and its refused packets
leave no trace, exactly when all its packets are clean. -/
theorem gapFree_iff (pkts : List (List Byte)) : GapFree [] .new pkts ↔ CleanRun .new pkts :=
  gapFree_iff_of_le (s := .new) (Nat.le_refl 1) pkts

/-- A header that announces one message, with nothing behind it. -/
def truncatedPkt : List Byte :=
  [84, 69, 83, 84, 95, 84, 76, 65, 83, 84, 0, 0, 0, 0, 0, 0, 0, 1, 0, 1]

/-- The same header with its message. -/
def completePkt : List Byte := truncatedPkt ++ [0, 3, 1, 2, 3]

/-- The truncated packet uses up the number of its message: the complete one is then refused. -/
theorem truncatedPkt_not_gapFree :
    ¬ GapFree [] .new [truncatedPkt] ∧ (MoldUDP64Parser.new.processPkt completePkt).1.IsRet ∧
      ((MoldUDP64Parser.new.processPkt truncatedPkt).2.processPkt completePkt).1.IsErr := by
  refine ⟨fun h => ?_, ⟨[[0, 3, 1, 2, 3]], rfl⟩, ⟨_, rfl⟩⟩
  have hnum : ([] : List ℕ) = List.range' 1 1 := h.1
  exact absurd hnum (by decide)

end Call

end ItchOrderBook.Framing
