import ItchOrderBook.Decode.Cases

/-!
# One message in both parsers

`views` is what the signals of the RTL can show of the messages that the reference parser yields:
the order messages of one stock, a delete that belongs to a replace marked as such, and no ignored
message. On a message of the right length, `decodeMsg` is the reference parser seen through it
(`decodeMsg_eq`), except for the type `'B'`, whose length differs.
-/

namespace ItchOrderBook.Decode

open Ref (Byte Outcome ITCHMsg slice fromBytes chr)
open Rtl (ItchRegs IpState)

/-! ### What is compared -/

/-- The bytes of a stock symbol. -/
def symbolBits (stockSymbol : String) : BitVec 64 :=
  bits 64 (stockSymbol.toByteArray.data.toList.map UInt8.toBitVec)

/-- The signals that show a message; `hasRep` marks a delete that belongs to a replace. -/
def view (loc : BitVec 16) (hasRep : Bool) : ITCHMsg → List Decoded
  | .systemEvent _ eventCode => [.event eventCode]
  | .directory l s => [.directory l (symbolBits s)]
  | .tradeAction l s action => [.action l (symbolBits s) action]
  | .opHalt l s marketCode isHalt => [.halt l (symbolBits s) marketCode isHalt]
  | .book (.add l orderId isBuy shares price) =>
    if l = loc.toNat then [.add false orderId isBuy shares price] else []
  | .book (.reduce l orderId shares) =>
    if l = loc.toNat then [.reduce false orderId shares] else []
  | .book (.delete l orderId) => if l = loc.toNat then [.delete hasRep orderId] else []
  | .book (.replace l orderId shares price) =>
    if l = loc.toNat then [.replace false orderId shares price] else []
  | .other _ => []

/-- The message is the second one of a replace. -/
def isReplace : ITCHMsg → Bool
  | .book (.replace ..) => true
  | _ => false

/-- The signals that show the messages of one call. -/
def views (loc : BitVec 16) : List ITCHMsg → List Decoded
  | [] => []
  | msg :: msgs => view loc (msgs.any isReplace) msg ++ views loc msgs

/-- The length that the table of the RTL has for a message is its length. -/
def TableLen (msg : List Byte) : Prop :=
  ∃ len alt st, ItchRegs.idleTable (byteAt msg 2) = some (len, alt, st) ∧
    fromBytes (slice msg 0 2) = len.toNat

/-- The stock symbol of a message that has one can be decoded. -/
def HasSymbol (msg : List Byte) : Prop :=
  chr (byteAt msg 2) ∈ ['R', 'H', 'h'] → ∃ s, Ref.decode (slice msg 13 21) = some s

/-- The value returned, if any. -/
def accepted {α : Type} : Outcome α → Option α
  | .ret a => some a
  | _ => none

theorem accepted_isSome {α : Type} {o : Outcome α} : (accepted o).isSome ↔ o.IsRet := by
  cases o <;> simp [accepted]

theorem accepted_expectLen {α : Type} (l n : ℕ) (k : Outcome α) :
    accepted (Ref.ITCHParser.expectLen l n k) = if l ≠ n then none else accepted k := by
  rw [Ref.ITCHParser.expectLen]
  split_ifs <;> rfl

theorem getItem_eq {α : Type} {msg : List Byte} {i : ℕ} (hi : i < msg.length) (k : Byte → Outcome α) :
    Ref.ITCHParser.getItem msg i k = k (byteAt msg i) := by
  have hslice : slice msg i (i + 1) = [msg[i]] := by
    rw [Ref.slice_eq_take_drop, List.drop_eq_getElem_cons hi]
    rfl
  rw [Ref.ITCHParser.getItem, List.getElem?_eq_getElem hi, byteAt, hslice, bits_singleton]

/-! ### The codes -/

theorem eventCodeOf_eq (b : Byte) :
    (ItchRegs.eventCodeOf b).map eventCode = Ref.SystemEventCode.ofByte b := by
  rw [ItchRegs.eventCodeOf, Ref.SystemEventCode.ofByte]
  split <;> simp_all [eventCode]

theorem tradeActionOf_eq (b : Byte) :
    (ItchRegs.tradeActionOf b).map tradeAction = Ref.TradeActionCode.ofByte b := by
  rw [ItchRegs.tradeActionOf, Ref.TradeActionCode.ofByte]
  split <;> simp_all [tradeAction]

theorem marketOf_eq (b : Byte) :
    (ItchRegs.marketOf b).map market = if chr b ∈ ['Q', 'B', 'X'] then some (chr b) else none := by
  rw [ItchRegs.marketOf]
  split <;> simp_all [market]

/-- Encoding a decoded stock symbol gives its bytes back. -/
theorem symbolBits_decode {data : List Byte} {s : String} (h : Ref.decode data = some s) :
    symbolBits s = bits 64 data := by
  rw [Ref.decode, String.fromUTF8?] at h
  split_ifs at h with hv
  cases h
  change bits 64 (((data.map UInt8.ofBitVec).toArray).toList.map UInt8.toBitVec) = _
  rw [List.toList_toArray, List.map_map, show UInt8.toBitVec ∘ UInt8.ofBitVec = id from rfl,
    List.map_id]

/-! ### The messages -/

/-- The order messages of the stock are those that match. -/
theorem ifMatch_eq (loc : BitVec 16) (msg : List Byte) (out : List Decoded) :
    ifMatch loc msg out = if fromBytes (slice msg 3 5) = loc.toNat then out else [] := by
  have hiff : bits 16 (slice msg 3 5) = loc ↔ fromBytes (slice msg 3 5) = loc.toNat := by
    rw [BitVec.toNat_eq, toNat_field msg (by omega)]
  rw [ifMatch]
  split_ifs <;> tauto

section Framed

variable {loc : BitVec 16} {msg : List Byte}

/-- Both parsers look at the body of a message whose length is as in the table. -/
theorem decodeMsg_of_table {len : BitVec 16} {alt : Bool} {st : IpState}
    (h : ItchRegs.idleTable (byteAt msg 2) = some (len, alt, st)) :
    decodeMsg loc msg =
      if fromBytes (slice msg 0 2) ≠ len.toNat then none else decodeBody loc msg st := by
  rw [decodeMsg, h]

/-- Messages that neither parser looks into. -/
theorem ignore_eq {len : BitVec 16} {l : ℕ} {n : ℕ} (hn : len.toNat = n)
    (h : ItchRegs.idleTable (byteAt msg 2) = some (len, false, .ignore)) :
    decodeMsg loc msg = (accepted (Ref.ITCHParser.expectLen (fromBytes (slice msg 0 2)) n
      (.ret [.other l]))).map (views loc) := by
  rw [decodeMsg_of_table h, accepted_expectLen, hn]
  split_ifs <;> rfl

theorem reduce_eq {st : IpState} (hst : st = .execute ∨ st = .executeP) {len : BitVec 16} {alt : Bool}
    {n : ℕ} (hn : len.toNat = n) (h : ItchRegs.idleTable (byteAt msg 2) = some (len, alt, st)) :
    decodeMsg loc msg = (accepted (Ref.ITCHParser.expectLen (fromBytes (slice msg 0 2)) n
      (Ref.ITCHParser.parseReduce msg (fromBytes (slice msg 3 5)) (fromBytes (slice msg 13 21))))).map
        (views loc) := by
  rw [decodeMsg_of_table h, accepted_expectLen, hn]
  split_ifs with hlen
  · rfl
  · rcases hst with rfl | rfl <;> rw [decodeBody, ifMatch_eq] <;>
      simp [Ref.ITCHParser.parseReduce, accepted, views, view]

theorem add_eq (hlen : msg.length = fromBytes (slice msg 0 2) + 2) {len : BitVec 16} {alt : Bool}
    {n : ℕ} (hn : len.toNat = n) (h20 : 20 ≤ n)
    (h : ItchRegs.idleTable (byteAt msg 2) = some (len, alt, .add)) :
    decodeMsg loc msg = (accepted (Ref.ITCHParser.expectLen (fromBytes (slice msg 0 2)) n
      (Ref.ITCHParser.parseAdd msg (fromBytes (slice msg 3 5)) (fromBytes (slice msg 13 21))))).map
        (views loc) := by
  rw [decodeMsg_of_table h, accepted_expectLen, hn]
  split_ifs with hne
  · rfl
  · rw [Ref.ITCHParser.parseAdd, getItem_eq (by omega), decodeBody, ItchRegs.sideOf]
    generalize chr (byteAt msg 21) = c
    split
    · simp [accepted, views, view, ifMatch_eq]
    · simp [accepted, views, view, ifMatch_eq]
    · simp [accepted, *]

theorem sysEvent_eq (hlen : msg.length = fromBytes (slice msg 0 2) + 2) {l : ℕ}
    (h : ItchRegs.idleTable (byteAt msg 2) = some (12, false, .sysEvent)) :
    decodeMsg loc msg = (accepted (Ref.ITCHParser.expectLen (fromBytes (slice msg 0 2)) 12
      (Ref.ITCHParser.getItem msg 13 fun b =>
        match Ref.SystemEventCode.ofByte b with
        | none => .err "Invalid event code."
        | some eventCode => .ret [.systemEvent l eventCode]))).map (views loc) := by
  rw [decodeMsg_of_table h, accepted_expectLen, show (12 : BitVec 16).toNat = 12 from rfl]
  split_ifs with hne
  · rfl
  · rw [getItem_eq (by omega), ← eventCodeOf_eq, decodeBody]
    generalize ItchRegs.eventCodeOf _ = code
    cases code <;> rfl

theorem directory_eq (h : ItchRegs.idleTable (byteAt msg 2) = some (39, false, .directory)) {s : String}
    (hs : Ref.decode (slice msg 13 21) = some s) :
    decodeMsg loc msg = (accepted (Ref.ITCHParser.expectLen (fromBytes (slice msg 0 2)) 39
      (Ref.ITCHParser.withSymbol (Ref.decode (slice msg 13 21)) fun symbol =>
        .ret [.directory (fromBytes (slice msg 3 5)) symbol]))).map (views loc) := by
  rw [decodeMsg_of_table h, accepted_expectLen, show (39 : BitVec 16).toNat = 39 from rfl]
  split_ifs with hne
  · rfl
  · rw [decodeBody, hs, ← symbolBits_decode hs]
    rfl

theorem tradingAction_eq (hlen : msg.length = fromBytes (slice msg 0 2) + 2)
    (h : ItchRegs.idleTable (byteAt msg 2) = some (25, false, .tradingAction)) {s : String}
    (hs : Ref.decode (slice msg 13 21) = some s) :
    decodeMsg loc msg = (accepted (Ref.ITCHParser.expectLen (fromBytes (slice msg 0 2)) 25
      (Ref.ITCHParser.getItem msg 21 fun b =>
        match Ref.TradeActionCode.ofByte b with
        | none => .err "Invalid trading action."
        | some tradeAction => Ref.ITCHParser.withSymbol (Ref.decode (slice msg 13 21)) fun symbol =>
          .ret [.tradeAction (fromBytes (slice msg 3 5)) symbol tradeAction]))).map (views loc) := by
  rw [decodeMsg_of_table h, accepted_expectLen, show (25 : BitVec 16).toNat = 25 from rfl]
  split_ifs with hne
  · rfl
  · rw [getItem_eq (by omega), ← tradeActionOf_eq, decodeBody, hs, ← symbolBits_decode hs]
    generalize ItchRegs.tradeActionOf _ = code
    cases code <;> rfl

theorem delete_eq (h : ItchRegs.idleTable (byteAt msg 2) = some (19, false, .delete)) :
    decodeMsg loc msg = (accepted (Ref.ITCHParser.expectLen (fromBytes (slice msg 0 2)) 19
      (.ret [.book (.delete (fromBytes (slice msg 3 5)) (fromBytes (slice msg 13 21)))]))).map
        (views loc) := by
  rw [decodeMsg_of_table h, accepted_expectLen, show (19 : BitVec 16).toNat = 19 from rfl]
  split_ifs with hne
  · rfl
  · rw [decodeBody, ifMatch_eq]
    simp [accepted, views, view]

theorem replace_eq (h : ItchRegs.idleTable (byteAt msg 2) = some (35, false, .replace)) :
    decodeMsg loc msg = (accepted (Ref.ITCHParser.expectLen (fromBytes (slice msg 0 2)) 35
      (.ret [.book (.delete (fromBytes (slice msg 3 5)) (fromBytes (slice msg 13 21))),
        .book (.replace (fromBytes (slice msg 3 5)) (fromBytes (slice msg 21 29))
          (fromBytes (slice msg 29 33)) (fromBytes (slice msg 33 37)))]))).map (views loc) := by
  rw [decodeMsg_of_table h, accepted_expectLen, show (35 : BitVec 16).toNat = 35 from rfl]
  split_ifs with hne
  · rfl
  · rw [decodeBody, ifMatch_eq]
    simp only [accepted, views, view, Option.map_some]
    split_ifs <;> rfl

theorem opHalt_eq (hlen : msg.length = fromBytes (slice msg 0 2) + 2)
    (h : ItchRegs.idleTable (byteAt msg 2) = some (21, false, .opHalt)) {s : String}
    (hs : Ref.decode (slice msg 13 21) = some s) :
    decodeMsg loc msg = (accepted (Ref.ITCHParser.expectLen (fromBytes (slice msg 0 2)) 21
      (Ref.ITCHParser.getItem msg 21 fun b =>
        if chr b ∉ ['Q', 'B', 'X'] then .err "Invalid market code."
        else Ref.ITCHParser.getItem msg 22 fun b' =>
          let opHalt (isHalt : Bool) : Outcome (List ITCHMsg) :=
            Ref.ITCHParser.withSymbol (Ref.decode (slice msg 13 21)) fun symbol =>
              .ret [.opHalt (fromBytes (slice msg 3 5)) symbol (chr b) isHalt]
          match chr b' with
          | 'H' => opHalt true
          | 'T' => opHalt false
          | _ => .err "Invalid op halt code."))).map (views loc) := by
  rw [decodeMsg_of_table h, accepted_expectLen, show (21 : BitVec 16).toNat = 21 from rfl]
  split_ifs with hne
  · rfl
  · have hmarket := marketOf_eq (byteAt msg 21)
    rw [getItem_eq (by omega), decodeBody]
    by_cases hm : chr (byteAt msg 21) ∈ ['Q', 'B', 'X']
    · rw [if_pos hm, Option.map_eq_some_iff] at hmarket
      obtain ⟨code, hcode, hchr⟩ := hmarket
      rw [if_neg (not_not.2 hm), getItem_eq (by omega), hcode, ← symbolBits_decode hs,
        ItchRegs.haltOf]
      generalize chr (byteAt msg 22) = c
      split
      · simp [accepted, Ref.ITCHParser.withSymbol, hs, views, view, hchr]
      · simp [accepted, Ref.ITCHParser.withSymbol, hs, views, view, hchr]
      · simp [accepted, *]
    · rw [if_neg hm, Option.map_eq_none_iff] at hmarket
      rw [if_pos hm, hmarket]
      rfl

end Framed

/-- **One message in both parsers**, if its length field is right and it is not of type `'B'`. -/
theorem decodeMsg_eq (loc : BitVec 16) {msg : List Byte}
    (hlen : msg.length = fromBytes (slice msg 0 2) + 2) (hsym : HasSymbol msg)
    (hB : chr (byteAt msg 2) ≠ 'B') :
    decodeMsg loc msg = (accepted (Ref.ITCHParser.parseMsg msg)).map (views loc) := by
  rw [Ref.ITCHParser.parseMsg, if_neg (not_not.2 hlen)]
  by_cases h3 : 2 < msg.length
  · rw [getItem_eq h3]
    have htable : ItchRegs.idleTable (byteAt msg 2) = ItchRegs.idleTable (byteAt msg 2) := rfl
    conv_rhs at htable => unfold ItchRegs.idleTable
    rw [HasSymbol] at hsym
    generalize hc : chr (byteAt msg 2) = c at hB hsym htable ⊢
    -- one goal for each type, in the order of the table
    split at htable
    · exact sysEvent_eq hlen htable
    · obtain ⟨s, hs⟩ := hsym (by decide)
      exact directory_eq htable hs
    · obtain ⟨s, hs⟩ := hsym (by decide)
      exact tradingAction_eq hlen htable hs
    · exact ignore_eq rfl htable
    · exact ignore_eq rfl htable
    · exact ignore_eq rfl htable
    · exact ignore_eq rfl htable
    · exact ignore_eq rfl htable
    · exact ignore_eq rfl htable
    · obtain ⟨s, hs⟩ := hsym (by decide)
      exact opHalt_eq hlen htable hs
    · exact add_eq hlen rfl (by decide) htable
    · exact add_eq hlen rfl (by decide) htable
    · exact reduce_eq (Or.inl rfl) rfl htable
    · exact reduce_eq (Or.inr rfl) rfl htable
    · exact reduce_eq (Or.inl rfl) rfl htable
    · exact delete_eq htable
    · exact replace_eq htable
    · exact ignore_eq rfl htable
    · exact ignore_eq rfl htable
    · exact absurd rfl hB
    · exact ignore_eq rfl htable
    · exact ignore_eq rfl htable
    · exact ignore_eq rfl htable
    · rw [decodeMsg, htable]
      simp only [*]
      rfl
  · have hnone : slice msg 2 (2 + 1) = [] := by
      rw [Ref.slice_eq_take_drop, List.drop_eq_nil_of_le (by omega), List.take_nil]
    rw [Ref.ITCHParser.getItem, List.getElem?_eq_none (by omega), decodeMsg, byteAt, hnone]
    rfl

/-! ### What an accepted message has -/

section Accepted

variable {msg : List Byte}

theorem length_of_isRet (h : (Ref.ITCHParser.parseMsg msg).IsRet) :
    msg.length = fromBytes (slice msg 0 2) + 2 := by
  by_contra hlen
  rw [Ref.ITCHParser.parseMsg, if_pos hlen] at h
  exact absurd h (Ref.Outcome.isRet_raise _)

/-- A message with a type has the byte. -/
theorem two_lt_length {c : Char} (hlen : msg.length = fromBytes (slice msg 0 2) + 2)
    (hc : chr (byteAt msg 2) = c) (h0 : c ≠ chr 0) : 2 < msg.length := by
  by_contra h2
  have hnone : slice msg 2 (2 + 1) = [] := by
    rw [Ref.slice_eq_take_drop, List.drop_eq_nil_of_le (by omega), List.take_nil]
  rw [byteAt, hnone] at hc
  exact h0 hc.symm

theorem isRet_typeB (hlen : msg.length = fromBytes (slice msg 0 2) + 2)
    (hB : chr (byteAt msg 2) = 'B') :
    (Ref.ITCHParser.parseMsg msg).IsRet ↔ fromBytes (slice msg 0 2) = 17 := by
  rw [← accepted_isSome, Ref.ITCHParser.parseMsg, if_neg (not_not.2 hlen),
    getItem_eq (two_lt_length hlen hB (by decide)), hB]
  change (accepted (Ref.ITCHParser.expectLen _ 17 (.ret [ITCHMsg.other _]))).isSome ↔ _
  rw [accepted_expectLen]
  split_ifs with h
  · simpa using h
  · simpa [accepted] using h

/-- A message with a stock symbol is not accepted if that cannot be decoded. -/
theorem hasSymbol_of_isRet (h : (Ref.ITCHParser.parseMsg msg).IsRet) : HasSymbol msg := by
  intro hc
  by_contra hs
  have hs : Ref.decode (slice msg 13 21) = none :=
    Option.eq_none_iff_forall_ne_some.2 fun s hs' => hs ⟨s, hs'⟩
  have hlen := length_of_isRet h
  rw [← accepted_isSome, Ref.ITCHParser.parseMsg, if_neg (not_not.2 hlen)] at h
  simp only [List.mem_cons, List.not_mem_nil, or_false] at hc
  rcases hc with hc | hc | hc
  · rw [getItem_eq (two_lt_length hlen hc (by decide)), hc] at h
    change (accepted (Ref.ITCHParser.expectLen _ 39 (Ref.ITCHParser.withSymbol _ _))).isSome at h
    rw [accepted_expectLen, hs] at h
    split_ifs at h <;> cases h
  · rw [getItem_eq (two_lt_length hlen hc (by decide)), hc] at h
    change (accepted (Ref.ITCHParser.expectLen _ 25 (Ref.ITCHParser.getItem msg 21 _))).isSome at h
    rw [accepted_expectLen, hs] at h
    split_ifs at h with h25
    · cases h
    · rw [getItem_eq (by omega)] at h
      generalize Ref.TradeActionCode.ofByte _ = code at h
      cases code <;> cases h
  · rw [getItem_eq (two_lt_length hlen hc (by decide)), hc] at h
    change (accepted (Ref.ITCHParser.expectLen _ 21 (Ref.ITCHParser.getItem msg 21 _))).isSome at h
    rw [accepted_expectLen, hs] at h
    split_ifs at h with h21
    · cases h
    · rw [getItem_eq (by omega)] at h
      dsimp only at h
      split_ifs at h with hmarket
      · rw [getItem_eq (by omega)] at h
        generalize chr (byteAt msg 22) = c at h
        split at h <;> cases h
      · cases h

end Accepted

end ItchOrderBook.Decode
