import ItchOrderBook.Decode.Reference

/-!
# Valid messages

`ValidMsg` says what a message must be like to be accepted, in terms of its bytes: the length that
belongs to its type, and known codes where it has any. The length of type `'B'` is a parameter,
since the RTL expects 19 (`decodeMsg_iff`) and the reference parser 17 (`isRet_iff`).
-/

namespace ItchOrderBook.Decode

open Ref (Byte slice fromBytes chr)
open Rtl (ItchRegs IpState)

/-- The length of a message by its type. -/
def typeLen (lenB : ℕ) : Char → Option ℕ
  | 'S' => some 12
  | 'R' => some 39
  | 'H' => some 25
  | 'Y' => some 20
  | 'L' => some 26
  | 'V' => some 35
  | 'W' => some 12
  | 'K' => some 28
  | 'J' => some 35
  | 'h' => some 21
  | 'A' => some 36
  | 'F' => some 40
  | 'E' => some 31
  | 'C' => some 36
  | 'X' => some 23
  | 'D' => some 19
  | 'U' => some 35
  | 'P' => some 44
  | 'Q' => some 40
  | 'B' => some lenB
  | 'I' => some 50
  | 'N' => some 20
  | 'O' => some 48
  | _ => none

/-- The codes of a message are known ones. -/
def CodesOk (msg : List Byte) : Char → Prop
  | 'S' => chr (byteAt msg 13) ∈ ['O', 'S', 'Q', 'M', 'E', 'C']
  | 'H' => chr (byteAt msg 21) ∈ ['H', 'P', 'Q', 'T']
  | 'h' => chr (byteAt msg 21) ∈ ['Q', 'B', 'X'] ∧ chr (byteAt msg 22) ∈ ['H', 'T']
  | 'A' | 'F' => chr (byteAt msg 21) ∈ ['B', 'S']
  | _ => True

/-- The message has the length of its type and known codes. -/
def ValidMsg (lenB : ℕ) (msg : List Byte) : Prop :=
  typeLen lenB (chr (byteAt msg 2)) = some (fromBytes (slice msg 0 2)) ∧
    CodesOk msg (chr (byteAt msg 2))

/-! ### The RTL -/

theorem eventCodeOf_iff (b : Byte) :
    ItchRegs.eventCodeOf b ≠ none ↔ chr b ∈ ['O', 'S', 'Q', 'M', 'E', 'C'] := by
  rw [ItchRegs.eventCodeOf]
  split <;> simp_all

theorem tradeActionOf_iff (b : Byte) :
    ItchRegs.tradeActionOf b ≠ none ↔ chr b ∈ ['H', 'P', 'Q', 'T'] := by
  rw [ItchRegs.tradeActionOf]
  split <;> simp_all

theorem marketOf_iff (b : Byte) : ItchRegs.marketOf b ≠ none ↔ chr b ∈ ['Q', 'B', 'X'] := by
  rw [ItchRegs.marketOf]
  split <;> simp_all

theorem haltOf_iff (b : Byte) : ItchRegs.haltOf b ≠ none ↔ chr b ∈ ['H', 'T'] := by
  rw [ItchRegs.haltOf]
  split <;> simp_all

theorem sideOf_iff (b : Byte) : ItchRegs.sideOf b ≠ none ↔ chr b ∈ ['B', 'S'] := by
  rw [ItchRegs.sideOf]
  split <;> simp_all

section Valid

variable {loc : BitVec 16} {msg : List Byte}

/-- A message of the right length is decoded if its codes are known. -/
theorem decode_iff {len : BitVec 16} {alt : Bool} {st : IpState} {n : ℕ} (hn : len.toNat = n)
    (h : ItchRegs.idleTable (byteAt msg 2) = some (len, alt, st)) {codes : Prop}
    (hcodes : decodeBody loc msg st ≠ none ↔ codes) :
    decodeMsg loc msg ≠ none ↔ some n = some (fromBytes (slice msg 0 2)) ∧ codes := by
  rw [decodeMsg_of_table h, hn, Option.some.injEq, ← hcodes]
  split_ifs with hne
  · exact iff_of_false (by simp) fun h => hne h.1.symm
  · exact ⟨fun h => ⟨(not_not.1 hne).symm, h⟩, fun h => h.2⟩

theorem decodeBody_sysEvent : decodeBody loc msg .sysEvent ≠ none ↔
    chr (byteAt msg 13) ∈ ['O', 'S', 'Q', 'M', 'E', 'C'] := by
  rw [decodeBody, ← eventCodeOf_iff, ne_eq, Option.map_eq_none_iff]

theorem decodeBody_tradingAction : decodeBody loc msg .tradingAction ≠ none ↔
    chr (byteAt msg 21) ∈ ['H', 'P', 'Q', 'T'] := by
  rw [decodeBody, ← tradeActionOf_iff, ne_eq, Option.map_eq_none_iff]

theorem decodeBody_opHalt : decodeBody loc msg .opHalt ≠ none ↔
    chr (byteAt msg 21) ∈ ['Q', 'B', 'X'] ∧ chr (byteAt msg 22) ∈ ['H', 'T'] := by
  rw [decodeBody, ← marketOf_iff, ← haltOf_iff]
  cases ItchRegs.marketOf (byteAt msg 21) <;> cases ItchRegs.haltOf (byteAt msg 22) <;> simp

theorem decodeBody_add : decodeBody loc msg .add ≠ none ↔ chr (byteAt msg 21) ∈ ['B', 'S'] := by
  rw [decodeBody, ← sideOf_iff, ne_eq, Option.map_eq_none_iff]

/-- **The RTL decodes the valid messages.** -/
theorem decodeMsg_iff : decodeMsg loc msg ≠ none ↔ ValidMsg 19 msg := by
  have hother : ∀ out : List Decoded, some out ≠ none ↔ True := by simp
  have htable : ItchRegs.idleTable (byteAt msg 2) = ItchRegs.idleTable (byteAt msg 2) := rfl
  conv_rhs at htable => unfold ItchRegs.idleTable
  rw [ValidMsg]
  generalize chr (byteAt msg 2) = c at htable ⊢
  -- one goal for each type, in the order of the table
  split at htable
  · exact decode_iff rfl htable decodeBody_sysEvent
  · exact decode_iff rfl htable (hother _)
  · exact decode_iff rfl htable decodeBody_tradingAction
  · exact decode_iff rfl htable (hother _)
  · exact decode_iff rfl htable (hother _)
  · exact decode_iff rfl htable (hother _)
  · exact decode_iff rfl htable (hother _)
  · exact decode_iff rfl htable (hother _)
  · exact decode_iff rfl htable (hother _)
  · exact decode_iff rfl htable decodeBody_opHalt
  · exact decode_iff rfl htable decodeBody_add
  · exact decode_iff rfl htable decodeBody_add
  · exact decode_iff rfl htable (hother _)
  · exact decode_iff rfl htable (hother _)
  · exact decode_iff rfl htable (hother _)
  · exact decode_iff rfl htable (hother _)
  · exact decode_iff rfl htable (hother _)
  · exact decode_iff rfl htable (hother _)
  · exact decode_iff rfl htable (hother _)
  · exact decode_iff rfl htable (hother _)
  · exact decode_iff rfl htable (hother _)
  · exact decode_iff rfl htable (hother _)
  · exact decode_iff rfl htable (hother _)
  · rw [decodeMsg, htable]
    refine iff_of_false (fun h => h rfl) ?_
    rintro ⟨h, -⟩
    rw [typeLen] at h
    · cases h
    all_goals assumption

/-! ### The reference parser -/

theorem validMsg_congr (h : chr (byteAt msg 2) ≠ 'B') {lenB lenB' : ℕ} :
    ValidMsg lenB msg ↔ ValidMsg lenB' msg := by
  rw [ValidMsg, ValidMsg]
  generalize chr (byteAt msg 2) = c at h
  have htype : typeLen lenB c = typeLen lenB' c := by
    unfold typeLen
    split <;> first | rfl | exact absurd rfl h
  rw [htype]

theorem validMsg_typeB (h : chr (byteAt msg 2) = 'B') {lenB : ℕ} :
    ValidMsg lenB msg ↔ fromBytes (slice msg 0 2) = lenB := by
  rw [ValidMsg, h]
  change some lenB = some _ ∧ True ↔ _
  rw [and_true, Option.some.injEq, eq_comm]

/-- **The reference parser accepts the valid messages**, with another length for type `'B'`. -/
theorem isRet_iff (hlen : msg.length = fromBytes (slice msg 0 2) + 2) (hsym : HasSymbol msg) :
    (Ref.ITCHParser.parseMsg msg).IsRet ↔ ValidMsg 17 msg := by
  by_cases hB : chr (byteAt msg 2) = 'B'
  · rw [isRet_typeB hlen hB, validMsg_typeB hB]
  · have h19 : ValidMsg 17 msg ↔ ValidMsg 19 msg := validMsg_congr hB
    have hrtl : decodeMsg 0 msg ≠ none ↔ ValidMsg 19 msg := decodeMsg_iff
    rw [h19, ← hrtl, decodeMsg_eq 0 hlen hsym hB,
      ← accepted_isSome, ne_eq, Option.map_eq_none_iff, Option.isSome_iff_ne_none]

end Valid

/-! ### ASCII -/

/-- The encoding of an ASCII character. -/
theorem encode_chr {b : Byte} (h : b.toNat < 128) :
    String.utf8EncodeChar (chr b) = [UInt8.ofBitVec b] := by
  have hval : (chr b).val.toNat = b.toNat := by
    rw [chr, Char.ofNat, dif_pos (Or.inl (by omega))]
    rfl
  rw [String.utf8EncodeChar, hval]
  have : b.toNat ≤ 0x7f := by omega
  simp only [this, if_true]
  congr 1
  apply UInt8.toBitVec_inj.1
  simp

/-- ASCII text can be decoded. -/
theorem decode_ascii {data : List Byte} (h : ∀ b ∈ data, b.toNat < 128) :
    ∃ s, Ref.decode data = some s := by
  have hflat : (data.map chr).flatMap String.utf8EncodeChar = data.map UInt8.ofBitVec := by
    induction data with
    | nil => rfl
    | cons b data ih =>
      obtain ⟨hb, hdata⟩ := List.forall_mem_cons.1 h
      rw [List.map_cons, List.flatMap_cons, ih hdata, encode_chr hb]
      rfl
  have hvalid : ByteArray.IsValidUTF8 ⟨(data.map UInt8.ofBitVec).toArray⟩ := by
    refine ⟨data.map chr, ?_⟩
    rw [List.utf8Encode, hflat]
    apply ByteArray.ext
    simp
  exact ⟨_, dif_pos hvalid⟩

end ItchOrderBook.Decode
