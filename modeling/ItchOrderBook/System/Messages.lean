import ItchOrderBook.Decode.Packets
import ItchOrderBook.Session.InStep

/-!
# What a chunk is parsed into

The reference parser yields one message for a chunk, or the delete and the replace of a replace message
(`Chunked`). What it yields carries the locate of the chunk, and fits the signals of the RTL: a stock locate
has 16 bits, a stock symbol eight bytes (`Fields`).
-/

namespace ItchOrderBook.System

open Decode (Decoded view views)
open Ref (BookMsg Byte ITCHMsg Outcome slice fromBytes chr)
open Ref.ITCHParser (expectLen getItem parseAdd parseMsg parseReduce withSymbol)

/-! ### The shape of what is yielded -/

/-- The locate and the symbol of the message fit the signals. -/
def Fields : ITCHMsg → Prop
  | .directory l s => l < 2 ^ 16 ∧ s.toByteArray.size = 8
  | .tradeAction _ s _ | .opHalt _ s _ _ => s.toByteArray.size = 8
  | _ => True

/-- `msg.stock_locate`. -/
def locateOf : ITCHMsg → ℕ
  | .systemEvent l _ | .directory l _ | .tradeAction l _ _ | .opHalt l _ _ _ | .other l => l
  | .book o => o.stockLocate

/-- One message, or the two halves of a replace, with the stock locate `l`. -/
inductive Chunked (l : ℕ) : List ITCHMsg → Prop
  | single {m : ITCHMsg} (h : Fields m) (hl : locateOf m = l) : Chunked l [m]
  | replace (old new : ℕ) (shares price : ℤ) :
    Chunked l [.book (.delete l old), .book (.replace l new shares price)]

/-- What is returned, if anything is, is of this shape. -/
def Shaped (l : ℕ) (o : Outcome (List ITCHMsg)) : Prop := ∀ msgs, o = .ret msgs → Chunked l msgs

section Shaped

variable {locate : ℕ}

theorem shaped_err (code : String) : Shaped locate (.err code) := fun _ h => by cases h

theorem shaped_raise (e : Ref.Exn) : Shaped locate (.raise e) := fun _ h => by cases h

theorem shaped_single {m : ITCHMsg} (h : Fields m) (hl : locateOf m = locate) :
    Shaped locate (.ret [m]) := by
  intro msgs hret
  obtain rfl := Outcome.ret.inj hret
  exact .single h hl

theorem shaped_expectLen {l n : ℕ} {k : Outcome (List ITCHMsg)} (h : l = n → Shaped locate k) :
    Shaped locate (expectLen l n k) := by
  rw [expectLen]
  split_ifs with hne
  · exact shaped_err _
  · exact h (not_not.1 hne)

theorem shaped_getItem {msg : List Byte} {i : ℕ} {k : Byte → Outcome (List ITCHMsg)}
    (h : ∀ b, Shaped locate (k b)) : Shaped locate (getItem msg i k) := by
  rw [getItem]
  cases msg[i]? with
  | none => exact shaped_raise _
  | some b => exact h b

end Shaped

/-- A stock symbol that is decoded has the bytes of the message. -/
theorem size_decode {data : List Byte} {s : String} (h : Ref.decode data = some s) :
    s.toByteArray.size = data.length := by
  rw [Ref.decode, String.fromUTF8?] at h
  split_ifs at h with hv
  cases h
  change (data.map UInt8.ofBitVec).toArray.size = _
  rw [List.size_toArray, List.length_map]

section Parse

variable {msg : List Byte} {l locate : ℕ}

theorem shaped_withSymbol {n : ℕ} {k : String → Outcome (List ITCHMsg)} (hlen : msg.length = l + 2)
    (hl : l = n) (hn : 19 ≤ n) (h : ∀ s : String, s.toByteArray.size = 8 → Shaped locate (k s)) :
    Shaped locate (withSymbol (Ref.decode (slice msg 13 21)) k) := by
  cases hs : Ref.decode (slice msg 13 21) with
  | none => exact shaped_raise _
  | some s =>
    apply h
    rw [size_decode hs, Ref.length_slice]
    omega

theorem shaped_add {orderId : ℕ} : Shaped locate (parseAdd msg locate orderId) := by
  apply shaped_getItem
  intro b
  split
  · exact shaped_single trivial rfl
  · exact shaped_single trivial rfl
  · exact shaped_err _

theorem shaped_halt (hlen : msg.length = l + 2) (hl : l = 21) :
    Shaped locate (getItem msg 21 fun b =>
      let marketCode := chr b
      if marketCode ∉ ['Q', 'B', 'X'] then .err "Invalid market code."
      else getItem msg 22 fun b =>
        let opHalt (isHalt : Bool) : Outcome (List ITCHMsg) :=
          withSymbol (Ref.decode (slice msg 13 21)) fun symbol =>
            .ret [.opHalt locate symbol marketCode isHalt]
        match chr b with
        | 'H' => opHalt true
        | 'T' => opHalt false
        | _ => .err "Invalid op halt code.") := by
  have hsym : ∀ c b, Shaped locate (withSymbol (Ref.decode (slice msg 13 21)) fun symbol =>
      .ret [.opHalt locate symbol c b]) := fun c b =>
    shaped_withSymbol hlen hl (by decide) fun s hs => shaped_single hs rfl
  apply shaped_getItem
  intro b
  dsimp only
  split_ifs with hmarket
  · apply shaped_getItem
    intro b'
    split
    · exact hsym _ true
    · exact hsym _ false
    · exact shaped_err _
  · exact shaped_err _

/-- **The parser yields one message, or the two halves of a replace.** -/
theorem shaped_parseMsg (msg : List Byte) : Shaped (fromBytes (slice msg 3 5)) (parseMsg msg) := by
  rw [parseMsg]
  split_ifs with hne
  · exact shaped_raise _
  · have hlen := not_not.1 hne
    have hlocate : fromBytes (slice msg 3 5) < 2 ^ 16 := by
      have hfield : (bits 16 (slice msg 3 5)).toNat = fromBytes (slice msg 3 5) :=
        Decode.toNat_field msg (by decide)
      rw [← hfield]
      exact BitVec.isLt _
    apply shaped_getItem
    intro b
    dsimp only
    -- one goal for each type, in the order of the source
    split
    · refine shaped_expectLen fun _ => shaped_getItem fun b => ?_
      cases Ref.SystemEventCode.ofByte b with
      | none => exact shaped_err _
      | some e => exact shaped_single trivial rfl
    · exact shaped_expectLen fun hl =>
        shaped_withSymbol hlen hl (by decide) fun s hs => shaped_single ⟨hlocate, hs⟩ rfl
    · refine shaped_expectLen fun hl => shaped_getItem fun b => ?_
      cases Ref.TradeActionCode.ofByte b with
      | none => exact shaped_err _
      | some a => exact shaped_withSymbol hlen hl (by decide) fun s hs => shaped_single hs rfl
    · exact shaped_expectLen fun _ => shaped_single trivial rfl
    · exact shaped_expectLen fun _ => shaped_single trivial rfl
    · exact shaped_expectLen fun _ => shaped_single trivial rfl
    · exact shaped_expectLen fun _ => shaped_single trivial rfl
    · exact shaped_expectLen fun _ => shaped_single trivial rfl
    · exact shaped_expectLen fun _ => shaped_single trivial rfl
    · exact shaped_expectLen fun hl => shaped_halt hlen hl
    · exact shaped_expectLen fun _ => shaped_add
    · exact shaped_expectLen fun _ => shaped_add
    · exact shaped_expectLen fun _ => shaped_single trivial rfl
    · exact shaped_expectLen fun _ => shaped_single trivial rfl
    · exact shaped_expectLen fun _ => shaped_single trivial rfl
    · exact shaped_expectLen fun _ => shaped_single trivial rfl
    · refine shaped_expectLen fun _ msgs hret => ?_
      obtain rfl := Outcome.ret.inj hret
      exact .replace _ _ _ _
    · exact shaped_expectLen fun _ => shaped_single trivial rfl
    · exact shaped_expectLen fun _ => shaped_single trivial rfl
    · exact shaped_expectLen fun _ => shaped_single trivial rfl
    · exact shaped_expectLen fun _ => shaped_single trivial rfl
    · exact shaped_expectLen fun _ => shaped_single trivial rfl
    · exact shaped_expectLen fun _ => shaped_single trivial rfl
    · exact shaped_err _

theorem not_isRet_expectLen {n : ℕ} (k : Outcome (List ITCHMsg)) (h : l ≠ n) :
    ¬ (expectLen l n k).IsRet := by
  rw [expectLen, if_pos h]
  exact Outcome.isRet_err _

/-- A message that is parsed is not a short one. -/
theorem length_of_ret {msg : List Byte} (h : (parseMsg msg).IsRet) : 14 ≤ msg.length := by
  by_contra hshort
  have hlen := Decode.length_of_isRet h
  rw [parseMsg, if_neg (not_not.2 hlen), getItem] at h
  cases hb : msg[2]? with
  | none =>
    rw [hb] at h
    exact absurd h (Outcome.isRet_raise _)
  | some b =>
    rw [hb] at h
    dsimp only at h
    split at h
    all_goals first
      | exact absurd h (not_isRet_expectLen _ (by omega))
      | exact absurd h (Outcome.isRet_err _)

end Parse

end ItchOrderBook.System
