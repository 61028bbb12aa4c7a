import ItchOrderBook.Decode.Valid
import ItchOrderBook.Framing.Grammar

/-!
# The reference ITCH parser on the chunks of a packet

A chunk of an accepted packet may have any body. The ITCH parser reports an error for it, or one
message, or a delete and a replace (`Reports`), unless the body is empty or the chunk is a valid message
whose stock symbol cannot be decoded: then it raises an exception (`reports_iff`).
-/

namespace ItchOrderBook.Decode

open Ref (Byte ITCHMsg MoldUDP64Parser Outcome slice fromBytes chr)
open Ref.ITCHParser (expectLen getItem parseMsg withSymbol)

/-- The generator yields one error result, or one message, or a delete and the replace behind it. -/
def Reports (o : Outcome (List ITCHMsg)) : Prop :=
  (∃ code, o = .err code) ∨ (∃ msg, o = .ret [msg]) ∨
    ∃ locate old new shares price,
      o = .ret [.book (.delete locate old), .book (.replace locate new shares price)]

theorem reports_err (code : String) : Reports (.err code) := Or.inl ⟨code, rfl⟩

theorem reports_msg (msg : ITCHMsg) : Reports (.ret [msg]) := Or.inr (Or.inl ⟨msg, rfl⟩)

theorem not_reports_raise (e : Ref.Exn) : ¬ Reports (.raise e) := by
  rintro (⟨c, h⟩ | ⟨m, h⟩ | ⟨l, i, j, s, p, h⟩) <;> cases h

theorem reports_expectLen {l n : ℕ} {k : Outcome (List ITCHMsg)} :
    Reports (expectLen l n k) ↔ (l = n → Reports k) := by
  rw [expectLen]
  split_ifs with h
  · exact iff_of_true (reports_err _) fun h' => absurd h' h
  · exact ⟨fun hk _ => hk, fun hk => hk (not_not.1 h)⟩

theorem reports_withSymbol {symbol : Option String} {k : String → Outcome (List ITCHMsg)}
    (hk : ∀ s, Reports (k s)) : Reports (withSymbol symbol k) ↔ ∃ s, symbol = some s := by
  cases symbol with
  | none => exact iff_of_false (not_reports_raise _) fun ⟨_, h⟩ => by cases h
  | some s => exact iff_of_true (hk s) ⟨s, rfl⟩

section Chunk

variable {msg : List Byte} {l : ℕ}

/-- A case that does not use the stock symbol. -/
theorem reports_plain {c : Char} {n : ℕ} {k : Outcome (List ITCHMsg)} {P Q : Prop}
    (hk : l = n → Reports k) (hc : c ∉ ['R', 'H', 'h']) :
    Reports (expectLen l n k) ↔ (P → c ∈ ['R', 'H', 'h'] → Q) :=
  iff_of_true (reports_expectLen.2 hk) fun _ h => absurd h hc

theorem reports_systemEvent (hlen : msg.length = l + 2) {locate : ℕ} (h : l = 12) :
    Reports (getItem msg 13 fun b => match Ref.SystemEventCode.ofByte b with
      | none => .err "Invalid event code."
      | some eventCode => .ret [.systemEvent locate eventCode]) := by
  rw [getItem_eq (by omega)]
  cases Ref.SystemEventCode.ofByte (byteAt msg 13)
  · exact reports_err _
  · exact reports_msg _

theorem reports_add (hlen : msg.length = l + 2) {locate orderId : ℕ} (h : 20 ≤ l) :
    Reports (Ref.ITCHParser.parseAdd msg locate orderId) := by
  rw [Ref.ITCHParser.parseAdd, getItem_eq (by omega)]
  generalize chr (byteAt msg 21) = c
  dsimp only
  split
  · exact reports_msg _
  · exact reports_msg _
  · exact reports_err _

theorem reports_directory {symbol : Option String} {locate : ℕ} :
    Reports (expectLen l 39 (withSymbol symbol fun s => .ret [.directory locate s])) ↔
      (l = 39 → ∃ s, symbol = some s) := by
  rw [reports_expectLen, reports_withSymbol fun s => reports_msg _]

theorem tradeAction_isSome (b : Byte) :
    (∃ code, Ref.TradeActionCode.ofByte b = some code) ↔ chr b ∈ ['H', 'P', 'Q', 'T'] := by
  rw [Ref.TradeActionCode.ofByte]
  split <;> simp_all

theorem reports_tradeAction (hlen : msg.length = l + 2) {symbol : Option String} {locate : ℕ} :
    Reports (expectLen l 25 (getItem msg 21 fun b => match Ref.TradeActionCode.ofByte b with
      | none => .err "Invalid trading action."
      | some tradeAction => withSymbol symbol fun s => .ret [.tradeAction locate s tradeAction])) ↔
      (l = 25 → chr (byteAt msg 21) ∈ ['H', 'P', 'Q', 'T'] → ∃ s, symbol = some s) := by
  rw [reports_expectLen]
  refine forall_congr' fun h => ?_
  rw [getItem_eq (by omega), ← tradeAction_isSome]
  cases Ref.TradeActionCode.ofByte (byteAt msg 21) with
  | none => exact iff_of_true (reports_err _) fun ⟨_, h⟩ => by cases h
  | some code =>
    dsimp only
    rw [reports_withSymbol fun s => reports_msg _]
    exact ⟨fun h _ => h, fun h => h ⟨code, rfl⟩⟩

theorem reports_opHalt (hlen : msg.length = l + 2) {symbol : Option String} {locate : ℕ} :
    Reports (expectLen l 21 (getItem msg 21 fun b =>
      let marketCode := chr b
      if marketCode ∉ ['Q', 'B', 'X'] then .err "Invalid market code."
      else getItem msg 22 fun b =>
        let opHalt (isHalt : Bool) : Outcome (List ITCHMsg) := withSymbol symbol fun s =>
          .ret [.opHalt locate s marketCode isHalt]
        match chr b with
        | 'H' => opHalt true
        | 'T' => opHalt false
        | _ => .err "Invalid op halt code.")) ↔
      (l = 21 → chr (byteAt msg 21) ∈ ['Q', 'B', 'X'] ∧ chr (byteAt msg 22) ∈ ['H', 'T'] →
        ∃ s, symbol = some s) := by
  rw [reports_expectLen]
  refine forall_congr' fun h => ?_
  rw [getItem_eq (by omega)]
  dsimp only
  split_ifs with hmarket
  · rw [getItem_eq (by omega)]
    generalize chr (byteAt msg 22) = c
    have hsymbol : ∀ isHalt, Reports (withSymbol symbol fun s =>
        .ret [.opHalt locate s (chr (byteAt msg 21)) isHalt]) ↔ ∃ s, symbol = some s :=
      fun isHalt => reports_withSymbol fun s => reports_msg _
    split
    · rw [hsymbol]
      exact ⟨fun hs _ => hs, fun hs => hs ⟨hmarket, by decide⟩⟩
    · rw [hsymbol]
      exact ⟨fun hs _ => hs, fun hs => hs ⟨hmarket, by decide⟩⟩
    · rename_i hH hT
      refine iff_of_true (reports_err _) fun ⟨_, hc⟩ => ?_
      rcases List.mem_cons.1 hc with rfl | hc
      · exact absurd rfl hH
      · exact absurd (List.mem_singleton.1 hc) hT
  · exact iff_of_true (reports_err _) fun hm => absurd hm.1 hmarket

/-- What a valid message of a type with a stock symbol must have. -/
theorem valid_symbol_iff {c : Char} {n : ℕ} {S : Prop} (htype : typeLen 17 c = some n)
    (hc : c ∈ ['R', 'H', 'h']) :
    (typeLen 17 c = some l ∧ CodesOk msg c → c ∈ ['R', 'H', 'h'] → S) ↔ (l = n → CodesOk msg c → S) := by
  rw [htype, Option.some.injEq]
  exact ⟨fun h hn hcodes => h ⟨hn.symm, hcodes⟩ hc, fun h hv _ => h hv.1.symm hv.2⟩

/-- **One chunk.** The parser raises no exception if the body is not empty, and a valid message that has
a stock symbol has one that can be decoded. -/
theorem reports_iff (hlen : msg.length = fromBytes (slice msg 0 2) + 2) :
    Reports (parseMsg msg) ↔ msg.length ≠ 2 ∧ (ValidMsg 17 msg → HasSymbol msg) := by
  rw [parseMsg, if_neg (not_not.2 hlen)]
  by_cases h2 : msg.length = 2
  · refine iff_of_false ?_ fun h => h.1 h2
    rw [getItem, List.getElem?_eq_none (by omega)]
    exact not_reports_raise _
  · rw [getItem_eq (by omega), ValidMsg, HasSymbol, and_iff_right h2]
    generalize chr (byteAt msg 2) = c
    -- one goal for each type, in the order of the source
    dsimp only
    split
    · exact reports_plain (reports_systemEvent hlen) (by decide)
    · rw [valid_symbol_iff rfl (by decide)]
      exact reports_directory.trans ⟨fun h hn _ => h hn, fun h hn => h hn trivial⟩
    · rw [valid_symbol_iff rfl (by decide)]
      exact reports_tradeAction hlen
    · exact reports_plain (fun _ => reports_msg _) (by decide)
    · exact reports_plain (fun _ => reports_msg _) (by decide)
    · exact reports_plain (fun _ => reports_msg _) (by decide)
    · exact reports_plain (fun _ => reports_msg _) (by decide)
    · exact reports_plain (fun _ => reports_msg _) (by decide)
    · exact reports_plain (fun _ => reports_msg _) (by decide)
    · rw [valid_symbol_iff rfl (by decide)]
      exact reports_opHalt hlen
    · exact reports_plain (fun _ => reports_add hlen (by omega)) (by decide)
    · exact reports_plain (fun _ => reports_add hlen (by omega)) (by decide)
    · exact reports_plain (fun _ => reports_msg _) (by decide)
    · exact reports_plain (fun _ => reports_msg _) (by decide)
    · exact reports_plain (fun _ => reports_msg _) (by decide)
    · exact reports_plain (fun _ => reports_msg _) (by decide)
    · exact reports_plain (fun _ => Or.inr (Or.inr ⟨_, _, _, _, _, rfl⟩)) (by decide)
    · exact reports_plain (fun _ => reports_msg _) (by decide)
    · exact reports_plain (fun _ => reports_msg _) (by decide)
    · exact reports_plain (fun _ => reports_msg _) (by decide)
    · exact reports_plain (fun _ => reports_msg _) (by decide)
    · exact reports_plain (fun _ => reports_msg _) (by decide)
    · exact reports_plain (fun _ => reports_msg _) (by decide)
    · refine iff_of_true (reports_err _) fun hv => ?_
      have h := hv.1
      rw [typeLen] at h
      · cases h
      all_goals assumption

end Chunk

/-! ### The chunks of a packet -/

/-- **The parser raises no exception on an accepted packet** exactly if none of its chunks is empty, and
none is a valid message with a stock symbol that is not UTF-8. -/
theorem reports_chunks_iff {s : MoldUDP64Parser} {pkt : List Byte} {chunks : List (List Byte)}
    (h : (s.processPkt pkt).1 = .ret chunks) :
    (∀ m ∈ chunks, Reports (parseMsg m)) ↔
      ∀ m ∈ chunks, m.length ≠ 2 ∧ (ValidMsg 17 m → HasSymbol m) := by
  obtain ⟨session, -, hp⟩ := (Framing.processPkt_ret_iff s pkt chunks).1 h
  refine forall₂_congr fun m hm => reports_iff ?_
  rw [(Framing.chunk_iff.1 (hp.chunk m hm)).2, Nat.add_comm]
  rfl

/-- A packet with one chunk. -/
def packetOf (chunk : List Byte) : List Byte :=
  List.replicate 10 0 ++ [0, 0, 0, 0, 0, 0, 0, 1] ++ [0, 1] ++ chunk

/-- A delete of order 1. -/
def deleteChunk : List Byte :=
  [0, 19, 68] ++ List.replicate 10 0 ++ [0, 0, 0, 0, 0, 0, 0, 1]

theorem reports_chunks_delete : Reports (parseMsg deleteChunk) :=
  (reports_chunks_iff (show (MoldUDP64Parser.new.processPkt (packetOf deleteChunk)).1 =
      .ret [deleteChunk] by decide +kernel)).2
    (fun m hm => by
      obtain rfl := List.mem_singleton.1 hm
      exact ⟨by decide, fun _ h => absurd h (by decide)⟩) _ (List.mem_singleton.2 rfl)

/-- **An accepted packet can make the parser raise an exception**: one with an empty chunk, and one with a
stock directory message whose symbol is not UTF-8. -/
theorem not_reports_chunks :
    (MoldUDP64Parser.new.processPkt (packetOf [0, 0])).1 = .ret [[0, 0]] ∧
      parseMsg [0, 0] = .raise .indexError ∧ ¬ Reports (parseMsg [0, 0]) ∧
    (MoldUDP64Parser.new.processPkt (packetOf ([0, 39, 82] ++ List.replicate 38 255))).1 =
      .ret [[0, 39, 82] ++ List.replicate 38 255] ∧
      parseMsg ([0, 39, 82] ++ List.replicate 38 255) = .raise (.unboundLocal "stock_symbol") := by
  refine ⟨by decide +kernel, by decide +kernel, not_reports_raise _, by decide +kernel, ?_⟩
  decide +kernel

end ItchOrderBook.Decode
