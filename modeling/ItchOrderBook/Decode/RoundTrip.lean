import ItchOrderBook.Decode.Chunks
import ItchOrderBook.Ref.PktGen
import ItchOrderBook.Ref.Top

/-!
# Decoding undoes encoding

What the generators of packets encode (`GenCall.bytes`) the reference parsers decode to the message
objects with the same fields (`GenCall.objects`): message by message (`parseMsg_bytes`), and behind a
header for a whole packet (`testParsePkt_bytes`).
-/

namespace ItchOrderBook.Decode

open Ref (Byte ITCHMsg MoldUDP64Parser Outcome SystemEventCode TradeActionCode decode encode encodeChar
  fromBytes genHeader toBytes zeros)
open Ref.ITCHParser (parseMsg withSymbol)

/-- A stock symbol: eight ASCII characters. -/
structure StockSymbol where
  text : String
  length : text.toList.length = 8
  ascii : ∀ c ∈ text.toList, c.toNat < 128

/-- The market codes that the parser knows. -/
inductive MarketCode
  | q
  | b
  | x
  deriving DecidableEq, Repr

/-- A call of a message generator with valid codes, and fields that fit their bytes. -/
inductive GenCall
  | event (eventCode : SystemEventCode)
  | directory (stockLocate : BitVec 16) (stockSymbol : StockSymbol)
  | tradeAction (stockLocate : BitVec 16) (stockSymbol : StockSymbol) (tradeAction : TradeActionCode)
  | opHalt (stockLocate : BitVec 16) (stockSymbol : StockSymbol) (marketCode : MarketCode)
      (isHalt : Bool)
  | add (stockLocate : BitVec 16) (orderId : BitVec 64) (isBuy : Bool) (shares price : BitVec 32)
      (mpid : Bool)
  | execute (stockLocate : BitVec 16) (orderId : BitVec 64) (shares : BitVec 32) (atPrice : Bool)
  | cancel (stockLocate : BitVec 16) (orderId : BitVec 64) (shares : BitVec 32)
  | delete (stockLocate : BitVec 16) (orderId : BitVec 64)
  | replace (stockLocate : BitVec 16) (orderIdDel orderIdAdd : BitVec 64) (shares price : BitVec 32)

/-- The character of a system event. -/
def eventChar : SystemEventCode → Char
  | .msgBegin => 'O'
  | .sysBegin => 'S'
  | .mktBegin => 'Q'
  | .mktEnd => 'M'
  | .sysEnd => 'E'
  | .msgEnd => 'C'

/-- The character of a trading action. -/
def actionChar : TradeActionCode → Char
  | .halt => 'H'
  | .pause => 'P'
  | .quote => 'Q'
  | .trade => 'T'

/-- The character of a market. -/
def marketChar : MarketCode → Char
  | .q => 'Q'
  | .b => 'B'
  | .x => 'X'

/-- The bytes that are generated. -/
def GenCall.bytes : GenCall → List Byte
  | .event eventCode => Ref.genEventMsg (eventChar eventCode)
  | .directory stockLocate stockSymbol => Ref.genDirectoryMsg stockLocate stockSymbol.text
  | .tradeAction stockLocate stockSymbol code =>
    Ref.genTradeActionMsg stockLocate stockSymbol.text (actionChar code)
  | .opHalt stockLocate stockSymbol marketCode isHalt =>
    Ref.genOpHaltMsg stockLocate stockSymbol.text (marketChar marketCode) (if isHalt then 'H' else 'T')
  | .add stockLocate orderId isBuy shares price mpid =>
    Ref.genAddMsg stockLocate orderId (if isBuy then 'B' else 'S') shares price mpid
  | .execute stockLocate orderId shares atPrice => Ref.genExecuteMsg stockLocate orderId shares atPrice
  | .cancel stockLocate orderId shares => Ref.genCancelMsg stockLocate orderId shares
  | .delete stockLocate orderId => Ref.genDeleteMsg stockLocate orderId
  | .replace stockLocate orderIdDel orderIdAdd shares price =>
    Ref.genReplaceMsg stockLocate orderIdDel orderIdAdd shares price

/-- The message objects with the same fields. -/
def GenCall.objects : GenCall → List ITCHMsg
  | .event eventCode => [.systemEvent 0 eventCode]
  | .directory stockLocate stockSymbol => [.directory stockLocate.toNat stockSymbol.text]
  | .tradeAction stockLocate stockSymbol code =>
    [.tradeAction stockLocate.toNat stockSymbol.text code]
  | .opHalt stockLocate stockSymbol marketCode isHalt =>
    [.opHalt stockLocate.toNat stockSymbol.text (marketChar marketCode) isHalt]
  | .add stockLocate orderId isBuy shares price _ =>
    [.book (.add stockLocate.toNat orderId.toNat isBuy shares.toNat price.toNat)]
  | .execute stockLocate orderId shares _ =>
    [.book (.reduce stockLocate.toNat orderId.toNat shares.toNat)]
  | .cancel stockLocate orderId shares =>
    [.book (.reduce stockLocate.toNat orderId.toNat shares.toNat)]
  | .delete stockLocate orderId => [.book (.delete stockLocate.toNat orderId.toNat)]
  | .replace stockLocate orderIdDel orderIdAdd shares price =>
    [.book (.delete stockLocate.toNat orderIdDel.toNat),
      .book (.replace stockLocate.toNat orderIdAdd.toNat shares.toNat price.toNat)]

/-! ### One message -/

/-- A stock symbol takes eight bytes. -/
theorem StockSymbol.length_encode (symbol : StockSymbol) : (encode symbol.text).length = 8 := by
  have hone : ∀ c ∈ symbol.text.toList, (encodeChar c).length = 1 := by
    intro c hc
    have hsize : c.toNat ≤ 127 := Nat.le_of_lt_succ (symbol.ascii c hc)
    rw [encodeChar, List.length_map, String.length_utf8EncodeChar]
    exact Char.utf8Size_eq_one_iff.2 hsize
  rw [encode, List.length_flatMap, ← symbol.length]
  rw [List.map_congr_left hone, List.map_const', List.sum_replicate]
  simp

theorem parseMsg_event (code : SystemEventCode) :
    parseMsg (Ref.genEventMsg (eventChar code)) = .ret [.systemEvent 0 code] := by
  cases code <;> rfl

section Symbol

variable {stockLocate : BitVec 16} {symbol : List Byte}

theorem parseMsg_directory (h : symbol.length = 8) :
    parseMsg (toBytes 2 39 ++ encodeChar 'R' ++ toBytes 2 stockLocate.toNat ++ zeros 8 ++ symbol ++
        zeros 20) =
      withSymbol (decode symbol) fun s => .ret [.directory (fromBytes (toBytes 2 stockLocate.toNat)) s] :=
  match symbol, h with
  | [_, _, _, _, _, _, _, _], _ => rfl

theorem parseMsg_tradeAction (h : symbol.length = 8) (code : TradeActionCode) :
    parseMsg (toBytes 2 25 ++ encodeChar 'H' ++ toBytes 2 stockLocate.toNat ++ zeros 8 ++ symbol ++
        encodeChar (actionChar code) ++ zeros 5) =
      withSymbol (decode symbol) fun s =>
        .ret [.tradeAction (fromBytes (toBytes 2 stockLocate.toNat)) s code] := by
  match symbol, h with
  | [_, _, _, _, _, _, _, _], _ => cases code <;> rfl

theorem parseMsg_opHalt (h : symbol.length = 8) (market : MarketCode) (isHalt : Bool) :
    parseMsg (toBytes 2 21 ++ encodeChar 'h' ++ toBytes 2 stockLocate.toNat ++ zeros 8 ++ symbol ++
        encodeChar (marketChar market) ++ encodeChar (if isHalt then 'H' else 'T')) =
      withSymbol (decode symbol) fun s =>
        .ret [.opHalt (fromBytes (toBytes 2 stockLocate.toNat)) s (marketChar market) isHalt] := by
  match symbol, h with
  | [_, _, _, _, _, _, _, _], _ => cases market <;> cases isHalt <;> rfl

end Symbol

section Order

variable {stockLocate : BitVec 16} {orderId orderIdAdd : BitVec 64} {shares price : BitVec 32}

theorem parseMsg_addBid (mpid : Bool) :
    parseMsg (Ref.genAddMsg stockLocate orderId 'B' shares price mpid) =
      .ret [.book (.add (fromBytes (toBytes 2 stockLocate.toNat)) (fromBytes (toBytes 8 orderId.toNat))
        true (fromBytes (toBytes 4 shares.toNat)) (fromBytes (toBytes 4 price.toNat)))] := by
  cases mpid <;> rfl

theorem parseMsg_addOffer (mpid : Bool) :
    parseMsg (Ref.genAddMsg stockLocate orderId 'S' shares price mpid) =
      .ret [.book (.add (fromBytes (toBytes 2 stockLocate.toNat)) (fromBytes (toBytes 8 orderId.toNat))
        false (fromBytes (toBytes 4 shares.toNat)) (fromBytes (toBytes 4 price.toNat)))] := by
  cases mpid <;> rfl

theorem parseMsg_execute (atPrice : Bool) :
    parseMsg (Ref.genExecuteMsg stockLocate orderId shares atPrice) =
      .ret [.book (.reduce (fromBytes (toBytes 2 stockLocate.toNat))
        (fromBytes (toBytes 8 orderId.toNat)) (fromBytes (toBytes 4 shares.toNat)))] := by
  cases atPrice <;> rfl

theorem parseMsg_cancel :
    parseMsg (Ref.genCancelMsg stockLocate orderId shares) =
      .ret [.book (.reduce (fromBytes (toBytes 2 stockLocate.toNat))
        (fromBytes (toBytes 8 orderId.toNat)) (fromBytes (toBytes 4 shares.toNat)))] := rfl

theorem parseMsg_delete :
    parseMsg (Ref.genDeleteMsg stockLocate orderId) =
      .ret [.book (.delete (fromBytes (toBytes 2 stockLocate.toNat))
        (fromBytes (toBytes 8 orderId.toNat)))] := rfl

theorem parseMsg_replace :
    parseMsg (Ref.genReplaceMsg stockLocate orderId orderIdAdd shares price) =
      .ret [.book (.delete (fromBytes (toBytes 2 stockLocate.toNat))
          (fromBytes (toBytes 8 orderId.toNat))),
        .book (.replace (fromBytes (toBytes 2 stockLocate.toNat))
          (fromBytes (toBytes 8 orderIdAdd.toNat)) (fromBytes (toBytes 4 shares.toNat))
          (fromBytes (toBytes 4 price.toNat)))] := rfl

end Order

/-- **A generated message is parsed to its message objects.** -/
theorem parseMsg_bytes (g : GenCall) : parseMsg g.bytes = .ret g.objects := by
  cases g with
  | event code => exact parseMsg_event code
  | directory l s =>
    refine (parseMsg_directory s.length_encode).trans ?_
    rw [Ref.decode_encode, Ref.fromBytes_toNat rfl]
    rfl
  | tradeAction l s a =>
    refine (parseMsg_tradeAction s.length_encode a).trans ?_
    rw [Ref.decode_encode, Ref.fromBytes_toNat rfl]
    rfl
  | opHalt l s m isHalt =>
    refine (parseMsg_opHalt s.length_encode m isHalt).trans ?_
    rw [Ref.decode_encode, Ref.fromBytes_toNat rfl]
    rfl
  | add l o isBuy s p mpid =>
    cases isBuy
    · refine (parseMsg_addOffer mpid).trans ?_
      simp only [Ref.fromBytes_toNat, GenCall.objects]
    · refine (parseMsg_addBid mpid).trans ?_
      simp only [Ref.fromBytes_toNat, GenCall.objects]
  | execute l o s atPrice =>
    refine (parseMsg_execute atPrice).trans ?_
    simp only [Ref.fromBytes_toNat, GenCall.objects]
  | cancel l o s =>
    refine parseMsg_cancel.trans ?_
    simp only [Ref.fromBytes_toNat, GenCall.objects]
  | delete l o =>
    refine parseMsg_delete.trans ?_
    simp only [Ref.fromBytes_toNat, GenCall.objects]
  | replace l o o' s p =>
    refine parseMsg_replace.trans ?_
    simp only [Ref.fromBytes_toNat, GenCall.objects]

/-! ### A packet -/

/-- A generated message is a chunk. -/
theorem chunk_bytes (g : GenCall) : Framing.Chunk g.bytes := by
  have hlen := length_of_isRet (show (parseMsg g.bytes).IsRet from ⟨_, parseMsg_bytes g⟩)
  exact Framing.chunk_iff.2 ⟨by omega, by rw [hlen, Nat.add_comm]; rfl⟩

section Packet

variable {np : MoldUDP64Parser} {sessionId : String} {seqNumber : BitVec 64} {msgCount : BitVec 16}
  {gs : List GenCall}

/-- A header and the messages it announces are a packet. -/
theorem packet_header (hid : (encode sessionId).length = 10) (hcount : msgCount.toNat = gs.length) :
    Framing.Packet (genHeader sessionId seqNumber msgCount ++ (gs.map GenCall.bytes).flatten)
      (encode sessionId) seqNumber.toNat (gs.map GenCall.bytes) where
  bytes := by
    refine ⟨toBytes 8 seqNumber.toNat, toBytes 2 msgCount.toNat, rfl, Ref.length_toBytes 8 _,
      Ref.fromBytes_toNat rfl _, Ref.length_toBytes 2 _, ?_⟩
    rw [Ref.fromBytes_toNat rfl, hcount, List.length_map]
  session := hid
  chunk m hm := by
    obtain ⟨g, -, rfl⟩ := List.mem_map.1 hm
    exact chunk_bytes g

theorem parseMsgs_bytes (gs : List GenCall) :
    Ref.Top.parseMsgs (gs.map GenCall.bytes) = gs.map fun g => .ret g.objects := by
  induction gs with
  | nil => rfl
  | cons g gs ih => rw [List.map_cons, Ref.Top.parseMsgs, parseMsg_bytes, List.map_cons, ih]

/-- **Decoding undoes encoding.** Each generated message is parsed to its message objects; behind a header
that fits the parser the messages are split again, and parsed to the objects of one after the other. -/
theorem decode_generated (hid : (encode sessionId).length = 10)
    (hsession : np.firstPktReceived = true → np.sessionId = some (encode sessionId))
    (hseq : seqNumber.toNat = np.seqExpected) (hcount : msgCount.toNat = gs.length) :
    (∀ g : GenCall, parseMsg g.bytes = .ret g.objects) ∧
      (np.processPkt (genHeader sessionId seqNumber msgCount ++ (gs.map GenCall.bytes).flatten)).1 =
        .ret (gs.map GenCall.bytes) ∧
      (Ref.Top.testParsePkt np
          (genHeader sessionId seqNumber msgCount ++ (gs.map GenCall.bytes).flatten)).1 =
        gs.map fun g => .ret g.objects := by
  have hret := (Framing.processPkt_ret_iff np _ (gs.map GenCall.bytes)).2
    ⟨encode sessionId, hsession, hseq ▸ packet_header hid hcount⟩
  refine ⟨parseMsg_bytes, hret, ?_⟩
  rw [Ref.Top.testParsePkt]
  generalize np.processPkt _ = out at hret
  obtain ⟨o, np'⟩ := out
  dsimp only at hret
  rw [hret]
  exact parseMsgs_bytes gs

end Packet

/-- A bid and its replacement. -/
def bidAndReplace : List GenCall := [.add 7 1 true 10 100100 true, .replace 7 1 2 5 100150]

theorem decode_generated_bid :
    (Ref.Top.testParsePkt .new (genHeader "SESSION_ID" 1 2 ++ (bidAndReplace.map GenCall.bytes).flatten)).1 =
      [.ret [.book (.add 7 1 true 10 100100)],
        .ret [.book (.delete 7 1), .book (.replace 7 2 5 100150)]] :=
  (decode_generated (by decide +kernel) (fun h => absurd h (by decide)) (by decide) (by decide)).2.2

end ItchOrderBook.Decode
