import ItchOrderBook.Ref.ItchParser

/-!
# The packet generators

`gen_header` and the message generators of `pkt_gen.py`. An integer that does not fit its bytes makes
`int.to_bytes` raise `OverflowError`; the types of the arguments leave such integers out. A code is a
text of one character.
-/

namespace ItchOrderBook.Ref

/-- `bytes(c, encoding="utf-8")` of one character. -/
def encodeChar (c : Char) : List Byte := (String.utf8EncodeChar c).map UInt8.toBitVec

/-- `bytes(text, encoding="utf-8")`. -/
def encode (text : String) : List Byte := text.toList.flatMap encodeChar

/-- `b'\00' * n`. -/
def zeros (n : ℕ) : List Byte := List.replicate n 0

/-- `gen_header`. -/
def genHeader (sessionId : String) (seqNumber : BitVec 64) (msgCount : BitVec 16) : List Byte :=
  encode sessionId ++ toBytes 8 seqNumber.toNat ++ toBytes 2 msgCount.toNat

/-- `gen_event_msg`. -/
def genEventMsg (eventCode : Char) : List Byte :=
  toBytes 2 12 ++ encodeChar 'S' ++ zeros 10 ++ encodeChar eventCode

/-- `gen_directory_msg`. -/
def genDirectoryMsg (stockLocate : BitVec 16) (stockSymbol : String) : List Byte :=
  toBytes 2 39 ++ encodeChar 'R' ++ toBytes 2 stockLocate.toNat ++ zeros 8 ++ encode stockSymbol ++
    zeros 20

/-- `gen_trade_action_msg`. -/
def genTradeActionMsg (stockLocate : BitVec 16) (stockSymbol : String) (tradeAction : Char) :
    List Byte :=
  toBytes 2 25 ++ encodeChar 'H' ++ toBytes 2 stockLocate.toNat ++ zeros 8 ++ encode stockSymbol ++
    encodeChar tradeAction ++ zeros 5

/-- `gen_op_halt_msg`. -/
def genOpHaltMsg (stockLocate : BitVec 16) (stockSymbol : String) (marketCode action : Char) :
    List Byte :=
  toBytes 2 21 ++ encodeChar 'h' ++ toBytes 2 stockLocate.toNat ++ zeros 8 ++ encode stockSymbol ++
    encodeChar marketCode ++ encodeChar action

/-- `gen_add_msg`. -/
def genAddMsg (stockLocate : BitVec 16) (orderId : BitVec 64) (buySell : Char)
    (shares price : BitVec 32) (mpid : Bool) : List Byte :=
  toBytes 2 (if mpid then 40 else 36) ++ (if mpid then encodeChar 'F' else encodeChar 'A') ++
    toBytes 2 stockLocate.toNat ++ zeros 8 ++ toBytes 8 orderId.toNat ++ encodeChar buySell ++
    toBytes 4 shares.toNat ++ zeros 8 ++ toBytes 4 price.toNat ++ zeros (if mpid then 4 else 0)

/-- `gen_execute_msg`. -/
def genExecuteMsg (stockLocate : BitVec 16) (orderId : BitVec 64) (shares : BitVec 32)
    (atPrice : Bool) : List Byte :=
  toBytes 2 (if atPrice then 36 else 31) ++ (if atPrice then encodeChar 'C' else encodeChar 'E') ++
    toBytes 2 stockLocate.toNat ++ zeros 8 ++ toBytes 8 orderId.toNat ++ toBytes 4 shares.toNat ++
    zeros 8 ++ zeros (if atPrice then 5 else 0)

/-- `gen_cancel_msg`. -/
def genCancelMsg (stockLocate : BitVec 16) (orderId : BitVec 64) (shares : BitVec 32) : List Byte :=
  toBytes 2 23 ++ encodeChar 'X' ++ toBytes 2 stockLocate.toNat ++ zeros 8 ++
    toBytes 8 orderId.toNat ++ toBytes 4 shares.toNat

/-- `gen_delete_msg`. -/
def genDeleteMsg (stockLocate : BitVec 16) (orderId : BitVec 64) : List Byte :=
  toBytes 2 19 ++ encodeChar 'D' ++ toBytes 2 stockLocate.toNat ++ zeros 8 ++ toBytes 8 orderId.toNat

/-- `gen_replace_msg`. -/
def genReplaceMsg (stockLocate : BitVec 16) (orderIdDel orderIdAdd : BitVec 64)
    (shares price : BitVec 32) : List Byte :=
  toBytes 2 35 ++ encodeChar 'U' ++ toBytes 2 stockLocate.toNat ++ zeros 8 ++
    toBytes 8 orderIdDel.toNat ++ toBytes 8 orderIdAdd.toNat ++ toBytes 4 shares.toNat ++
    toBytes 4 price.toNat

/-- An encoded text is decoded to the text. -/
theorem decode_encode (text : String) : decode (encode text) = some text := by
  have hbytes : (⟨((encode text).map UInt8.ofBitVec).toArray⟩ : ByteArray) = text.toByteArray := by
    rw [← String.utf8Encode_toList, List.utf8Encode, encode, List.map_flatMap]
    have hchar : ∀ c, (encodeChar c).map UInt8.ofBitVec = String.utf8EncodeChar c := by
      intro c
      rw [encodeChar, List.map_map]
      exact List.map_id _
    simp only [hchar]
    apply ByteArray.ext
    simp
  rw [decode, hbytes, String.fromUTF8?, dif_pos text.isValidUTF8]
  rfl

end ItchOrderBook.Ref
