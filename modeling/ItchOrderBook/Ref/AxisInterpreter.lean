import ItchOrderBook.Ref.Bytes

/-!
# The reference AXI-Stream interpreter and its driver

`AxisInterpreter` of `axis_interpreter.py`: it collects the bytes of a packet, the least
significant byte of a word first, and hands the packet on with its last word.

`ref_axis_send_packet` of `axis_driver.py`: it sends a packet in words of four bytes, the last one padded
with zeros. How often it drops `tvalid` before a word is random; here the numbers are given.
-/

namespace ItchOrderBook.Ref

/-- The arguments of `process_bus_cycle`. -/
structure BusCycle where
  tdata : BitVec 32
  tlast : Bool
  tvalid : Bool
  tkeep : BitVec 4
  deriving DecidableEq, Repr

namespace BusCycle

/-- The bytes of the word that `tkeep` selects. -/
def kept (c : BusCycle) : List Byte :=
  ((List.range 4).filter fun i => c.tkeep.getLsbD i).map fun i => c.tdata.extractLsb' (8 * i) 8

end BusCycle

/-- `AxisInterpreter.process_bus_cycle`: the packet handed to the callback, if any, and the buffer. -/
def AxisInterpreter.processBusCycle (buffer : List Byte) (c : BusCycle) (tready : Bool) :
    Option (List Byte) × List Byte :=
  if !(c.tvalid && tready) then (none, buffer)
  else if c.tlast then (some (buffer ++ c.kept), [])
  else (none, buffer ++ c.kept)

/-! ### The driver -/

/-- `int.from_bytes(data, byteorder="little")`. -/
def fromBytesLittle (data : List Byte) : ℕ := fromBytes data.reverse

/-- `padding_len`. -/
def paddingLen (byteData : List Byte) : ℕ := (4 - byteData.length % 4) % 4

/-- `padded_data`. -/
def paddedData (byteData : List Byte) : List Byte :=
  byteData ++ List.replicate (paddingLen byteData) 0

/-- `total_words`. -/
def totalWords (byteData : List Byte) : ℕ := (paddedData byteData).length / 4

/-- `tkeep_value` of a word. -/
def tkeepValue (byteData : List Byte) (wordIdx : ℕ) : BitVec 4 :=
  if wordIdx = totalWords byteData - 1 ∧ paddingLen byteData > 0 then
    BitVec.ofNat 4 ((1 <<< (4 - paddingLen byteData)) - 1)
  else 0xF

/-- The cycle of a word. -/
def wordCycle (byteData : List Byte) (wordIdx : ℕ) : BusCycle where
  tdata := BitVec.ofNat 32 (fromBytesLittle (slice (paddedData byteData) (wordIdx * 4) (wordIdx * 4 + 4)))
  tlast := wordIdx = totalWords byteData - 1
  tvalid := true
  tkeep := tkeepValue byteData wordIdx

/-- `ref_axis_send_packet`, with the number of cycles without `tvalid` before each word. -/
def refAxisSendPacket (byteData : List Byte) (drops : ℕ → ℕ) : List BusCycle :=
  (List.range (totalWords byteData)).flatMap fun wordIdx =>
    List.replicate (drops wordIdx) ⟨0, false, false, tkeepValue byteData wordIdx⟩ ++
      [wordCycle byteData wordIdx]

end ItchOrderBook.Ref
