import ItchOrderBook.Lib.Clocked

/-!
# The RTL MoldUDP64 parser

`moldudp64_parser` of `moldudp64_parser.sv`. `Comb` is the valuation of its combinational block on
a valid input word: the next registers and the flags from which `np_error_o` is formed. The state
register only ever holds one of its six named values, so the `default` branches of the source are
not reached. The registers without a reset are kept in the same record.
-/

namespace ItchOrderBook.Rtl

/-- One cycle of the AXI stream input. -/
structure Axis where
  tvalid : Bool
  tlast : Bool
  tdata : BitVec 32
  tkeep : BitVec 4
  deriving DecidableEq, Repr

/-- `np_state_e`. A state is named after what has been received already. -/
inductive NpState
  | idle
  | session1
  | session2
  | seqNum1
  | seqNum2
  | msg
  deriving DecidableEq, Repr

/-- The registers of `moldudp64_parser`. `bytesLeft` counts the bytes left in the current message,
those of the incoming word included, plus one. -/
structure MoldRegs where
  sessionId : BitVec 80
  compare : BitVec 32
  seqExpect : BitVec 64
  msgLeft : BitVec 16
  bytesLeft : BitVec 8
  firstPktFlag : Bool
  ipDataV : Bool
  ipData : BitVec 32
  ipDataTlast : Bool
  state : NpState
  deriving DecidableEq, Repr

namespace MoldRegs

/-- The values of the combinational block on a valid word. -/
structure Comb where
  d : MoldRegs
  errorSessionId : Bool := false
  errorSeq : Bool := false
  tlastExpected : Bool := false
  tkeepExpected : BitVec 4 := 0xF

/-- The default values of the `_d` signals. -/
def hold (q : MoldRegs) (axis : Axis) : MoldRegs :=
  { q with ipDataV := false, ipData := axis.tdata, ipDataTlast := axis.tlast }

/-- Case `IDLE`. -/
def onIdle (q : MoldRegs) (axis : Axis) : Comb :=
  let d := q.hold axis
  if q.firstPktFlag then
    { d := { d with sessionId := axis.tdata ++ q.sessionId.extractLsb' 0 48, state := .session1 } }
  else if q.compare ≠ axis.tdata then
    { d := { d with state := .idle }, errorSessionId := true }
  else
    { d := { d with compare := q.sessionId.extractLsb' 16 32, state := .session1 } }

/-- Case `SESSION_1`. -/
def onSession1 (q : MoldRegs) (axis : Axis) : Comb :=
  let d := q.hold axis
  if q.firstPktFlag then
    { d := { d with
        sessionId := q.sessionId.extractLsb' 48 32 ++ axis.tdata ++ q.sessionId.extractLsb' 0 16
        state := .session2 } }
  else if q.compare ≠ axis.tdata then
    { d := { d with state := .idle }, errorSessionId := true }
  else
    { d := { d with
        compare := q.sessionId.extractLsb' 0 16 ++ q.seqExpect.extractLsb' 48 16
        state := .session2 } }

/-- Case `SESSION_2`. -/
def onSession2 (q : MoldRegs) (axis : Axis) : Comb :=
  let d := q.hold axis
  if q.firstPktFlag then
    { d := { d with
        sessionId := q.sessionId.extractLsb' 16 64 ++ axis.tdata.extractLsb' 16 16
        compare := q.seqExpect.extractLsb' 16 32
        state := .seqNum1 } }
  else if q.compare.extractLsb' 16 16 ≠ axis.tdata.extractLsb' 16 16 then
    { d := { d with state := .idle }, errorSessionId := true }
  else if q.compare.extractLsb' 0 16 ≠ axis.tdata.extractLsb' 0 16 then
    { d := { d with state := .idle }, errorSeq := true }
  else
    { d := { d with compare := q.seqExpect.extractLsb' 16 32, state := .seqNum1 } }

/-- Case `SEQ_NUM_1`: the assignments after the mismatch branch override its `state_d`. -/
def onSeqNum1 (q : MoldRegs) (axis : Axis) : Comb :=
  { d := { q.hold axis with
      firstPktFlag := false
      compare := q.seqExpect.extractLsb' 0 16 ++ (0 : BitVec 16)
      state := .seqNum2 }
    errorSeq := q.compare ≠ axis.tdata }

/-- Case `SEQ_NUM_2`: the assignments after the mismatch branch override its `state_d`. -/
def onSeqNum2 (q : MoldRegs) (axis : Axis) : Comb :=
  let errorSeq : Bool := q.compare.extractLsb' 16 16 ≠ axis.tdata.extractLsb' 16 16
  let msgLeft := axis.tdata.extractLsb' 0 16
  let d := { q.hold axis with
    compare := q.sessionId.extractLsb' 48 32
    msgLeft
    seqExpect := q.seqExpect + msgLeft.setWidth 64 }
  if msgLeft = 0 then { d := { d with state := .idle }, errorSeq, tlastExpected := true }
  else { d := { d with bytesLeft := 1, state := .msg }, errorSeq }

/-- `bytes_left_d` at a length field, by the byte of the word its second byte is in. -/
def nextBytesLeft (bytesLeft : BitVec 8) (tdata : BitVec 32) : BitVec 8 :=
  match (bytesLeft.extractLsb' 0 2).toNat with
  | 0 => tdata.extractLsb' 24 8 - 2
  | 1 => tdata.extractLsb' 16 8 - 1
  | 2 => tdata.extractLsb' 8 8
  | _ => tdata.extractLsb' 0 8 + 1

/-- Case `MSG`. -/
def onMsg (q : MoldRegs) (axis : Axis) : Comb :=
  let d := { q.hold axis with ipDataV := true }
  if q.bytesLeft < 6 ∧ q.msgLeft = 0 then
    { d := { d with bytesLeft := 1, state := .idle }
      tlastExpected := true
      tkeepExpected := BitVec.ofBool (q.bytesLeft > 1) ++ BitVec.ofBool (q.bytesLeft > 2) ++
        BitVec.ofBool (q.bytesLeft > 3) ++ BitVec.ofBool (q.bytesLeft > 4) }
  else if q.bytesLeft < 4 ∧ q.msgLeft > 0 then
    { d := { d with
        msgLeft := q.msgLeft - 1
        bytesLeft := nextBytesLeft q.bytesLeft axis.tdata
        state := .msg } }
  else
    { d := { d with bytesLeft := q.bytesLeft - 4, state := .msg } }

/-- The combinational block on a valid word. -/
def comb (q : MoldRegs) (axis : Axis) : Comb :=
  match q.state with
  | .idle => q.onIdle axis
  | .session1 => q.onSession1 axis
  | .session2 => q.onSession2 axis
  | .seqNum1 => q.onSeqNum1 axis
  | .seqNum2 => q.onSeqNum2 axis
  | .msg => q.onMsg axis

/-- The registers after the clock edge. -/
def next (q : MoldRegs) (axis : Axis) : MoldRegs :=
  if axis.tvalid then (q.comb axis).d else q.hold axis

/-- `np_error_o`. -/
def npError (q : MoldRegs) (axis : Axis) : Bool :=
  axis.tvalid &&
    (let c := q.comb axis
     axis.tkeep != c.tkeepExpected || c.tlastExpected != axis.tlast || c.errorSessionId || c.errorSeq)

/-- The word on `ip_data_o` and `ip_data_tlast_o`, if `ip_data_v_o` is high. -/
def ipWord (q : MoldRegs) : Option (BitVec 32 × Bool) :=
  if q.ipDataV then some (q.ipData, q.ipDataTlast) else none

end MoldRegs

/-- What a cycle shows: `np_error_o` in it, and the word presented one cycle later. -/
abbrev MoldOut := Bool × Option (BitVec 32 × Bool)

/-- `moldudp64_parser`. -/
def moldudp64Parser : Circuit MoldRegs Axis MoldOut where
  next := MoldRegs.next
  out q axis := (q.npError axis, (q.next axis).ipWord)

/-- The registers after reset; those without a reset keep what they had. -/
def MoldRegs.reset (q : MoldRegs) : MoldRegs :=
  { q with
    seqExpect := 1
    msgLeft := 0
    bytesLeft := 0
    firstPktFlag := true
    ipDataV := false
    state := .idle }

end ItchOrderBook.Rtl
