import Mathlib.Data.BitVec
import Mathlib.Data.List.FinRange

/-!
# The search for the next price level

The blocks `bid_updt` and `off_updt` of `l2_price_table.sv`, for any `L2_BLOCK_LOG_CNT` and
`L2_BLOCK_LOG_W`: an encoder in each block of orderings, whose results are registered, and an encoder
over the blocks, whose result is registered again.
-/

namespace ItchOrderBook.Rtl.Search

/-- The encoding of a block of orderings: an entry of `local_enc_arr_v` and of `local_enc_arr`. -/
structure LocalEnc (logW : ℕ) where
  valid : Bool
  enc : BitVec logW
  deriving DecidableEq, Repr

variable (logCnt logW : ℕ)

/-- The ordering of place `i` of block `b`. -/
def blockOrdering (b : Fin (2 ^ logCnt)) (i : Fin (2 ^ logW)) : BitVec (logCnt + logW) :=
  BitVec.ofNat _ ((b : ℕ) <<< logW + i)

/-- The encoding of a block in which the first place found is `i`. -/
def localEnc : Option (Fin (2 ^ logW)) → LocalEnc logW
  | some i => ⟨true, BitVec.ofNat logW i⟩
  | none => ⟨false, 0⟩

/-- `bid_local_enc_arr_d` and `bid_local_enc_arr_v_d`. -/
def bidLocalEnc (exist : BitVec (logCnt + logW) → Bool) (ordering : BitVec (logCnt + logW))
    (b : Fin (2 ^ logCnt)) : LocalEnc logW :=
  if (b : ℕ) < (ordering.extractLsb' logW logCnt).toNat then
    localEnc logW ((List.finRange (2 ^ logW)).reverse.find? fun i =>
      exist (blockOrdering logCnt logW b i))
  else if (b : ℕ) = (ordering.extractLsb' logW logCnt).toNat then
    localEnc logW ((List.finRange (2 ^ logW)).reverse.find? fun i =>
      exist (blockOrdering logCnt logW b i) &&
        decide ((i : ℕ) < (ordering.extractLsb' 0 logW).toNat))
  else ⟨false, 0⟩

/-- `off_local_enc_arr_d` and `off_local_enc_arr_v_d`. -/
def offLocalEnc (exist : BitVec (logCnt + logW) → Bool) (ordering : BitVec (logCnt + logW))
    (b : Fin (2 ^ logCnt)) : LocalEnc logW :=
  if (b : ℕ) > (ordering.extractLsb' logW logCnt).toNat then
    localEnc logW ((List.finRange (2 ^ logW)).find? fun i => exist (blockOrdering logCnt logW b i))
  else if (b : ℕ) = (ordering.extractLsb' logW logCnt).toNat then
    localEnc logW ((List.finRange (2 ^ logW)).find? fun i =>
      exist (blockOrdering logCnt logW b i) &&
        decide ((i : ℕ) > (ordering.extractLsb' 0 logW).toNat))
  else ⟨false, 0⟩

/-- The ordering that the first valid block in a list encodes. -/
def globalEnc (arr : Fin (2 ^ logCnt) → LocalEnc logW) (blocks : List (Fin (2 ^ logCnt))) :
    BitVec (logCnt + logW) :=
  match blocks.find? fun b => (arr b).valid with
  | some b => BitVec.ofNat logCnt b ++ (arr b).enc
  | none => 0

/-- `bid_enc_d`. -/
def bidEnc (arr : Fin (2 ^ logCnt) → LocalEnc logW) : BitVec (logCnt + logW) :=
  globalEnc logCnt logW arr (List.finRange (2 ^ logCnt)).reverse

/-- `off_enc_d`. -/
def offEnc (arr : Fin (2 ^ logCnt) → LocalEnc logW) : BitVec (logCnt + logW) :=
  globalEnc logCnt logW arr (List.finRange (2 ^ logCnt))

/-- The registers of the two encoders on one side. -/
structure Regs where
  localEncArr : Fin (2 ^ logCnt) → LocalEnc logW
  enc : BitVec (logCnt + logW)

/-- The inputs of the search in one cycle: the existence bits, and the mask. -/
structure In where
  existArr : BitVec (logCnt + logW) → Bool
  updtOrdering : BitVec (logCnt + logW)

variable {logCnt logW}

/-- The registers of the bid search after the clock edge. -/
def bidNext (q : Regs logCnt logW) (i : In logCnt logW) : Regs logCnt logW :=
  ⟨bidLocalEnc logCnt logW i.existArr i.updtOrdering, bidEnc logCnt logW q.localEncArr⟩

/-- The registers of the offer search after the clock edge. -/
def offNext (q : Regs logCnt logW) (i : In logCnt logW) : Regs logCnt logW :=
  ⟨offLocalEnc logCnt logW i.existArr i.updtOrdering, offEnc logCnt logW q.localEncArr⟩

end ItchOrderBook.Rtl.Search
