import ItchOrderBook.Lib.Ladder
import ItchOrderBook.Ref.MemoryIterator
import ItchOrderBook.Ref.Structs
import Mathlib.Data.Finmap
import Mathlib.Order.Lattice

/-!
# The reference L2 price table

`L2` and `L2Memory` of `l2_price_table.py`. The shares of each price are kept in a plain dict in
the ideal model; otherwise in an array indexed by a shifted and truncated price, whose keys must
be multiples of the tick 50.
-/

namespace ItchOrderBook.Ref

/-- A dict from prices to shares. -/
abbrev PriceDict := Finmap fun _ : ℤ => ℤ

/-- The dict from hashes to prices. -/
abbrev HashLut := Finmap fun _ : ℕ => ℤ

/-- `L2Memory.price_hash`: the tick assertion, then `(price >> 1) & (L2_MEM_SIZE - 1)`. -/
def priceHash (cfg : Params) (price : ℤ) : Except Exn ℕ :=
  if price % 50 = 0 then .ok ((price / 2) % cfg.l2MemSize).toNat
  else .error (.assertion s!"Invalid price {price} received by L2Memory")

/-- The size-limited direct access array. -/
structure L2Memory (cfg : Params) where
  initialized : Bool
  priceBase : ℤ
  arr : ℕ → ℤ
  inverseHashLut : HashLut

namespace L2Memory

variable {cfg : Params}

/-- `L2Memory()`. -/
def empty : L2Memory cfg := ⟨false, 0, fun _ => 0, ∅⟩

/-- `range(price_base, price_base + 50 * L2_MEM_SIZE, 50)`. -/
def ticks (cfg : Params) (priceBase : ℤ) : List ℤ :=
  (List.range cfg.l2MemSize).map fun k : ℕ => priceBase + 50 * k

/-- The loop of `init_params`: every tick is entered under its hash. -/
def fillLut (cfg : Params) : List ℤ → HashLut → Except Exn HashLut
  | [], lut => .ok lut
  | tick :: rest, lut =>
    match priceHash cfg tick with
    | .error e => .error e
    | .ok h => fillLut cfg rest (lut.insert h tick)

/-- `L2Memory.init_params`. -/
def initParams (m : L2Memory cfg) (priceBase : ℤ) : Except Exn (L2Memory cfg) :=
  if m.initialized then .error (.assertion "L2Memory already initialized")
  else (fillLut cfg (ticks cfg priceBase) m.inverseHashLut).map fun lut =>
    { m with initialized := true, priceBase, inverseHashLut := lut }

/-- `price_inverse_hash`. -/
def priceInverseHash (m : L2Memory cfg) (hashKey : ℕ) : Except Exn ℤ :=
  match m.inverseHashLut.lookup hashKey with
  | some price => .ok price
  | none => .error (.keyError (toString hashKey))

/-- `__contains__`. -/
def contains (m : L2Memory cfg) (key : ℤ) : Except Exn Bool :=
  (priceHash cfg key).map fun h => decide (m.arr h > 0)

/-- `__getitem__`. -/
def getItem (m : L2Memory cfg) (key : ℤ) : Except Exn ℤ :=
  (priceHash cfg key).map m.arr

/-- `__setitem__`. -/
def setItem (m : L2Memory cfg) (key value : ℤ) : Except Exn (L2Memory cfg) :=
  (priceHash cfg key).map fun h => { m with arr := fun i => if i = h then value else m.arr i }

/-- `__delitem__`. -/
def delItem (m : L2Memory cfg) (key : ℤ) : Except Exn (L2Memory cfg) :=
  match m.getItem key with
  | .error e => .error e
  | .ok oldVal => if oldVal ≤ 0 then .error (.keyError "") else m.setItem key 0

/-- `__len__`. -/
def len (m : L2Memory cfg) : ℕ := ((List.range cfg.l2MemSize).filter fun i => m.arr i > 0).length

/-- `__iter__`. -/
def iter (m : L2Memory cfg) : Except Exn (MemoryIterator ℤ) :=
  let combinedItems :=
    ((List.range cfg.l2MemSize).filter fun key => m.arr key > 0).mapM m.priceInverseHash
  combinedItems.map .new

/-- The mapping an `L2Memory` presents, `dict(memory)`. -/
def toDict (m : L2Memory cfg) : Except Exn PriceDict :=
  match m.iter with
  | .error e => .error e
  | .ok it => it.toList.foldlM (fun d key => (m.getItem key).map fun shares => d.insert key shares) ∅

end L2Memory

/-- `L2.memory`: a dict in the ideal model, an `L2Memory` otherwise. -/
inductive L2Store (cfg : Params)
  | ideal (d : PriceDict)
  | hw (m : L2Memory cfg)

namespace L2Store

variable {cfg : Params}

/-- `price in memory`. -/
def contains : L2Store cfg → ℤ → Except Exn Bool
  | .ideal d, k => .ok (decide (k ∈ d))
  | .hw m, k => m.contains k

/-- `memory[price]`. -/
def getItem : L2Store cfg → ℤ → Except Exn ℤ
  | .ideal d, k =>
    match d.lookup k with
    | some shares => .ok shares
    | none => .error (.keyError (toString k))
  | .hw m, k => m.getItem k

/-- `memory[price] = shares`. -/
def setItem : L2Store cfg → ℤ → ℤ → Except Exn (L2Store cfg)
  | .ideal d, k, v => .ok (.ideal (d.insert k v))
  | .hw m, k, v => (m.setItem k v).map .hw

/-- `del memory[price]`. -/
def delItem : L2Store cfg → ℤ → Except Exn (L2Store cfg)
  | .ideal d, k =>
    if k ∈ d then .ok (.ideal (d.erase k)) else .error (.keyError (toString k))
  | .hw m, k => (m.delItem k).map .hw

end L2Store

/-- The price table. Python leaves the prices unset before `init_params`, and only the consistency check
of the book reads them then. -/
structure L2 (cfg : Params) where
  initialized : Bool
  priceBase : ℤ
  priceMax : ℤ
  ideal : Bool
  memory : L2Store cfg
  bids : Finset ℤ
  offs : Finset ℤ

namespace L2

variable {cfg : Params}

/-- `L2(ideal)`. -/
def new (cfg : Params) (ideal : Bool) : L2 cfg where
  initialized := false
  priceBase := 0
  priceMax := 0
  ideal := ideal
  memory := if ideal then .ideal ∅ else .hw .empty
  bids := ∅
  offs := ∅

/-- `L2.init_params`. -/
def initParams (s : L2 cfg) (priceBase : ℤ) : Except Exn (L2 cfg) :=
  if s.initialized then .error (.assertion "L2 module already initialized.")
  else
    let s' := { s with initialized := true, priceBase, priceMax := priceBase + 50 * (cfg.l2MemSize - 1) }
    match s.memory with
    | .ideal _ => .ok s'
    | .hw m => (m.initParams priceBase).map fun m => { s' with memory := .hw m }

/-- The price sets of one side with `price` added. -/
def addLevel (s : L2 cfg) (isBuy : Bool) (price : ℤ) : L2 cfg :=
  if isBuy then { s with bids := insert price s.bids } else { s with offs := insert price s.offs }

/-- The price sets of one side with `price` removed. -/
def removeLevel (s : L2 cfg) (isBuy : Bool) (price : ℤ) : L2 cfg :=
  if isBuy then { s with bids := s.bids.erase price } else { s with offs := s.offs.erase price }

/-- `self.bids` or `self.offs`. -/
def levels (s : L2 cfg) (isBuy : Bool) : Finset ℤ := if isBuy then s.bids else s.offs

/-- The `ADD | REPLACE` case of `L2.process_msg`. -/
def increase (s : L2 cfg) (isBuy : Bool) (shares price : ℤ) : Outcome Unit × L2 cfg :=
  match s.memory.contains price with
  | .error e => (.raise e, s)
  | .ok found =>
    let total := if found then (s.memory.getItem price).map (· + shares) else .ok shares
    match total with
    | .error e => (.raise e, s)
    | .ok total =>
      match s.memory.setItem price total with
      | .error e => (.raise e, s)
      | .ok memory => (.ret (), { s with memory }.addLevel isBuy price)

/-- The text of the assertion that the price is in the set of its side. -/
def missingText (isBuy : Bool) (price : ℤ) : String :=
  if isBuy then s!"Expected price {price} in bids" else s!"Expected price {price} in offs"

/-- The `REDUCE | DELETE` case of `L2.process_msg`. -/
def decrease (s : L2 cfg) (isBuy : Bool) (shares price : ℤ) : Outcome Unit × L2 cfg :=
  match s.memory.contains price with
  | .error e => (.raise e, s)
  | .ok false => (.raise (.assertion s!"Expected price {price} in memory."), s)
  | .ok true =>
    match s.memory.getItem price with
    | .error e => (.raise e, s)
    | .ok old =>
      let newShares := old - shares
      let updated :=
        if newShares = 0 then s.memory.delItem price else s.memory.setItem price newShares
      match updated with
      | .error e => (.raise e, s)
      | .ok memory =>
        let s' := { s with memory }
        if price ∉ s.levels isBuy then (.raise (.assertion (missingText isBuy price)), s')
        else (.ret (), if newShares = 0 then s'.removeLevel isBuy price else s')

/-- `L2.process_msg`. -/
def processMsg (s : L2 cfg) (msg : DownstreamOrderMsg) : Outcome Unit × L2 cfg :=
  if !s.initialized then
    (.err "L2Order module received msg while not initialized", s)
  else if msg.price % 50 ≠ 0 then
    (.err "Invalid price not on tick increment.", s)
  else if !s.ideal ∧ (msg.price < s.priceBase ∨ msg.price > s.priceMax) then
    if msg.isBuy ∧ msg.price > s.priceMax then
      (.raise (.assertion "Bid larger than price_max, choose higher price_base."), s)
    else if !msg.isBuy ∧ msg.price < s.priceBase then
      (.raise (.assertion "Offer less than price_base, choose lower price_base."), s)
    else (.ret (), s)
  else if ¬ msg.shares > 0 then (.raise (.assertion "Zero shares."), s)
  else
    match msg.msgType with
    | .add | .replace => s.increase msg.isBuy msg.shares msg.price
    | .reduce | .delete => s.decrease msg.isBuy msg.shares msg.price

/-- `heapq.nlargest(k, prices)`. -/
def nlargest (k : ℕ) (prices : Finset ℤ) : List ℤ := (descending prices).take k

/-- `heapq.nsmallest(k, prices)`. -/
def nsmallest (k : ℕ) (prices : Finset ℤ) : List ℤ := (ascending prices).take k

/-- The entry at index `get_idx` of the sorted keys. -/
def entryAt (s : L2 cfg) (getIdx : ℕ) (sortedKeys : List ℤ) : Except Exn BBOEntry :=
  match sortedKeys[getIdx]? with
  | none => .error .indexError
  | some price => (s.memory.getItem price).map fun shares => ⟨shares, price⟩

/-- `L2.get_bid_updt`. -/
def getBidUpdt (s : L2 cfg) : Except Exn BBOEntry :=
  let getIdx := cfg.bboDepth - 1
  if ¬ s.bids.card > getIdx then .error (.assertion "Not enough bids in L2 price table.")
  else s.entryAt getIdx (nlargest (getIdx + 1) s.bids)

/-- `L2.get_off_updt`. -/
def getOffUpdt (s : L2 cfg) : Except Exn BBOEntry :=
  let getIdx := cfg.bboDepth - 1
  if ¬ s.offs.card > getIdx then .error (.assertion "Not enough offers in L2 price table.")
  else s.entryAt getIdx (nsmallest (getIdx + 1) s.offs)

/-- `L2.get_updt`. It never returns a result with `error_flag`. -/
def getUpdt (s : L2 cfg) (isBuy : Bool) : Except Exn BBOEntry :=
  if isBuy then s.getBidUpdt else s.getOffUpdt

end L2

end ItchOrderBook.Ref
