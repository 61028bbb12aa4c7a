import ItchOrderBook.Lib.Grouping
import ItchOrderBook.Ref.Book

/-!
# The consistency check of the reference book

`Book.assert_consistent_state` of `book.py`: the levels of L2 are reconstructed from the orders of L3,
and the entries of the BBO from the levels of L2. In a size-limited book `price_base` and `price_max` are
`None` before `init_params`, and the first comparison with them raises.
-/

namespace ItchOrderBook.Ref

/-- `dict(self.l2.memory)`. -/
def L2Store.toDict {cfg : Params} : L2Store cfg → Except Exn PriceDict
  | .ideal d => .ok d
  | .hw m => m.toDict

namespace Book

variable {cfg : Params}

/-- A comparison with `price_base` or `price_max` raises. -/
def pricesUnset (b : Book cfg) : Bool := !b.l2.ideal && !b.l2.initialized

/-- The condition of the loop over the orders of L3. -/
def isKept (b : Book cfg) (entry : L3Entry) : Bool :=
  b.l2.ideal || (decide (entry.price ≥ b.l2.priceBase) && decide (entry.price ≤ b.l2.priceMax))

/-- The shares of the orders, added up for each price. The order of `dict(self.l3.memory).values()` is
no part of the model, and does not matter here. -/
def orderLevels (b : Book cfg) : PriceDict :=
  group L3Entry.price L3Entry.shares
    ((b.l3.memory.toDict.entries.map Sigma.snd).filter fun entry => b.isKept entry)

/-- `l2_reconstruct`. -/
def l2Reconstruct (b : Book cfg) : Except Exn PriceDict :=
  if b.pricesUnset ∧ b.l3.memory.toDict ≠ ∅ then .error .typeError else .ok b.orderLevels

/-- `l2_bid_prices` and `l2_off_prices`. -/
def l2Prices (b : Book cfg) (isBuy : Bool) : List ℤ :=
  if isBuy then L2.nlargest (min b.l2.bids.card cfg.bboDepth) b.l2.bids
  else L2.nsmallest (min b.l2.offs.card cfg.bboDepth) b.l2.offs

/-- `bbo_bid_reconstruct` and `bbo_off_reconstruct`. -/
def bboReconstruct (b : Book cfg) (isBuy : Bool) : Except Exn (List BBOEntry) :=
  (b.l2Prices isBuy).mapM fun price => (b.l2.memory.getItem price).map fun shares => ⟨shares, price⟩

/-- `bbo_bid` and `bbo_off`, without the entries outside of the price range. -/
def bboEntries (b : Book cfg) (isBuy : Bool) : Except Exn (List BBOEntry) :=
  let entries := if isBuy then b.bbo.bidModule.entries else b.bbo.offModule.entries
  if b.pricesUnset ∧ entries ≠ [] then .error .typeError
  else if b.l2.ideal then .ok entries
  else if isBuy then .ok (entries.filter fun entry => entry.price ≥ b.l2.priceBase)
  else .ok (entries.filter fun entry => entry.price ≤ b.l2.priceMax)

/-- The assertion about one side of the BBO. -/
def assertSide (b : Book cfg) (isBuy : Bool) : Except Exn Unit :=
  match b.bboReconstruct isBuy with
  | .error e => .error e
  | .ok reconstruct =>
    match b.bboEntries isBuy with
    | .error e => .error e
    | .ok entries => if reconstruct = entries then .ok () else .error (.assertion "")

/-- `Book.assert_consistent_state`. -/
def assertConsistentState (b : Book cfg) : Except Exn Unit :=
  match b.l2Reconstruct with
  | .error e => .error e
  | .ok l2Reconstruct =>
    match b.l2.memory.toDict with
    | .error e => .error e
    | .ok l2Dict =>
      if l2Reconstruct ≠ l2Dict then
        .error (.assertion "[L2] and [L3's reconstruction of L2] do not match.")
      else
        match b.assertSide true with
        | .error e => .error e
        | .ok () => b.assertSide false

end Book

end ItchOrderBook.Ref
