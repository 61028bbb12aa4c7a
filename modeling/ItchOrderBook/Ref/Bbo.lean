import ItchOrderBook.Ref.Structs
import Mathlib.Order.Lattice

/-!
# The reference best-bid-and-offer module

`BBOHalf` and `BBO` of `bbo.py`. A half keeps the best `BBO_DEPTH` price levels of its side, best
first, and two counters for the shares at all other levels.
-/

namespace ItchOrderBook.Ref

/-- One side of the BBO. `price_bound` is unset in Python before `init_params`, and not read. -/
structure BBOHalf where
  isBuy : Bool
  ideal : Bool
  priceBound : ℤ
  entries : List BBOEntry
  outsideSharesInRange : ℤ
  outsideShares : ℤ
  deriving DecidableEq, Repr

/-- The flags set by the loop over `self.entries`, of which it sets exactly one. -/
inductive HalfScan
  | modify (idx : ℕ) (entry : BBOEntry)
  | depletion (idx : ℕ)
  | insertion (idx : ℕ)
  | outside
  deriving DecidableEq, Repr

namespace BBOHalf

/-- `BBOHalf(is_buy, ideal)`. -/
def new (isBuy ideal : Bool) : BBOHalf := ⟨isBuy, ideal, 0, [], 0, 0⟩

/-- `BBOHalf.init_params`. -/
def initParams (h : BBOHalf) (priceBound : ℤ) : BBOHalf := { h with priceBound }

/-- `price` is closer to the top of the book than `q`. -/
def closer (isBuy : Bool) (price q : ℤ) : Bool :=
  (isBuy && decide (price > q)) || (!isBuy && decide (price < q))

/-- The loop over the entries, from index `idx` on. -/
def scan (isBuy : Bool) (msg : DownstreamOrderMsg) : ℕ → List BBOEntry → Except Exn HalfScan
  | _, [] => .ok .outside
  | idx, entry :: rest =>
    if msg.price = entry.price then
      if msg.msgType.isAdd then .ok (.modify idx ⟨entry.shares + msg.shares, entry.price⟩)
      else
        let newShares := entry.shares - msg.shares
        if newShares < 0 then
          .error (.assertion s!"Unexpected negative quantity of shares at price: {msg.price}.")
        else if newShares = 0 then .ok (.depletion idx)
        else .ok (.modify idx ⟨newShares, entry.price⟩)
    else if closer isBuy msg.price entry.price then
      if msg.msgType.isAdd then .ok (.insertion idx)
      else .error (.assertion s!"Unexpected reduction of non-existing price: {msg.price}.")
    else scan isBuy msg (idx + 1) rest

section Scan

variable {isBuy : Bool} {msg : DownstreamOrderMsg} {entry : BBOEntry}

/-- A price that is closer than that of the entry is new. -/
theorem scan_of_closer (h : closer isBuy msg.price entry.price = true) (idx : ℕ) (rest : List BBOEntry) :
    scan isBuy msg idx (entry :: rest) = if msg.msgType.isAdd then .ok (.insertion idx)
      else .error (.assertion s!"Unexpected reduction of non-existing price: {msg.price}.") := by
  have hne : msg.price ≠ entry.price := by
    intro he
    rw [he] at h
    cases isBuy <;> simp [closer] at h
  rw [scan, if_neg hne, if_pos h]

/-- The loop passes over the entries of better prices. -/
theorem scan_of_not_closer (hne : msg.price ≠ entry.price)
    (h : closer isBuy msg.price entry.price = false) (idx : ℕ) (rest : List BBOEntry) :
    scan isBuy msg idx (entry :: rest) = scan isBuy msg (idx + 1) rest := by
  rw [scan, if_neg hne, if_neg (ne_true_of_eq_false h)]

end Scan

/-- The price is on the covered side of `price_bound`. -/
def inRange (h : BBOHalf) (price : ℤ) : Bool :=
  h.ideal || (h.isBuy && decide (price ≥ h.priceBound)) || (!h.isBuy && decide (price ≤ h.priceBound))

/-- The half with `shares` at `price` added to its outside counters. -/
def addOutside (h : BBOHalf) (shares price : ℤ) : BBOHalf :=
  { h with
    outsideShares := h.outsideShares + shares
    outsideSharesInRange :=
      if h.inRange price then h.outsideSharesInRange + shares else h.outsideSharesInRange }

/-- The insertion of an entry, evicting the last one when there are more than `BBO_DEPTH`. -/
def insertEntry (cfg : Params) (h : BBOHalf) (idx : ℕ) (entry : BBOEntry) : BBOHalf :=
  let entries := h.entries.insertIdx idx entry
  if entries.length > cfg.bboDepth then
    match entries.getLast? with
    | none => { h with entries }
    | some addEntry => { h with entries := entries.dropLast }.addOutside addEntry.shares addEntry.price
  else { h with entries }

/-- A message at a price past all entries. -/
def outsideMsg (cfg : Params) (h : BBOHalf) (msg : DownstreamOrderMsg) : BBOHalf :=
  if h.entries.length < cfg.bboDepth then
    { h with entries := h.entries ++ [⟨msg.shares, msg.price⟩] }
  else h.addOutside (if msg.msgType.isAdd then msg.shares else -msg.shares) msg.price

/-- The result object of a half that was not stopped by an error. -/
def result (h : BBOHalf) (updtReq : Bool) (updtReqMaskEnc : ℤ) : BBOHalfResult :=
  match h.entries with
  | [] => ⟨none, false, 0⟩
  | top :: _ => ⟨some top, updtReq, updtReqMaskEnc⟩

/-- The removal of a depleted entry, which may request a refill. -/
def deplete (cfg : Params) (h : BBOHalf) (idx : ℕ) : Outcome BBOHalfResult × BBOHalf :=
  let h' := { h with entries := h.entries.eraseIdx idx }
  if h'.outsideSharesInRange > 0 then
    if h'.entries.length + 1 ≠ cfg.bboDepth then
      (.raise (.assertion "Unexpected entries length for updt req."), h')
    else
      match h'.entries[cfg.bboDepth - 2]? with
      | none => (.raise .indexError, h')
      | some last => (.ret (h'.result true last.price), h')
  else if h'.outsideShares > 0 then (.err "No shares in range for updt.", h')
  else (.ret (h'.result false 0), h')

/-- `BBOHalf.process_msg`. -/
def processMsg (cfg : Params) (h : BBOHalf) (msg : DownstreamOrderMsg) :
    Outcome BBOHalfResult × BBOHalf :=
  if msg.isBuy ≠ h.isBuy then
    (.raise (.assertion "Non-matching buy/sell side received in BBOHalf module."), h)
  else
    match scan h.isBuy msg 0 h.entries with
    | .error e => (.raise e, h)
    | .ok (.modify idx entry) =>
      let h' := { h with entries := h.entries.set idx entry }
      (.ret (h'.result false 0), h')
    | .ok (.depletion idx) => h.deplete cfg idx
    | .ok (.insertion idx) =>
      let h' := h.insertEntry cfg idx ⟨msg.shares, msg.price⟩
      (.ret (h'.result false 0), h')
    | .ok .outside =>
      let h' := h.outsideMsg cfg msg
      (.ret (h'.result false 0), h')

/-- `BBOHalf.process_updt`. -/
def processUpdt (cfg : Params) (h : BBOHalf) (entry : BBOEntry) : Except Exn BBOHalf :=
  if h.entries.length + 1 ≠ cfg.bboDepth then
    .error (.assertion "Unexpected number of entries for process_updt.")
  else
    .ok { h with
      entries := h.entries ++ [entry]
      outsideShares := h.outsideShares - entry.shares
      outsideSharesInRange := h.outsideSharesInRange - entry.shares }

end BBOHalf

/-- Both halves and the best entries they last reported. -/
structure BBO where
  bidModule : BBOHalf
  offModule : BBOHalf
  bidEntry : Option BBOEntry
  offEntry : Option BBOEntry
  deriving DecidableEq, Repr

namespace BBO

/-- `BBO(ideal)`. -/
def new (ideal : Bool) : BBO := ⟨.new true ideal, .new false ideal, none, none⟩

/-- `BBO.init_params`. -/
def initParams (cfg : Params) (b : BBO) (priceBase : ℤ) : BBO :=
  { b with
    bidModule := b.bidModule.initParams priceBase
    offModule := b.offModule.initParams (priceBase + 50 * (cfg.l2MemSize - 1)) }

/-- The spread check at the end of `BBO.process_msg`. -/
def finish (b : BBO) (msg : DownstreamOrderMsg) (half : BBOHalfResult) : Outcome BBOResult :=
  match b.bidEntry, b.offEntry with
  | some bid, some off =>
    let spread := off.price - bid.price
    if spread > 0 then
      .ret ⟨b.bidEntry, b.offEntry, some spread, half.updtReq, msg.isBuy, half.updtReqMaskEnc⟩
    else .raise (.assertion "Spread should be positive.")
  | _, _ => .ret ⟨b.bidEntry, b.offEntry, none, half.updtReq, msg.isBuy, half.updtReqMaskEnc⟩

/-- `BBO.process_msg`. -/
def processMsg (cfg : Params) (b : BBO) (msg : DownstreamOrderMsg) : Outcome BBOResult × BBO :=
  if msg.isBuy then
    match b.bidModule.processMsg cfg msg with
    | (.raise e, bidModule) => (.raise e, { b with bidModule })
    | (.err code, bidModule) => (.err ("(BID) " ++ code), { b with bidModule })
    | (.ret half, bidModule) =>
      let b' := { b with bidModule, bidEntry := half.entry }
      (b'.finish msg half, b')
  else
    match b.offModule.processMsg cfg msg with
    | (.raise e, offModule) => (.raise e, { b with offModule })
    | (.err code, offModule) => (.err ("(OFF) " ++ code), { b with offModule })
    | (.ret half, offModule) =>
      let b' := { b with offModule, offEntry := half.entry }
      (b'.finish msg half, b')

/-- `BBO.process_updt`. -/
def processUpdt (cfg : Params) (b : BBO) (isBuy : Bool) (entry : BBOEntry) : Except Exn BBO :=
  if isBuy then (b.bidModule.processUpdt cfg entry).map fun bidModule => { b with bidModule }
  else (b.offModule.processUpdt cfg entry).map fun offModule => { b with offModule }

end BBO

end ItchOrderBook.Ref
