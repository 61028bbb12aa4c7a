import ItchOrderBook.Decode.Outputs
import ItchOrderBook.Rtl.Top

/-!
# The stock state of every result

What the masking of the results is for, without any cycles: going through the messages of the
stream, a control message changes the stock state, and an order has its result masked by the state
that the messages before it have left (`gates`). The delete of a replace message has no result of its
own.
-/

namespace ItchOrderBook.Gating

open Decode (Decoded ctrlMsg bookMsg ofCtrl ofBook emitted eventCode tradeAction market
  market_inj)
open Rtl (ControlIn ControlRegs DecBook DecCtrl ItchOut)

/-- The registers of `control` after a message. -/
def after (q : ControlRegs) : Decoded → ControlRegs
  | .event .msgBegin => { q with msgHours := true }
  | .event .sysBegin => { q with systemHours := true }
  | .event .mktBegin => { q with marketHours := true }
  | .event .mktEnd => { q with marketHours := false }
  | .event .sysEnd => { q with systemHours := false }
  | .event .msgEnd => { q with msgHours := false }
  | .directory stockLocate stockSymbol =>
    if stockSymbol = q.initStockSymbol then
      { q with stockLocateV := true, stockLocate := BitVec.ofNat 16 stockLocate }
    else q
  | .action _ stockSymbol action =>
    if stockSymbol = q.initStockSymbol then
      { q with stockHalt := decide (action = .halt ∨ action = .pause) }
    else q
  | .halt _ stockSymbol mkt isHalt =>
    if stockSymbol = q.initStockSymbol ∧ mkt = market q.initMarket then
      { q with marketHalt := isHalt }
    else q
  | _ => q

/-- The message has a result. -/
def hasResult : Decoded → Bool
  | .add hasRep .. | .reduce hasRep .. | .delete hasRep _ | .replace hasRep .. => !hasRep
  | _ => false

/-- **The gates.** For each result, in order, whether the stock is active after the control messages
before it. -/
def gates (q : ControlRegs) : List Decoded → List Bool
  | [] => []
  | m :: ms => (if hasResult m then [q.stockActive] else []) ++ gates (after q m) ms

theorem gates_append (q : ControlRegs) (ms ms' : List Decoded) :
    gates q (ms ++ ms') = gates q ms ++ gates (ms.foldl after q) ms' := by
  induction ms generalizing q with
  | nil => rfl
  | cons m ms ih => rw [List.cons_append, gates, gates, ih, List.append_assoc, List.foldl_cons]

/-- The gates of the first messages are the first gates. -/
theorem gates_first (q : ControlRegs) {ms ms' : List Decoded} (h : ms <+: ms') :
    gates q ms <+: gates q ms' := by
  obtain ⟨rest, rfl⟩ := h
  rw [gates_append]
  exact List.prefix_append _ _

/-- The registers of `control` follow the messages on the control-side signals. -/
theorem comb_eq (q : ControlRegs) (i : ControlIn) :
    q.comb i = (ofCtrl i.decCtrl).foldl after q := by
  cases hv : i.decCtrl.valid with
  | false => rw [ControlRegs.comb, hv, if_neg Bool.false_ne_true, Decode.ofCtrl_of_not_valid hv]; rfl
  | true =>
    rw [ControlRegs.comb, hv, if_pos rfl, Decode.ofCtrl_of_valid hv, List.foldl_cons, List.foldl_nil,
      ctrlMsg]
    cases i.decCtrl.msgType with
    | event => cases i.decCtrl.eventCode <;> rfl
    | directory =>
      simp only [ControlRegs.onDirectory, after, BitVec.ofNat_toNat, BitVec.setWidth_eq]
    | action =>
      simp only [ControlRegs.onAction, after]
      cases i.decCtrl.tradeAction <;> rfl
    | halt =>
      simp only [ControlRegs.onHalt, after, market_inj]
      by_cases hsym : i.decCtrl.stockSymbol = q.initStockSymbol
      · by_cases hm : i.decCtrl.market = q.initMarket
        · rw [if_pos hsym, if_pos hm, if_pos ⟨hsym, hm⟩]
        · rw [if_pos hsym, if_neg hm, if_neg (fun h => hm h.2)]
      · rw [if_neg hsym, if_neg (fun h => hsym h.1)]

theorem next_eq_foldl (q : ControlRegs) {i : ControlIn} (hi : i.initV = false) :
    q.next i = (ofCtrl i.decCtrl).foldl after q := (q.next_eq_comb hi).trans (comb_eq q i)

/-- The order has a result. -/
def Answered (d : DecBook) : Bool := d.valid && !d.hasRep

theorem hasResult_bookMsg (d : DecBook) : hasResult (bookMsg d) = !d.hasRep := by
  rw [bookMsg]
  cases d.msgType <;> rfl

theorem after_bookMsg (q : ControlRegs) (d : DecBook) : after q (bookMsg d) = q := by
  rw [bookMsg]
  cases d.msgType <;> rfl

theorem foldl_after_ofBook (q : ControlRegs) (d : DecBook) : (ofBook d).foldl after q = q := by
  unfold ofBook
  split_ifs
  · exact after_bookMsg q d
  · rfl

theorem hasResult_ctrlMsg (d : DecCtrl) : hasResult (ctrlMsg d) = false := by
  rw [ctrlMsg]
  cases d.msgType <;> rfl

/-- The gates of what a cycle shows. -/
theorem gates_emitted (q : ControlRegs) (o : ItchOut) :
    gates q (emitted o) = if Answered o.decBook then
      [((ofCtrl o.decCtrl).foldl after q).stockActive] else [] := by
  have hctrl : gates q (ofCtrl o.decCtrl) = [] := by
    unfold ofCtrl
    split_ifs
    · rw [gates, hasResult_ctrlMsg, if_neg Bool.false_ne_true]
      rfl
    · rfl
  rw [emitted, gates_append, hctrl, List.nil_append, ofBook, Answered]
  cases o.decBook.valid with
  | false => rfl
  | true => rw [if_pos rfl, gates, hasResult_bookMsg, gates, List.append_nil, Bool.true_and]

theorem foldl_after_emitted (q : ControlRegs) (o : ItchOut) :
    (emitted o).foldl after q = (ofCtrl o.decCtrl).foldl after q := by
  rw [emitted, List.foldl_append, foldl_after_ofBook]

end ItchOrderBook.Gating
