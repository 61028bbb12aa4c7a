import ItchOrderBook.Ref.ItchParser
import ItchOrderBook.Rtl.ItchParser

/-!
# What the ITCH parser sends

The registered outputs of the RTL show a message one cycle after its last needed word, a delete two
cycles after. `fresh` is what a cycle sends on its way; what is still on it is `pending`, and
nothing overtakes: `emitted_append_pending`. The rest of the parser, `itchCore`, works on words
alone and does not see the idle cycles between them (`itchFresh_paced`).
-/

namespace ItchOrderBook.Decode

open Ref (SystemEventCode TradeActionCode)
open Rtl (DecCtrl DecBook ItchIn ItchOut ItchRegs IpState itchParser)

/-- A decoded message: the fields that its type has. The share counts, prices, ids and locates are
numbers, the stock symbol is its eight bytes. -/
inductive Decoded
  | event (eventCode : SystemEventCode)
  | directory (stockLocate : ℕ) (stockSymbol : BitVec 64)
  | action (stockLocate : ℕ) (stockSymbol : BitVec 64) (tradeAction : TradeActionCode)
  | halt (stockLocate : ℕ) (stockSymbol : BitVec 64) (market : Char) (isHalt : Bool)
  | add (hasRep : Bool) (orderId : ℕ) (isBuy : Bool) (shares price : ℤ)
  | reduce (hasRep : Bool) (orderId : ℕ) (shares : ℤ)
  | delete (hasRep : Bool) (orderId : ℕ)
  | replace (hasRep : Bool) (orderId : ℕ) (shares price : ℤ)
  deriving DecidableEq

/-- The event code the RTL enumeration stands for. -/
def eventCode : Rtl.EventCode → SystemEventCode
  | .o => .msgBegin
  | .s => .sysBegin
  | .q => .mktBegin
  | .m => .mktEnd
  | .e => .sysEnd
  | .c => .msgEnd

/-- The trading action the RTL enumeration stands for. -/
def tradeAction : Rtl.TradeAction → TradeActionCode
  | .h => .halt
  | .p => .pause
  | .q => .quote
  | .t => .trade

/-- The market code the RTL enumeration stands for. -/
def market : Rtl.Market → Char
  | .q => 'Q'
  | .b => 'B'
  | .x => 'X'

theorem market_inj {m n : Rtl.Market} : market m = market n ↔ m = n := by
  cases m <;> cases n <;> decide

/-- The message on the control-side signals. -/
def ctrlMsg (d : DecCtrl) : Decoded :=
  match d.msgType with
  | .event => .event (eventCode d.eventCode)
  | .directory => .directory d.stockLocate.toNat d.stockSymbol
  | .action => .action d.stockLocate.toNat d.stockSymbol (tradeAction d.tradeAction)
  | .halt => .halt d.stockLocate.toNat d.stockSymbol (market d.market) d.isHalt

/-- The message on the book-side signals. -/
def bookMsg (d : DecBook) : Decoded :=
  match d.msgType with
  | .add => .add d.hasRep d.orderId.toNat d.isBuy d.shares.toNat d.price.toNat
  | .reduce => .reduce d.hasRep d.orderId.toNat d.shares.toNat
  | .delete => .delete d.hasRep d.orderId.toNat
  | .replace => .replace d.hasRep d.orderId.toNat d.shares.toNat d.price.toNat

/-- The control message, if there is one. -/
def ofCtrl (d : DecCtrl) : List Decoded := if d.valid then [ctrlMsg d] else []

/-- The book message, if there is one. -/
def ofBook (d : DecBook) : List Decoded := if d.valid then [bookMsg d] else []

theorem ofCtrl_of_valid {d : DecCtrl} (h : d.valid = true) : ofCtrl d = [ctrlMsg d] := if_pos h

theorem ofCtrl_of_not_valid {d : DecCtrl} (h : d.valid = false) : ofCtrl d = [] := by
  rw [ofCtrl, h, if_neg Bool.false_ne_true]

theorem ofBook_of_not_valid {d : DecBook} (h : d.valid = false) : ofBook d = [] := by
  rw [ofBook, h, if_neg Bool.false_ne_true]

/-- The messages on the outputs in a cycle. -/
def emitted (o : ItchOut) : List Decoded := ofCtrl o.decCtrl ++ ofBook o.decBook

/-- The messages in the output registers. -/
def pending (q : ItchRegs) : List Decoded :=
  ofCtrl q.decCtrl ++ ofBook q.decBook ++ ofBook q.decBookDel

/-- The messages that a cycle sends. -/
def fresh (d : ItchRegs.Comb) : List Decoded :=
  ofCtrl d.decCtrl ++ ofBook d.decBook ++ ofBook d.decBookDel

/-! ### Nothing overtakes -/

/-- While a delete is in the extra stage, the parser is between messages or between the two halves
of a replace. -/
def Gap (q : ItchRegs) : Prop :=
  q.decBookDel.valid = true → q.state = .idle ∨
    q.state = .replace ∧ (q.bytesLeft = 0 ∨ q.bytesLeft > 0xC ∧ q.bytesLeft < 0x11)

/-- The windows of `REPLACE` that are missed in the gap. -/
theorem gap_quiet {q : ItchRegs} (hq : Gap q) (hdel : q.decBookDel.valid = true) :
    q.state = .idle ∨ q.state = .replace ∧
      ¬ (q.bytesLeft < 0x19 ∧ q.bytesLeft > 0x14) ∧ ¬ (q.bytesLeft < 0x15 ∧ q.bytesLeft > 0x10) ∧
      ¬ (q.bytesLeft < 0x9 ∧ q.bytesLeft > 0x4) ∧ ¬ (q.bytesLeft < 0x5 ∧ q.bytesLeft > 0x0) := by
  rcases hq hdel with hs | ⟨hs, hb⟩
  · exact Or.inl hs
  · refine Or.inr ⟨hs, ?_, ?_, ?_, ?_⟩ <;> rintro ⟨h, h'⟩ <;> rcases hb with hb | ⟨hb, hb'⟩ <;>
      bv_omega

/-- In the gap nothing is sent and no order id is latched. -/
theorem comb_of_gap {q : ItchRegs} (hq : Gap q) (hdel : q.decBookDel.valid = true) (i : ItchIn) :
    (q.comb i).decCtrl = { q.decCtrl with valid := false } ∧
      (q.comb i).decBook = { q.decBook with valid := false } ∧
      (q.comb i).decBookDel = DecBook.zero := by
  unfold ItchRegs.comb
  split_ifs with hv
  · rcases gap_quiet hq hdel with hs | ⟨hs, h1, h2, h3, h4⟩
    · simp only [hs, ItchRegs.onIdle]
      split <;> exact ⟨rfl, rfl, rfl⟩
    · simp only [hs, ItchRegs.onReplace, h1, h2, h3, h4, if_false]
      exact ⟨rfl, rfl, rfl⟩
  · exact ⟨rfl, rfl, rfl⟩

/-- Only `DELETE` and `REPLACE` use the extra stage. -/
theorem comb_decBookDel {q : ItchRegs} (h : q.state ≠ .delete) (h' : q.state ≠ .replace)
    (i : ItchIn) : (q.comb i).decBookDel = DecBook.zero := by
  unfold ItchRegs.comb
  split_ifs with hv
  · cases hs : q.state
    case idle =>
      simp only [ItchRegs.onIdle]
      split <;> rfl
    case sysEvent =>
      simp only [ItchRegs.onSysEvent]
      split_ifs <;> rfl
    case directory =>
      simp only [ItchRegs.onDirectory]
      split_ifs <;> rfl
    case tradingAction =>
      simp only [ItchRegs.onTradingAction]
      split_ifs <;> rfl
    case opHalt =>
      simp only [ItchRegs.onOpHalt]
      split_ifs <;> rfl
    case add =>
      simp only [ItchRegs.onAdd]
      split_ifs <;> rfl
    case execute =>
      simp only [ItchRegs.onExecute]
      split_ifs <;> rfl
    case executeP =>
      simp only [ItchRegs.onExecuteP]
      split_ifs <;> rfl
    case delete => exact absurd hs h
    case replace => exact absurd hs h'
    case ignore => rfl
  · rfl

/-- The gap is kept after a delete has been found. -/
theorem gap_next (q : ItchRegs) (i : ItchIn) : Gap (q.next i) := by
  intro hdel
  change (q.comb i).decBookDel.valid = true at hdel
  change (q.comb i).state = .idle ∨ (q.comb i).state = .replace ∧
    ((q.comb i).bytesLeft = 0 ∨ (q.comb i).bytesLeft > 0xC ∧ (q.comb i).bytesLeft < 0x11)
  by_cases hs : q.state = .delete
  · cases hv : i.ipDataV
    · simp [ItchRegs.comb, hv, ItchRegs.hold, DecBook.zero] at hdel
    · simp only [ItchRegs.comb, hv, hs, if_true, ItchRegs.onDelete] at hdel ⊢
      split_ifs at hdel ⊢ with h1 h2
      · cases hdel
      · exact Or.inl (if_pos h2.1)
      · cases hdel
  by_cases hs' : q.state = .replace
  · cases hv : i.ipDataV
    · simp [ItchRegs.comb, hv, ItchRegs.hold, DecBook.zero] at hdel
    · simp only [ItchRegs.comb, hv, hs', if_true, ItchRegs.onReplace] at hdel ⊢
      split_ifs at hdel ⊢ with h1 h2 h3 h4
      · cases hdel
      · have h5 : ¬ q.bytesLeft < 5 := by bv_omega
        refine Or.inr ⟨(if_neg h5).trans hs', ?_⟩
        have hb : (q.count i).bytesLeft = if i.ipDataTlast then 0 else q.bytesLeft - 4 := rfl
        cases ht : i.ipDataTlast <;> rw [ht] at hb
        · rw [if_neg Bool.false_ne_true] at hb
          refine Or.inr ⟨?_, ?_⟩ <;> (dsimp only; rw [hb]; bv_omega)
        · exact Or.inl (hb.trans (if_pos rfl))
      · cases hdel
      · cases hdel
      · cases hdel
  · rw [comb_decBookDel hs hs'] at hdel
    cases hdel

/-- **Nothing overtakes.** What is shown and what is then on its way is what was on its way and
what the cycle sends. -/
theorem emitted_append_pending {q : ItchRegs} (hq : Gap q) (i : ItchIn) :
    emitted (itchParser.out q i) ++ pending (q.next i) = pending q ++ fresh (q.comb i) := by
  cases hdel : q.decBookDel.valid
  · have hbook : (q.next i).decBook = (q.comb i).decBook := by
      change (if q.decBookDel.valid then q.decBookDel else (q.comb i).decBook) = _
      rw [hdel, if_neg Bool.false_ne_true]
    rw [pending, pending, hbook, ofBook_of_not_valid hdel, List.append_nil]
    rfl
  · obtain ⟨h1, h2, h3⟩ := comb_of_gap hq hdel i
    have hbook : (q.next i).decBook = q.decBookDel := by
      change (if q.decBookDel.valid then q.decBookDel else (q.comb i).decBook) = _
      rw [hdel, if_pos rfl]
    have hctrl : ofCtrl (q.comb i).decCtrl = [] := ofCtrl_of_not_valid (by rw [h1])
    have hnone : ofBook (q.comb i).decBook = [] := ofBook_of_not_valid (by rw [h2])
    have hdel' : ofBook (q.comb i).decBookDel = [] := by rw [h3]; rfl
    rw [pending, pending, hbook, fresh, hctrl, hnone, hdel']
    change ofCtrl q.decCtrl ++ ofBook q.decBook ++ (ofCtrl (q.comb i).decCtrl ++ _ ++
      ofBook (q.comb i).decBookDel) = _
    rw [hctrl, hdel']
    simp

theorem gap_run {q : ItchRegs} (hq : Gap q) (is : List ItchIn) : Gap (itchParser.run q is) := by
  induction is generalizing q with
  | nil => exact hq
  | cons i is ih => exact ih (gap_next q i)

/-! ### The parser without its outputs -/

/-- The messages that a cycle sends, or an error. -/
def shown (d : ItchRegs.Comb) : Option (List Decoded) := if d.ipError then none else some (fresh d)

/-- The parser with what it sends as its output. -/
def itchFresh : Circuit ItchRegs ItchIn (Option (List Decoded)) where
  next := ItchRegs.next
  out q i := shown (q.comb i)

/-- The order id that is kept for a later word. -/
def latched (q : ItchRegs) : BitVec 64 :=
  if q.decBookDel.valid then q.decBookDel.orderId else q.decBook.orderId

/-- The registers without what is on its way, but for the order id. -/
def norm (q : ItchRegs) : ItchRegs :=
  { q with
    decCtrl := DecCtrl.zero
    decBookDel := DecBook.zero
    decBook := { DecBook.zero with orderId := latched q } }

/-- The parser on its words only. -/
def itchCore : Circuit ItchRegs ItchIn (Option (List Decoded)) where
  next q i := norm (q.next i)
  out q i := shown (q.comb i)

/-- Without errors, the messages shown are those sent. -/
theorem emitted_run {q : ItchRegs} (hq : Gap q) {is : List ItchIn} {sent : List Decoded}
    (h : collect (itchFresh.trace q is) = some sent) :
    (∀ o ∈ itchParser.trace q is, o.ipError = false) ∧
      (itchParser.trace q is).flatMap emitted ++ pending (itchParser.run q is) =
        pending q ++ sent := by
  induction is generalizing q sent with
  | nil =>
    cases h
    exact ⟨by simp, by simp⟩
  | cons i is ih =>
    rw [Circuit.trace_cons] at h
    cases hs : (q.comb i).ipError with
    | true =>
      rw [show itchFresh.out q i = none from by simp [itchFresh, shown, hs], collect_cons_none] at h
      cases h
    | false =>
      rw [show itchFresh.out q i = some (fresh (q.comb i)) from by simp [itchFresh, shown, hs],
        collect_cons_some, Option.map_eq_some_iff] at h
      obtain ⟨sent', h', rfl⟩ := h
      obtain ⟨herr, hemit⟩ := ih (gap_next q i) h'
      rw [Circuit.trace_cons, Circuit.run_cons]
      refine ⟨List.forall_mem_cons.2 ⟨hs, herr⟩, ?_⟩
      rw [List.flatMap_cons, List.append_assoc]
      change emitted (itchParser.out q i) ++ ((itchParser.trace (q.next i) is).flatMap emitted ++
        pending (itchParser.run (q.next i) is)) = _
      rw [hemit, ← List.append_assoc, emitted_append_pending hq, List.append_assoc]

theorem comb_idle {q : ItchRegs} {i : ItchIn} (hi : i.ipDataV = false) : q.comb i = q.hold i := by
  rw [ItchRegs.comb, hi, if_neg Bool.false_ne_true]

/-- The values agree but for the fields of messages that are not sent. -/
structure Alike (d d' : ItchRegs.Comb) : Prop where
  ipLine : d.ipLine = d'.ipLine
  bytesLeft : d.bytesLeft = d'.bytesLeft
  msgAlt : d.msgAlt = d'.msgAlt
  matchLocate : d.matchLocate = d'.matchLocate
  state : d.state = d'.state
  decBookDel : d.decBookDel = d'.decBookDel
  shown : shown d = shown d'

/-- The cases overwrite the fields of a message when they send it. -/
theorem alike_norm {q : ItchRegs} (hdel : q.decBookDel.valid = false) {i : ItchIn}
    (hi : i.ipDataV = true) : Alike ((norm q).comb i) (q.comb i) ∧
      ((norm q).comb i).decBook.orderId = (q.comb i).decBook.orderId := by
  obtain ⟨line, bl, alt, ctrl, mtch, ⟨dv, dt, dr, did, db, dsh, dp⟩, book, st⟩ := q
  obtain rfl : dv = false := hdel
  obtain ⟨v, data, last, locV, loc⟩ := i
  obtain rfl : v = true := hi
  obtain ⟨l, hl⟩ : ∃ l, ItchRegs.lineShifted ⟨line, bl, alt, ctrl, mtch,
    ⟨false, dt, dr, did, db, dsh, dp⟩, book, st⟩ ⟨true, data, last, locV, loc⟩ = l := ⟨_, rfl⟩
  have hl' : ItchRegs.lineShifted (norm ⟨line, bl, alt, ctrl, mtch,
    ⟨false, dt, dr, did, db, dsh, dp⟩, book, st⟩) ⟨true, data, last, locV, loc⟩ = l := hl
  simp only [ItchRegs.comb, norm] at hl' ⊢
  cases st
  case idle =>
    simp only [ItchRegs.onIdle, hl, hl', if_true]
    split <;> exact ⟨⟨rfl, rfl, rfl, rfl, rfl, rfl, rfl⟩, rfl⟩
  case sysEvent =>
    simp only [ItchRegs.onSysEvent, hl, hl', if_true]
    generalize ItchRegs.eventCodeOf _ = code
    cases code <;> split_ifs <;> exact ⟨⟨rfl, rfl, rfl, rfl, rfl, rfl, rfl⟩, rfl⟩
  case directory =>
    simp only [ItchRegs.onDirectory, hl, hl', if_true]
    split_ifs <;> exact ⟨⟨rfl, rfl, rfl, rfl, rfl, rfl, rfl⟩, rfl⟩
  case tradingAction =>
    simp only [ItchRegs.onTradingAction, hl, hl', if_true]
    generalize ItchRegs.tradeActionOf _ = code
    cases code <;> split_ifs <;> exact ⟨⟨rfl, rfl, rfl, rfl, rfl, rfl, rfl⟩, rfl⟩
  case opHalt =>
    simp only [ItchRegs.onOpHalt, hl, hl', if_true]
    generalize ItchRegs.marketOf _ = code
    generalize ItchRegs.haltOf _ = halt
    cases code <;> cases halt <;> split_ifs <;> exact ⟨⟨rfl, rfl, rfl, rfl, rfl, rfl, rfl⟩, rfl⟩
  case add =>
    simp only [ItchRegs.onAdd, hl, hl', if_true]
    generalize ItchRegs.sideOf _ = side
    cases side <;> split_ifs <;> exact ⟨⟨rfl, rfl, rfl, rfl, rfl, rfl, rfl⟩, rfl⟩
  case execute =>
    simp only [ItchRegs.onExecute, hl, hl', if_true]
    split_ifs <;> exact ⟨⟨rfl, rfl, rfl, rfl, rfl, rfl, rfl⟩, rfl⟩
  case executeP =>
    simp only [ItchRegs.onExecuteP, hl, hl', if_true]
    split_ifs <;> exact ⟨⟨rfl, rfl, rfl, rfl, rfl, rfl, rfl⟩, rfl⟩
  case delete =>
    simp only [ItchRegs.onDelete, hl, hl', if_true]
    split_ifs <;> exact ⟨⟨rfl, rfl, rfl, rfl, rfl, rfl, rfl⟩, rfl⟩
  case replace =>
    simp only [ItchRegs.onReplace, hl, hl', if_true]
    split_ifs <;> exact ⟨⟨rfl, rfl, rfl, rfl, rfl, rfl, rfl⟩, rfl⟩
  case ignore =>
    simp only [if_true]
    exact ⟨⟨rfl, rfl, rfl, rfl, rfl, rfl, rfl⟩, rfl⟩

theorem alike_gap {q : ItchRegs} (hq : Gap q) (hdel : q.decBookDel.valid = true) {i : ItchIn}
    (hi : i.ipDataV = true) : Alike ((norm q).comb i) (q.comb i) ∧
      ((norm q).comb i).decBook.orderId = latched q := by
  rcases gap_quiet hq hdel with hs | ⟨hs, h1, h2, h3, h4⟩
  · have hs' : (norm q).state = .idle := hs
    have hl : (norm q).lineShifted i = q.lineShifted i := rfl
    have hb : (norm q).bytesLeft = q.bytesLeft := rfl
    simp only [ItchRegs.comb, hi, if_true, hs, hs', ItchRegs.onIdle, hl, hb]
    split <;> exact ⟨⟨rfl, rfl, rfl, rfl, rfl, rfl, rfl⟩, rfl⟩
  · have hs' : (norm q).state = .replace := hs
    have hb : (norm q).bytesLeft = q.bytesLeft := rfl
    simp only [ItchRegs.comb, hi, if_true, hs, hs', ItchRegs.onReplace, hb, h1, h2, h3, h4, if_false]
    exact ⟨⟨rfl, rfl, rfl, rfl, rfl, rfl, rfl⟩, rfl⟩

theorem norm_ext {q q' : ItchRegs} (h1 : q.ipLine = q'.ipLine) (h2 : q.bytesLeft = q'.bytesLeft)
    (h3 : q.msgAlt = q'.msgAlt) (h4 : q.matchLocate = q'.matchLocate) (h5 : q.state = q'.state)
    (h6 : latched q = latched q') : norm q = norm q' := by
  rw [norm, norm, h1, h2, h3, h4, h5, h6]

/-- The order id after a cycle without a delete on its way. -/
theorem latched_next {q : ItchRegs} (hdel : q.decBookDel.valid = false) (i : ItchIn) :
    latched (q.next i) =
      if (q.comb i).decBookDel.valid then (q.comb i).decBookDel.orderId
      else (q.comb i).decBook.orderId := by
  have hbook : (q.next i).decBook = (q.comb i).decBook := by
    change (if q.decBookDel.valid then q.decBookDel else (q.comb i).decBook) = _
    rw [hdel, if_neg Bool.false_ne_true]
  rw [latched, hbook]
  rfl

/-- A delete on its way leaves its order id. -/
theorem latched_next_gap {q : ItchRegs} (hq : Gap q) (hdel : q.decBookDel.valid = true) (i : ItchIn) :
    latched (q.next i) = latched q := by
  have hbook : (q.next i).decBook = q.decBookDel := by
    change (if q.decBookDel.valid then q.decBookDel else (q.comb i).decBook) = _
    rw [hdel, if_pos rfl]
  have hnone : (q.next i).decBookDel.valid = false := by
    change (q.comb i).decBookDel.valid = false
    rw [(comb_of_gap hq hdel i).2.2]
    rfl
  rw [latched, hnone, if_neg Bool.false_ne_true, hbook, latched, hdel, if_pos rfl]

/-- **Idle cycles are not seen.** -/
theorem itchFresh_paced : Paced itchFresh itchCore norm (fun i => i.ipDataV) (some []) Gap where
  inv_next q i _ := gap_next q i
  next_busy q i hq hi := by
    change norm (q.next i) = norm ((norm q).next i)
    cases hdel : q.decBookDel.valid
    · obtain ⟨h, hid⟩ := alike_norm hdel hi
      refine norm_ext h.ipLine.symm h.bytesLeft.symm h.msgAlt.symm h.matchLocate.symm h.state.symm ?_
      rw [latched_next hdel, latched_next rfl, h.decBookDel, hid]
    · obtain ⟨h, hid⟩ := alike_gap hq hdel hi
      refine norm_ext h.ipLine.symm h.bytesLeft.symm h.msgAlt.symm h.matchLocate.symm h.state.symm ?_
      rw [latched_next_gap hq hdel, latched_next rfl, h.decBookDel, (comb_of_gap hq hdel i).2.2]
      exact hid.symm
  next_idle q i hq hi := by
    change norm (q.next i) = norm q
    have hi := Bool.eq_false_iff.2 hi
    have hcomb := comb_idle (q := q) hi
    have hline : q.ipLineD i = q.ipLine := by
      rw [ItchRegs.ipLineD, hi, if_neg Bool.false_ne_true]
    refine norm_ext ?_ ?_ ?_ ?_ ?_ ?_
    · exact (congrArg ItchRegs.Comb.ipLine hcomb).trans hline
    · exact congrArg ItchRegs.Comb.bytesLeft hcomb
    · exact congrArg ItchRegs.Comb.msgAlt hcomb
    · exact congrArg ItchRegs.Comb.matchLocate hcomb
    · exact congrArg ItchRegs.Comb.state hcomb
    · cases hdel : q.decBookDel.valid
      · rw [latched_next hdel, hcomb, latched, hdel]
        rfl
      · exact latched_next_gap hq hdel i
  out_busy q i hq hi := by
    change shown (q.comb i) = shown ((norm q).comb i)
    cases hdel : q.decBookDel.valid
    · exact (alike_norm hdel hi).1.shown.symm
    · exact (alike_gap hq hdel hi).1.shown.symm
  out_idle q i _ hi := by
    change shown (q.comb i) = some []
    rw [comb_idle (Bool.eq_false_iff.2 hi)]
    rfl

end ItchOrderBook.Decode
