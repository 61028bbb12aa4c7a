import ItchOrderBook.Decode.Packets
import ItchOrderBook.Framing.Agreement

/-!
# The ITCH parser behind the MoldUDP64 parser

The ITCH parser reads the output registers of the MoldUDP64 parser, one cycle late. What it does
with its words but for the decoded fields depends on the words alone (`Same`), and the stock locate
only decides about the one error that it is not known (`same_comb`).
-/

namespace ItchOrderBook.Decode

open Rtl (Axis DecBook InterfaceIn ItchIn ItchOut ItchRegs IpState MoldOut MoldRegs itchParser
  itchParserInterface moldudp64Parser)

/-! ### What does not depend on the stock locate -/

/-- The registers that decide how the words are read. -/
structure Same (q q' : ItchRegs) : Prop where
  ipLine : q.ipLine = q'.ipLine
  bytesLeft : q.bytesLeft = q'.bytesLeft
  msgAlt : q.msgAlt = q'.msgAlt
  state : q.state = q'.state

/-- The cycle with a known stock locate. -/
def known (i : ItchIn) : ItchIn := { i with stockLocateV := true, stockLocate := 0 }

/-- The next values of these registers, and the errors. -/
structure SameComb (i : ItchIn) (d d' : ItchRegs.Comb) : Prop where
  ipLine : d.ipLine = d'.ipLine
  bytesLeft : d.bytesLeft = d'.bytesLeft
  msgAlt : d.msgAlt = d'.msgAlt
  state : d.state = d'.state
  ipError : d.ipError = (d'.ipError || d.errorStockLocate)
  stock : i.stockLocateV = true → d.errorStockLocate = false

/-- A case without a look at the stock locate. -/
theorem sameComb_of_error {i : ItchIn} {d d' : ItchRegs.Comb} (hline : d.ipLine = d'.ipLine)
    (hleft : d.bytesLeft = d'.bytesLeft) (halt : d.msgAlt = d'.msgAlt) (hstate : d.state = d'.state)
    (herr : d.ipError = d'.ipError) (hstock : d.errorStockLocate = false) : SameComb i d d' :=
  ⟨hline, hleft, halt, hstate, by rw [herr, hstock, Bool.or_false], fun _ => hstock⟩

/-- A case that compares the stock locate. -/
theorem sameComb_matchStock {i i' : ItchIn} {d d' : ItchRegs.Comb} (loc loc' : BitVec 16)
    (h : SameComb i d d') (hd : d.ipError = false) (hd' : d'.ipError = false)
    (hi' : i'.stockLocateV = true) :
    SameComb i (ItchRegs.matchStock d i loc) (ItchRegs.matchStock d' i' loc') := by
  refine ⟨h.ipLine, h.bytesLeft, h.msgAlt, h.state, ?_, fun hi => ?_⟩
  · simp only [ItchRegs.Comb.ipError, Bool.or_eq_false_iff] at hd hd'
    simp [ItchRegs.matchStock, ItchRegs.Comb.ipError, hd, hd', hi']
  · change (!i.stockLocateV) = false
    rw [hi]
    rfl

/-- **The stock locate does not decide how the words are read.** -/
theorem same_comb {q q' : ItchRegs} (h : Same q q') (i : ItchIn) :
    SameComb i (q.comb i) (q'.comb (known i)) := by
  obtain ⟨line, bl, alt, ctrl, mtch, del, book, st⟩ := q
  obtain ⟨line', bl', alt', ctrl', mtch', del', book', st'⟩ := q'
  obtain ⟨rfl, rfl, rfl, rfl⟩ : line = line' ∧ bl = bl' ∧ alt = alt' ∧ st = st' :=
    ⟨h.ipLine, h.bytesLeft, h.msgAlt, h.state⟩
  obtain ⟨v, data, last, locV, loc⟩ := i
  cases v
  · exact sameComb_of_error rfl rfl rfl rfl rfl rfl
  obtain ⟨l, hl⟩ : ∃ l, ItchRegs.lineShifted ⟨line, bl, alt, ctrl, mtch, del, book, st⟩
    ⟨true, data, last, locV, loc⟩ = l := ⟨_, rfl⟩
  have hl' : ItchRegs.lineShifted ⟨line, bl, alt, ctrl', mtch', del', book', st⟩
    (known ⟨true, data, last, locV, loc⟩) = l := hl
  simp only [ItchRegs.comb, known] at hl' ⊢
  cases st
  case idle =>
    simp only [ItchRegs.onIdle, hl, hl', if_true]
    split <;> exact sameComb_of_error rfl rfl rfl rfl rfl rfl
  case sysEvent =>
    simp only [ItchRegs.onSysEvent, hl, hl', if_true]
    split_ifs <;> exact sameComb_of_error rfl rfl rfl rfl rfl rfl
  case directory =>
    simp only [ItchRegs.onDirectory, hl, hl', if_true]
    split_ifs <;> exact sameComb_of_error rfl rfl rfl rfl rfl rfl
  case tradingAction =>
    simp only [ItchRegs.onTradingAction, hl, hl', if_true]
    split_ifs <;> exact sameComb_of_error rfl rfl rfl rfl rfl rfl
  case opHalt =>
    simp only [ItchRegs.onOpHalt, hl, hl', if_true]
    split_ifs <;> exact sameComb_of_error rfl rfl rfl rfl rfl rfl
  case add =>
    simp only [ItchRegs.onAdd, hl, hl', if_true]
    split_ifs
    · exact sameComb_matchStock _ _ (sameComb_of_error rfl rfl rfl rfl rfl rfl) rfl rfl rfl
    · exact sameComb_of_error rfl rfl rfl rfl rfl rfl
    · exact sameComb_of_error rfl rfl rfl rfl rfl rfl
  case execute =>
    simp only [ItchRegs.onExecute, hl, hl', if_true]
    split_ifs
    · exact sameComb_matchStock _ _ (sameComb_of_error rfl rfl rfl rfl rfl rfl) rfl rfl rfl
    · exact sameComb_of_error rfl rfl rfl rfl rfl rfl
    · exact sameComb_of_error rfl rfl rfl rfl rfl rfl
  case executeP =>
    simp only [ItchRegs.onExecuteP, hl, hl', if_true]
    split_ifs
    · exact sameComb_matchStock _ _ (sameComb_of_error rfl rfl rfl rfl rfl rfl) rfl rfl rfl
    · exact sameComb_of_error rfl rfl rfl rfl rfl rfl
    · exact sameComb_of_error rfl rfl rfl rfl rfl rfl
  case delete =>
    simp only [ItchRegs.onDelete, hl, hl', if_true]
    split_ifs
    · exact sameComb_matchStock _ _ (sameComb_of_error rfl rfl rfl rfl rfl rfl) rfl rfl rfl
    · exact sameComb_of_error rfl rfl rfl rfl rfl rfl
    · exact sameComb_of_error rfl rfl rfl rfl rfl rfl
  case replace =>
    simp only [ItchRegs.onReplace, hl, hl', if_true]
    split_ifs
    · exact sameComb_matchStock _ _ (sameComb_of_error rfl rfl rfl rfl rfl rfl) rfl rfl rfl
    all_goals exact sameComb_of_error rfl rfl rfl rfl rfl rfl
  case ignore =>
    simp only [if_true]
    exact sameComb_of_error rfl rfl rfl rfl rfl rfl

theorem same_next {q q' : ItchRegs} (h : Same q q') (i : ItchIn) :
    Same (q.next i) (q'.next (known i)) := by
  have hcomb := same_comb h i
  exact ⟨hcomb.ipLine, hcomb.bytesLeft, hcomb.msgAlt, hcomb.state⟩

theorem same_run {q q' : ItchRegs} (h : Same q q') (is : List ItchIn) :
    Same (itchParser.run q is) (itchParser.run q' (is.map known)) := by
  induction is generalizing q q' with
  | nil => exact h
  | cons i is ih => exact ih (same_next h i)

/-- No error of the ITCH parser in these cycles. -/
def ItchQuiet (os : List ItchOut) : Prop := ∀ o ∈ os, o.ipError = false

/-- Without an error there is none if the stock locate is known. -/
theorem itchQuiet_known {q q' : ItchRegs} (h : Same q q') {is : List ItchIn}
    (hq : ItchQuiet (itchParser.trace q is)) : ItchQuiet (itchParser.trace q' (is.map known)) := by
  induction is generalizing q q' with
  | nil => exact hq
  | cons i is ih =>
    obtain ⟨h0, hrest⟩ := List.forall_mem_cons.1 hq
    have hcomb : (q.comb i).ipError = false := h0
    rw [(same_comb h i).ipError, Bool.or_eq_false_iff] at hcomb
    exact List.forall_mem_cons.2 ⟨hcomb.1, ih (same_next h i) hrest⟩

/-- If it is known, it makes no difference which one it is. -/
theorem itchQuiet_of_known {q q' : ItchRegs} (h : Same q q') {is : List ItchIn}
    (hloc : ∀ i ∈ is, i.stockLocateV = true) (hq : ItchQuiet (itchParser.trace q' (is.map known))) :
    ItchQuiet (itchParser.trace q is) := by
  induction is generalizing q q' with
  | nil => exact hq
  | cons i is ih =>
    obtain ⟨h0, hrest⟩ := List.forall_mem_cons.1 hq
    obtain ⟨hi, hloc⟩ := List.forall_mem_cons.1 hloc
    have hcomb : (q.comb i).ipError = false := by
      have hsame := same_comb h i
      rw [hsame.ipError, hsame.stock hi, Bool.or_false]
      exact h0
    exact List.forall_mem_cons.2 ⟨hcomb, ih (same_next h i) hloc hrest⟩

/-! ### What the ITCH parser reads -/

/-- The words that the ITCH parser reads, cycle by cycle. -/
def feed : Circuit MoldRegs InterfaceIn ItchIn where
  next m i := m.next i.axis
  out m i := m.itchIn i

/-- **The chain is the ITCH parser behind the MoldUDP64 parser.** -/
theorem interface_eq (q : MoldRegs × ItchRegs) (cycles : List InterfaceIn) :
    itchParserInterface.run q cycles = (moldudp64Parser.run q.1 (cycles.map fun i => i.axis),
        itchParser.run q.2 (feed.trace q.1 cycles)) ∧
      (itchParserInterface.trace q cycles).map (fun o => o.1) =
        itchParser.trace q.2 (feed.trace q.1 cycles) := by
  induction cycles generalizing q with
  | nil => exact ⟨rfl, rfl⟩
  | cons i cycles ih =>
    obtain ⟨hrun, htrace⟩ := ih (itchParserInterface.next q i)
    exact ⟨hrun, congrArg (List.cons _) htrace⟩

theorem feed_run (m : MoldRegs) (cycles : List InterfaceIn) :
    feed.run m cycles = moldudp64Parser.run m (cycles.map fun i => i.axis) := by
  induction cycles generalizing m with
  | nil => rfl
  | cons i cycles ih => exact ih _

/-- The words read in all cycles but the first, if there is one more. -/
def feedTail (m : MoldRegs) (cycles : List InterfaceIn) (after : InterfaceIn) : List ItchIn :=
  (feed.trace m (cycles ++ [after])).tail

theorem feed_cons (m : MoldRegs) (i : InterfaceIn) (cycles : List InterfaceIn) (after : InterfaceIn) :
    feed.trace m (i :: cycles ++ [after]) = m.itchIn i :: feedTail m (i :: cycles) after := rfl

/-- A word with a known stock locate. -/
def knownWord (w : BitVec 32 × Bool) : ItchIn := ⟨true, w.1, w.2, true, 0⟩

/-- **The words read are those presented**, one cycle later. -/
theorem feedTail_words (m : MoldRegs) (cycles : List InterfaceIn) (after : InterfaceIn) :
    ((feedTail m cycles after).map known).filter (fun i => i.ipDataV) =
      ((moldudp64Parser.trace m (cycles.map fun i => i.axis)).filterMap Prod.snd).map knownWord := by
  induction cycles generalizing m with
  | nil => rfl
  | cons i cycles ih =>
    obtain ⟨next, rest, hnext⟩ : ∃ next rest, cycles ++ [after] = next :: rest := by
      cases cycles with
      | nil => exact ⟨_, _, rfl⟩
      | cons j cycles => exact ⟨_, _, rfl⟩
    have htail : feedTail m (i :: cycles) after =
        (m.next i.axis).itchIn next :: feedTail (m.next i.axis) cycles after := by
      rw [feedTail, feedTail, List.cons_append, Circuit.trace_cons, List.tail_cons, hnext]
      rfl
    rw [htail, List.map_cons, List.map_cons, Circuit.trace_cons]
    cases hv : (m.next i.axis).ipDataV
    · have hword : (moldudp64Parser.out m i.axis).2 = none := by
        change (m.next i.axis).ipWord = none
        rw [MoldRegs.ipWord, hv, if_neg Bool.false_ne_true]
      rw [List.filter_cons_of_neg (by simpa [known, MoldRegs.itchIn] using hv),
        List.filterMap_cons_none hword]
      exact ih _
    · have hword : (moldudp64Parser.out m i.axis).2 =
          some ((m.next i.axis).ipData, (m.next i.axis).ipDataTlast) := by
        change (m.next i.axis).ipWord = _
        rw [MoldRegs.ipWord, hv, if_pos rfl]
      rw [List.filter_cons_of_pos (by simpa [known, MoldRegs.itchIn] using hv),
        List.filterMap_cons_some hword, List.map_cons, ih]
      rw [known, MoldRegs.itchIn, hv]
      rfl

theorem feedTail_known {m : MoldRegs} {cycles : List InterfaceIn} {after : InterfaceIn}
    (h : ∀ i ∈ cycles ++ [after], i.stockLocateV = true) :
    ∀ i ∈ feedTail m cycles after, i.stockLocateV = true := by
  intro i hi
  have hfeed : ∀ (cycles : List InterfaceIn) (m : MoldRegs),
      (∀ i ∈ cycles, i.stockLocateV = true) → ∀ i ∈ feed.trace m cycles, i.stockLocateV = true := by
    intro cycles
    induction cycles with
    | nil => simp
    | cons j cycles ih =>
      intro m h
      obtain ⟨hj, hrest⟩ := List.forall_mem_cons.1 h
      exact List.forall_mem_cons.2 ⟨hj, ih _ hrest⟩
  exact hfeed _ m h i (List.mem_of_mem_tail hi)

end ItchOrderBook.Decode
