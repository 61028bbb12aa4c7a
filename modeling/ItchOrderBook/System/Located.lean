import ItchOrderBook.System.Sessions

/-!
# The front end without errors

An order message whose stock locate is compared before one is known raises an error of the ITCH parser.
In the run in which the parser is given the locate of that message the order is sent next
(`matched_run`), and what the reference takes has no order in front of the directory message. So in a run
on packets that it takes, the ITCH parser is at every cycle where it would be with the stock locate known
from the start (`located_run`), and neither parser nor the control module raises an error
(`front_quiet`).
-/

namespace ItchOrderBook.System

open Decode (Decoded Delivers Gap Rested decodeMsg emitted fresh itchCore itchFresh itchFresh_paced norm
  pending)
open Framing (Carries)
open Gating (Quiescent Stream after itchIns knownWord locatedAt presented sent view wordOf)
open Ref (Byte MoldUDP64Parser)
open Rtl (Axis IpState ItchIn ItchRegs TopIn TopRegs itchParser moldudp64Parser top)

/-! ### An order whose locate matches -/

/-- The parser is in an order message whose locate matches, and the next word has its last needed byte. -/
def Matched (q : ItchRegs) : Prop :=
  q.matchLocate = true ∧ match q.state with
    | .add => (q.bytesLeft < 0x9 ∧ q.bytesLeft > 0x4 ∧ q.msgAlt) ∨
      (q.bytesLeft < 0x5 ∧ q.bytesLeft > 0x0 ∧ !q.msgAlt)
    | .execute => (q.bytesLeft < 0x5 ∧ q.bytesLeft > 0x0 ∧ q.msgAlt) ∨
      (q.bytesLeft < 0xD ∧ q.bytesLeft > 0x8 ∧ !q.msgAlt)
    | .executeP => q.bytesLeft < 0x11 ∧ q.bytesLeft > 0xC
    | .delete => q.bytesLeft < 0x5 ∧ q.bytesLeft > 0x0
    | .replace => q.bytesLeft < 0x15 ∧ q.bytesLeft > 0x10
    | _ => False

/-- The parser is in an order message. -/
def InOrder (q : ItchRegs) : Prop :=
  q.state = .add ∨ q.state = .execute ∨ q.state = .executeP ∨ q.state = .delete ∨ q.state = .replace

section Step

variable {q : ItchRegs} {i : ItchIn}

theorem Matched.ne_idle (h : Matched q) : q.state ≠ .idle := by
  intro hidle
  rw [Matched, hidle] at h
  exact h.2

/-- An idle cycle keeps this. -/
theorem Matched.hold (h : Matched q) (hi : i.ipDataV = false) : Matched (q.next i) := by
  have hnext : (q.next i).matchLocate = q.matchLocate ∧ (q.next i).state = q.state ∧
      (q.next i).bytesLeft = q.bytesLeft ∧ (q.next i).msgAlt = q.msgAlt := by
    rw [ItchRegs.next, Decode.comb_idle hi]
    exact ⟨rfl, rfl, rfl, rfl⟩
  obtain ⟨h1, h2, h3, h4⟩ := hnext
  rw [Matched, h1, h2, h3, h4]
  exact h

theorem fresh_hold (hi : i.ipDataV = false) : fresh (q.comb i) = [] := by
  rw [Decode.comb_idle hi]
  rfl

/-- Windows of the two forms of a message that lie apart. -/
theorem alt_windows {a b c d e f g h : BitVec 8} {n : BitVec 8} {alt : Bool}
    (hwin : (n < a ∧ n > b ∧ alt) ∨ (n < c ∧ n > d ∧ !alt)) (hac : a ≤ f + 1) (hcg : c ≤ h + 1)
    (hf : f < 255) (hh : h < 255) :
    ¬ ((n < e ∧ n > f ∧ alt) ∨ (n < g ∧ n > h ∧ !alt)) := by
  rcases hwin with ⟨h1, h2, h3⟩ | ⟨h1, h2, h3⟩
  · rintro (⟨h4, h5, -⟩ | ⟨-, -, h6⟩)
    · bv_omega
    · rw [h3] at h6
      cases h6
  · rintro (⟨-, -, h6⟩ | ⟨h4, h5, -⟩)
    · rw [h6] at h3
      cases h3
    · bv_omega

/-- **The next word sends the order.** -/
theorem Matched.sends (h : Matched q) (hi : i.ipDataV = true) :
    ∃ d ds, fresh (q.comb i) = d :: ds ∧ isOrder d = true := by
  obtain ⟨hmatch, hwin⟩ := h
  have hfresh : ∀ d : ItchRegs.Comb, d.decCtrl.valid = false → d.decBook.valid = true →
      ∃ e es, fresh d = e :: es ∧ isOrder e = true := by
    intro d hc hb
    refine ⟨Decode.bookMsg d.decBook, Decode.ofBook d.decBookDel, ?_, isOrder_bookMsg _⟩
    rw [fresh, Decode.ofCtrl_of_not_valid hc, Decode.ofBook, if_pos hb]
    rfl
  have hfreshDel : ∀ d : ItchRegs.Comb, d.decCtrl.valid = false → d.decBook.valid = false →
      d.decBookDel.valid = true → ∃ e es, fresh d = e :: es ∧ isOrder e = true := by
    intro d hc hb hd
    refine ⟨Decode.bookMsg d.decBookDel, [], ?_, isOrder_bookMsg _⟩
    rw [fresh, Decode.ofCtrl_of_not_valid hc, Decode.ofBook_of_not_valid hb, Decode.ofBook, if_pos hd]
    rfl
  rw [ItchRegs.comb, if_pos hi]
  cases hs : q.state <;> rw [hs] at hwin <;> dsimp only at hwin ⊢
  case add =>
    rw [ItchRegs.onAdd, if_neg (alt_windows hwin (by decide) (by decide) (by decide) (by decide)),
      if_pos hwin]
    exact hfresh _ rfl hmatch
  case execute =>
    rw [ItchRegs.onExecute, if_neg (alt_windows hwin (by decide) (by decide) (by decide) (by decide)),
      if_pos hwin]
    exact hfresh _ rfl hmatch
  case executeP =>
    rw [ItchRegs.onExecuteP, if_neg (by bv_omega), if_pos hwin]
    exact hfresh _ rfl hmatch
  case delete =>
    rw [ItchRegs.onDelete, if_neg (by bv_omega), if_pos hwin]
    exact hfreshDel _ rfl rfl hmatch
  case replace =>
    rw [ItchRegs.onReplace, if_neg (by bv_omega), if_pos hwin]
    exact hfreshDel _ rfl rfl hmatch

/-- What is known where a stock locate is missed: with the one that is compared, the order is sent next. -/
structure Missed (q : ItchRegs) (i : ItchIn) (loc : BitVec 16) : Prop where
  inOrder : InOrder q
  unknown : i.stockLocateV = false
  silent : fresh (q.comb (locatedAt loc i)) = []
  busy : (q.next (locatedAt loc i)).state ≠ .idle
  matched : i.ipDataTlast = false → Matched (q.next (locatedAt loc i))

/-- The window of the comparison, for a case of the parser. -/
theorem missed_of_window {loc : BitVec 16} (hin : InOrder q)
    (hunknown : i.stockLocateV = false) {d : ItchRegs.Comb}
    (hcomb : q.comb (locatedAt loc i) = ItchRegs.matchStock d (locatedAt loc i) loc)
    (hd : fresh d = [] ∧ d.state = (q.count i).state ∧ d.bytesLeft = (q.count i).bytesLeft ∧
      d.msgAlt = q.msgAlt) (hleft : ¬ q.bytesLeft < 5)
    (hwin : ∀ q' : ItchRegs, q'.matchLocate = true → q'.state = q.state → q'.msgAlt = q.msgAlt →
      q'.bytesLeft = q.bytesLeft - 4 → Matched q') : Missed q i loc := by
  obtain ⟨hfresh, hstate, hbytes, halt⟩ := hd
  have hs : d.state = q.state := hstate.trans (if_neg hleft)
  refine ⟨hin, hunknown, ?_, ?_, fun hlast => ?_⟩
  · rw [hcomb]
    exact hfresh
  · change (q.comb (locatedAt loc i)).state ≠ .idle
    rw [hcomb]
    change d.state ≠ .idle
    rw [hs]
    rcases hin with h | h | h | h | h <;> rw [h] <;> decide
  · refine hwin _ ?_ ?_ ?_ ?_
    · change (q.comb (locatedAt loc i)).matchLocate = true
      rw [hcomb]
      exact decide_eq_true rfl
    · change (q.comb (locatedAt loc i)).state = q.state
      rw [hcomb]
      exact hs
    · change (q.comb (locatedAt loc i)).msgAlt = q.msgAlt
      rw [hcomb]
      exact halt
    · change (q.comb (locatedAt loc i)).bytesLeft = q.bytesLeft - 4
      rw [hcomb]
      refine hbytes.trans ?_
      rw [ItchRegs.count, hlast, if_neg Bool.false_ne_true]

theorem unknown_of_match {d : ItchRegs.Comb} {l : BitVec 16}
    (h : (ItchRegs.matchStock d i l).errorStockLocate = true) : i.stockLocateV = false := by
  simpa [ItchRegs.matchStock] using h

/-- **Where no stock locate is known, the one that is compared would do.** -/
theorem exists_missed (herr : (q.comb i).errorStockLocate = true) : ∃ loc, Missed q i loc := by
  cases hi : i.ipDataV with
  | false =>
    rw [Decode.comb_idle hi] at herr
    cases herr
  | true =>
    have hv : ∀ loc, (locatedAt loc i).ipDataV = true := fun _ => hi
    rw [ItchRegs.comb, if_pos hi] at herr
    cases hs : q.state <;> rw [hs] at herr <;> dsimp only at herr
    -- the case `IDLE` and those of the control messages compare nothing
    case idle =>
      rw [ItchRegs.onIdle] at herr
      split at herr <;> cases herr
    case sysEvent =>
      rw [ItchRegs.onSysEvent] at herr
      split_ifs at herr <;> cases herr
    case directory =>
      rw [ItchRegs.onDirectory] at herr
      split_ifs at herr <;> cases herr
    case tradingAction =>
      rw [ItchRegs.onTradingAction] at herr
      split_ifs at herr <;> cases herr
    case opHalt =>
      rw [ItchRegs.onOpHalt] at herr
      split_ifs at herr <;> cases herr
    case ignore => cases herr
    case add =>
      have hcomb : ∀ loc, q.comb (locatedAt loc i) =
          q.onAdd (locatedAt loc i) (q.count (locatedAt loc i)) := fun loc => by
        rw [ItchRegs.comb, if_pos (hv loc), hs]
      rw [ItchRegs.onAdd] at herr
      split_ifs at herr with hwin
      · refine ⟨(q.lineShifted i).extractLsb' 264 16, missed_of_window (Or.inl hs) (unknown_of_match herr)
          ((hcomb _).trans (if_pos hwin)) ⟨rfl, rfl, rfl, rfl⟩ ?_ fun q' h1 h2 h3 h4 => ?_⟩
        · rcases hwin with ⟨-, h, -⟩ | ⟨-, h, -⟩ <;> bv_omega
        · rw [Matched, h2, hs, h3, h4]
          refine ⟨h1, hwin.imp ?_ ?_⟩
          · rintro ⟨h5, h6, h7⟩
            exact ⟨by bv_omega, by bv_omega, h7⟩
          · rintro ⟨h5, h6, h7⟩
            exact ⟨by bv_omega, by bv_omega, h7⟩
      · cases herr
      · cases herr
    case execute =>
      have hcomb : ∀ loc, q.comb (locatedAt loc i) =
          q.onExecute (locatedAt loc i) (q.count (locatedAt loc i)) := fun loc => by
        rw [ItchRegs.comb, if_pos (hv loc), hs]
      rw [ItchRegs.onExecute] at herr
      split_ifs at herr with hwin
      · refine ⟨(q.lineShifted i).extractLsb' 160 16, missed_of_window (Or.inr (Or.inl hs)) (unknown_of_match herr)
          ((hcomb _).trans (if_pos hwin)) ⟨rfl, rfl, rfl, rfl⟩ ?_ fun q' h1 h2 h3 h4 => ?_⟩
        · rcases hwin with ⟨-, h, -⟩ | ⟨-, h, -⟩ <;> bv_omega
        · rw [Matched, h2, hs, h3, h4]
          refine ⟨h1, hwin.imp ?_ ?_⟩
          · rintro ⟨h5, h6, h7⟩
            exact ⟨by bv_omega, by bv_omega, h7⟩
          · rintro ⟨h5, h6, h7⟩
            exact ⟨by bv_omega, by bv_omega, h7⟩
      · cases herr
      · cases herr
    case executeP =>
      have hcomb : ∀ loc, q.comb (locatedAt loc i) =
          q.onExecuteP (locatedAt loc i) (q.count (locatedAt loc i)) := fun loc => by
        rw [ItchRegs.comb, if_pos (hv loc), hs]
      rw [ItchRegs.onExecuteP] at herr
      split_ifs at herr with hwin
      · refine ⟨(q.lineShifted i).extractLsb' 168 16, missed_of_window (Or.inr (Or.inr (Or.inl hs))) (unknown_of_match herr)
          ((hcomb _).trans (if_pos hwin)) ⟨rfl, rfl, rfl, rfl⟩ (by bv_omega) fun q' h1 h2 _ h4 => ?_⟩
        rw [Matched, h2, hs, h4]
        exact ⟨h1, by bv_omega, by bv_omega⟩
      · cases herr
      · cases herr
    case delete =>
      have hcomb : ∀ loc, q.comb (locatedAt loc i) =
          q.onDelete (locatedAt loc i) (q.count (locatedAt loc i)) := fun loc => by
        rw [ItchRegs.comb, if_pos (hv loc), hs]
      rw [ItchRegs.onDelete] at herr
      split_ifs at herr with hwin
      · refine ⟨(q.lineShifted i).extractLsb' 128 16, missed_of_window (Or.inr (Or.inr (Or.inr (Or.inl hs)))) (unknown_of_match herr)
          ((hcomb _).trans (if_pos hwin)) ⟨rfl, rfl, rfl, rfl⟩ (by bv_omega) fun q' h1 h2 _ h4 => ?_⟩
        rw [Matched, h2, hs, h4]
        exact ⟨h1, by bv_omega, by bv_omega⟩
      · cases herr
      · cases herr
    case replace =>
      have hcomb : ∀ loc, q.comb (locatedAt loc i) =
          q.onReplace (locatedAt loc i) (q.count (locatedAt loc i)) := fun loc => by
        rw [ItchRegs.comb, if_pos (hv loc), hs]
      rw [ItchRegs.onReplace] at herr
      split_ifs at herr with hwin
      · refine ⟨(q.lineShifted i).extractLsb' 128 16, missed_of_window (Or.inr (Or.inr (Or.inr (Or.inr hs)))) (unknown_of_match herr)
          ((hcomb _).trans (if_pos hwin)) ⟨rfl, rfl, rfl, rfl⟩ (by bv_omega) fun q' h1 h2 _ h4 => ?_⟩
        rw [Matched, h2, hs, h4]
        exact ⟨h1, by bv_omega, by bv_omega⟩
      · cases herr
      · cases herr
      · cases herr
      · cases herr

/-- Behind a control message the parser is not in an order message. -/
theorem not_inOrder_of_ctrl (h : (q.next i).decCtrl.valid = true) : ¬ InOrder (q.next i) := by
  have hcomb : (q.comb i).decCtrl.valid = true := h
  have hkey : (q.comb i).state = .idle ∨ (q.comb i).state = .sysEvent ∨ (q.comb i).state = .directory ∨
      (q.comb i).state = .tradingAction ∨ (q.comb i).state = .opHalt := by
    cases hi : i.ipDataV with
    | false =>
      rw [Decode.comb_idle hi] at hcomb
      cases hcomb
    | true =>
      have hcount : (q.count i).state = .idle ∨ (q.count i).state = q.state := by
        change (if q.bytesLeft < 5 then IpState.idle else q.state) = .idle ∨
          (if q.bytesLeft < 5 then IpState.idle else q.state) = q.state
        split_ifs
        · exact Or.inl rfl
        · exact Or.inr rfl
      rw [ItchRegs.comb, if_pos hi] at hcomb ⊢
      cases hs : q.state <;> rw [hs] at hcomb hcount <;> dsimp only at hcomb ⊢
      case idle =>
        rw [ItchRegs.onIdle] at hcomb
        split at hcomb <;> cases hcomb
      case sysEvent =>
        have hstate : (q.onSysEvent i (q.count i)).state = (q.count i).state := by
          rw [ItchRegs.onSysEvent]
          split_ifs <;> rfl
        rw [hstate]
        exact hcount.imp_right Or.inl
      case directory =>
        have hstate : (q.onDirectory i (q.count i)).state = (q.count i).state := by
          rw [ItchRegs.onDirectory]
          split_ifs <;> rfl
        rw [hstate]
        exact hcount.imp_right fun h => Or.inr (Or.inl h)
      case tradingAction =>
        have hstate : (q.onTradingAction i (q.count i)).state = (q.count i).state := by
          rw [ItchRegs.onTradingAction]
          split_ifs <;> rfl
        rw [hstate]
        exact hcount.imp_right fun h => Or.inr (Or.inr (Or.inl h))
      case opHalt =>
        have hstate : (q.onOpHalt i (q.count i)).state = (q.count i).state := by
          rw [ItchRegs.onOpHalt]
          split_ifs <;> rfl
        rw [hstate]
        exact hcount.imp_right fun h => Or.inr (Or.inr (Or.inr h))
      case add =>
        rw [ItchRegs.onAdd] at hcomb
        split_ifs at hcomb <;> cases hcomb
      case execute =>
        rw [ItchRegs.onExecute] at hcomb
        split_ifs at hcomb <;> cases hcomb
      case executeP =>
        rw [ItchRegs.onExecuteP] at hcomb
        split_ifs at hcomb <;> cases hcomb
      case delete =>
        rw [ItchRegs.onDelete] at hcomb
        split_ifs at hcomb <;> cases hcomb
      case replace =>
        rw [ItchRegs.onReplace] at hcomb
        split_ifs at hcomb <;> cases hcomb
      case ignore => cases hcomb
  change ¬ ((q.comb i).state = .add ∨ (q.comb i).state = .execute ∨ (q.comb i).state = .executeP ∨
    (q.comb i).state = .delete ∨ (q.comb i).state = .replace)
  rcases hkey with h | h | h | h | h <;> rw [h] <;> decide

end Step

/-! ### Runs -/

/-- **What is sent next is an order.** -/
theorem matched_run {q : ItchRegs} (h : Matched q) {is : List ItchIn} {ds : List Decoded}
    (hsent : collect (itchFresh.trace q is) = some ds) (hidle : (itchParser.run q is).state = .idle) :
    ∃ d rest, ds = d :: rest ∧ isOrder d = true := by
  induction is generalizing q ds with
  | nil => exact absurd hidle h.ne_idle
  | cons i is ih =>
    rw [Circuit.trace_cons] at hsent
    change collect (Decode.shown (q.comb i) :: itchFresh.trace (q.next i) is) = some ds at hsent
    rw [Decode.shown] at hsent
    split_ifs at hsent
    · cases hsent
    rw [collect_cons_some, Option.map_eq_some_iff] at hsent
    obtain ⟨rest, hrest, rfl⟩ := hsent
    cases hi : i.ipDataV with
    | false =>
      rw [fresh_hold hi]
      exact ih (h.hold hi) hrest hidle
    | true =>
      obtain ⟨d, ds, hfresh, hd⟩ := h.sends hi
      exact ⟨d, ds ++ rest, by rw [hfresh]; rfl, hd⟩

/-! ### The words of a stream -/

/-- Only the last word of a packet is marked. -/
theorem eq_of_tlast {data : List Byte} {bs : List Axis} (hc : Carries data bs) {pre : List Axis}
    {axis : Axis} (h : pre ++ [axis] <+: bs) (hlast : axis.tlast = true) : pre ++ [axis] = bs := by
  induction hc generalizing pre with
  | last hp hlen =>
    have hle := h.length_le
    rw [List.length_append] at hle
    refine h.eq_of_length_le ?_
    rw [List.length_append, List.length_singleton, List.length_singleton]
    omega
  | @more p rest beats hlen hrest ih =>
    cases pre with
    | nil =>
      obtain ⟨rfl, -⟩ := List.cons_prefix_cons.1 h
      cases hlast
    | cons a pre =>
      obtain ⟨rfl, hpre⟩ := List.cons_prefix_cons.1 h
      exact congrArg _ (ih hpre)

/-- **The parser rests behind the packets**, and behind each of their last words. -/
theorem rested_run {loc : BitVec 16} {packets : List (List (List Byte))} {is : List ItchIn}
    (hd : Delivers loc packets is) (hmsgs : ∀ msgs ∈ packets, ∀ m ∈ msgs, Decode.Followed m)
    {q : ItchRegs} (hq : Rested q) : Rested (itchCore.run q is) ∧
      ∀ pre i, pre ++ [i] <+: is → i.ipDataTlast = true → Rested (itchCore.run q (pre ++ [i])) := by
  induction hd generalizing q with
  | nil =>
    refine ⟨hq, fun pre i hpre _ => ?_⟩
    rw [List.prefix_nil] at hpre
    exact absurd hpre (List.append_ne_nil_of_right_ne_nil pre (List.cons_ne_nil i []))
  | @cons msgs bs packets is hc hd ih =>
    have hrest := (Decode.packet_sent loc (hmsgs msgs List.mem_cons_self) hc hq).2
    obtain ⟨hall, hlast⟩ := ih (fun p hp => hmsgs p (List.mem_cons_of_mem _ hp)) hrest
    rw [Circuit.run_append]
    refine ⟨hall, fun pre i hpre hi => ?_⟩
    rcases List.prefix_or_prefix_of_prefix hpre (List.prefix_append _ _) with h | ⟨t, ht⟩
    · -- the last word of this packet
      obtain ⟨l, hl, hmap⟩ := List.prefix_map_iff.1 h
      rcases List.eq_nil_or_concat l with rfl | ⟨l, axis, rfl⟩
      · cases (List.append_eq_nil_iff.1 hmap).2
      · rw [List.concat_eq_append] at hl hmap
        rw [List.map_append] at hmap
        obtain ⟨-, hlast'⟩ := List.append_inj' hmap rfl
        obtain rfl := List.singleton_inj.1 hlast'
        rw [hmap, ← List.map_append, eq_of_tlast hc hl hi]
        exact hrest
    · rcases List.eq_nil_or_concat t with rfl | ⟨t, j, rfl⟩
      · rw [← ht, List.append_nil]
        exact hrest
      · rw [List.concat_eq_append, ← List.append_assoc] at ht
        obtain ⟨rfl, hj⟩ := List.append_inj' ht rfl
        obtain rfl := List.singleton_inj.1 hj
        rw [List.append_assoc, List.prefix_append_right_inj] at hpre
        rw [List.append_assoc, Circuit.run_append]
        exact hlast t j hpre hi

/-- In one more cycle, all words that are presented are read. -/
theorem words_all (q : TopRegs) (cycles : List TopIn) (last : TopIn) :
    (itchIns q (cycles ++ [last])).filterMap wordOf =
      q.mold.ipWord.toList ++ presented q.mold (cycles.map TopIn.axis) := by
  induction cycles generalizing q with
  | nil =>
    have hword : wordOf q.itchIn = q.mold.ipWord := rfl
    change List.filterMap wordOf [q.itchIn] = q.mold.ipWord.toList ++ []
    rw [List.append_nil]
    cases hw : q.mold.ipWord with
    | none => exact List.filterMap_cons_none (hword.trans hw)
    | some w => exact List.filterMap_cons_some (hword.trans hw)
  | cons i cycles ih =>
    have hpresented : presented q.mold ((i :: cycles).map TopIn.axis) =
        (q.next i).mold.ipWord.toList ++ presented (q.next i).mold (cycles.map TopIn.axis) := by
      cases hw : (q.next i).mold.ipWord with
      | none => exact List.filterMap_cons_none hw
      | some w => exact List.filterMap_cons_some hw
    have hins : (itchIns q (i :: cycles ++ [last])).filterMap wordOf =
        q.mold.ipWord.toList ++ (itchIns (q.next i) (cycles ++ [last])).filterMap wordOf := by
      have hword : wordOf q.itchIn = q.mold.ipWord := rfl
      cases hw : q.mold.ipWord with
      | none => exact List.filterMap_cons_none (hword.trans hw)
      | some w => exact List.filterMap_cons_some (hword.trans hw)
    rw [hins, hpresented, ih (q.next i)]

/-- The inputs of the ITCH parser, with the stock locate known from the start. -/
def known (loc : BitVec 16) (q : TopRegs) (cycles : List TopIn) : List ItchIn :=
  (itchIns q cycles).map (locatedAt loc)

theorem known_words {s : MoldUDP64Parser} {q : TopRegs} (hq : Quiescent s q) (loc : BitVec 16)
    (cycles : List TopIn) (last : TopIn) :
    (known loc q (cycles ++ [last])).filter (fun i => i.ipDataV) =
      (presented q.mold (cycles.map TopIn.axis)).map (knownWord loc) := by
  have hword : q.mold.ipWord = none := by
    rw [Rtl.MoldRegs.ipWord, hq.word, if_neg Bool.false_ne_true]
  rw [known, Gating.filter_locatedAt, words_all, hword]
  rfl

/-- What the ITCH parser sends of the words that are presented. -/
theorem collect_known {s : MoldUDP64Parser} {q : TopRegs} (hq : Quiescent s q) (loc : BitVec 16)
    (cycles : List TopIn) (last : TopIn) :
    collect (itchFresh.trace q.itch (known loc q (cycles ++ [last]))) =
      collect (itchCore.trace (norm q.itch)
        ((presented q.mold (cycles.map TopIn.axis)).map (knownWord loc))) := by
  have hgap : Gap q.itch := fun _ => Or.inl hq.settled.state
  rw [itchFresh_paced.trace_eq hgap, collect_weave (Circuit.length_trace ..), known_words hq]

/-- What the ITCH parser makes of a whole stream if it knows the stock locate. -/
structure Heard (loc : BitVec 16) (q : ItchRegs) (is : List ItchIn) (ds : List Decoded) : Prop where
  sent : collect (itchFresh.trace q is) = some ds
  idle : (itchParser.run q is).state = .idle
  last : ∀ pre i, pre ++ [i] <+: is → i.ipDataV = true → i.ipDataTlast = true →
    (itchParser.run q (pre ++ [i])).state = .idle

/-- **A stream of packets, heard with the stock locate known.** -/
theorem heard {s : MoldUDP64Parser} {q : TopRegs} {packets : List (List (List Byte))}
    {cycles : List TopIn} (hq : Quiescent s q) (hstream : Stream s packets (cycles.map TopIn.axis))
    (loc : BitVec 16) (last : TopIn) : Heard loc q.itch (known loc q (cycles ++ [last])) (sent loc packets) := by
  obtain ⟨packets', hflat, hd⟩ := Gating.words_of_stream loc hstream hq.synced hq.tracks
  have hgap : Gap q.itch := fun _ => Or.inl hq.settled.state
  have hvalid := hstream.valid
  rw [← hflat] at hvalid
  have hfollowed : ∀ msgs ∈ packets', ∀ m ∈ msgs, Decode.Followed m := fun msgs hp m hm =>
    Decode.followed_of_valid (hvalid m (List.mem_flatten.2 ⟨msgs, hp, hm⟩)).1 (Or.inr rfl)
      (hvalid m (List.mem_flatten.2 ⟨msgs, hp, hm⟩)).2
  have hsome : ∀ m ∈ packets'.flatten, decodeMsg loc m = some ((decodeMsg loc m).getD []) := by
    intro m hm
    obtain ⟨out, hout⟩ := Option.ne_none_iff_exists'.1 (Decode.decodeMsg_iff.2 (hvalid m hm).2)
    rw [hout]
    rfl
  rw [← known_words hq loc cycles last] at hd
  obtain ⟨hrest, hlast⟩ := rested_run hd hfollowed hq.settled.rested
  have hcore := fun is => itchFresh_paced.core_run hgap is
  refine ⟨?_, ?_, fun pre i hpre hv hi => ?_⟩
  · rw [collect_known hq, ← known_words hq loc cycles last,
      Decode.packets_sent hd hfollowed hq.settled.rested, List.map_congr_left hsome,
      Decode.collect_map_some, hflat]
    rfl
  · have hstate := congrArg ItchRegs.state (hcore (known loc q (cycles ++ [last])))
    exact hstate.trans hrest.state
  · have hstate := congrArg ItchRegs.state (hcore (pre ++ [i]))
    have hfilter : (pre ++ [i]).filter (fun i => i.ipDataV) = pre.filter (fun i => i.ipDataV) ++ [i] := by
      rw [List.filter_append, List.filter_cons_of_pos hv, List.filter_nil]
    rw [hfilter] at hstate
    refine hstate.trans (hlast _ i ?_ hi).state
    rw [← hfilter]
    exact hpre.filter _

/-- The MoldUDP64 parser raises no error. -/
theorem quiet_of_stream {s : MoldUDP64Parser} {packets : List (List (List Byte))} {cycles : List Axis}
    (h : Stream s packets cycles) {m : Rtl.MoldRegs} (hm : Framing.Synced m) (ht : Framing.Tracks s m) :
    Framing.Quiet (moldudp64Parser.trace m cycles) := by
  induction h generalizing m with
  | @idle s cycles hidle =>
    have hnil : cycles.filter (fun axis => axis.tvalid) = [] :=
      List.filter_eq_nil_iff.2 fun axis ha => by simp [hidle axis ha]
    rw [Framing.quiet_trace_iff, hnil]
    exact Framing.quiet_nil
  | @packet s pkt msgs packets cycles cycles' hlen hok hfr hmsgs hc h ih =>
    have hcore : Framing.Synced (Framing.core m) := ⟨hm.idle, hm.compare⟩
    have hquiet : Framing.Quiet (moldudp64Parser.trace m cycles) := by
      rw [Framing.quiet_trace_iff]
      exact (Framing.packet_run hcore (Framing.session_ok ht hok) (Framing.seq_ok ht hok) hlen
        (Decode.lengthsOk_of_framed hfr fun x hx =>
          Decode.followed_of_valid (hfr.isMsg x hx) (Or.inr rfl) (hmsgs x hx)) hc).2 ⟨msgs, hfr⟩
    obtain ⟨-, -, hm', ht'⟩ := Framing.tracks_of_quiet hm ht hlen hok hc hquiet
    rw [Circuit.trace_append]
    intro o ho
    rcases List.mem_append.1 ho with ho | ho
    · exact hquiet o ho
    · exact ih hm' ht' o ho

/-! ### The run -/

/-- The modules in front of the book raise no error. -/
structure FrontQuiet (q : TopRegs) (i : TopIn) : Prop where
  mold : q.mold.npError i.axis = false
  itch : (q.itch.comb q.itchIn).ipError = false
  control : q.control.ctrlError (q.controlIn i) = false

/-- So far, the ITCH parser has been where it would have been with a known stock locate, whichever this is
as long as `control` has none. -/
def InStep (loc : BitVec 16) (q : TopRegs) (pre : List TopIn) : Prop :=
  ∀ loc', ((top.run q pre).control.stockLocateV = true → loc' = loc) →
    (top.run q pre).itch = itchParser.run q.itch (known loc' q pre) ∧
      Gating.shown q pre = (itchParser.trace q.itch (known loc' q pre)).flatMap emitted

/-- The registers of `control` follow what is shown. -/
theorem control_run {q : TopRegs} {cycles : List TopIn} (hinit : ∀ i ∈ cycles, i.initV = false) :
    (top.run q cycles).control = (Gating.shown q cycles).foldl after q.control := by
  induction cycles generalizing q with
  | nil => rfl
  | cons i cycles ih =>
    obtain ⟨hi, hinit⟩ := List.forall_mem_cons.1 hinit
    have hshown : Gating.shown q (i :: cycles) = emitted q.itchOut ++ Gating.shown (q.next i) cycles := rfl
    rw [hshown, List.foldl_append, ← Gating.control_next hi]
    exact ih hinit

theorem itchIns_append (q : TopRegs) (cycles : List TopIn) (cycles' : List TopIn) :
    itchIns q (cycles ++ cycles') = itchIns q cycles ++ itchIns (top.run q cycles) cycles' :=
  Circuit.trace_append _ q cycles cycles'

theorem known_append (loc : BitVec 16) (q : TopRegs) (cycles cycles' : List TopIn) :
    known loc q (cycles ++ cycles') = known loc q cycles ++ known loc (top.run q cycles) cycles' := by
  rw [known, itchIns_append, List.map_append]
  rfl

theorem shown_append (q : TopRegs) (cycles cycles' : List TopIn) :
    Gating.shown q (cycles ++ cycles') =
      Gating.shown q cycles ++ Gating.shown (top.run q cycles) cycles' := by
  rw [Gating.shown, Circuit.trace_append, List.flatten_append]
  rfl

section Run

variable {loc loc' : BitVec 16} {q : TopRegs} {pre rest : List TopIn} {i : TopIn} {ds : List Decoded}

/-- What has been sent is shown, or on its way. -/
theorem InStep.sent (h : InStep loc q pre) (hgap : Gap q.itch) (hpending : pending q.itch = [])
    (hloc : (top.run q pre).control.stockLocateV = true → loc' = loc)
    (hsome : collect (itchFresh.trace q.itch (known loc' q pre)) = some ds) :
    ds = Gating.shown q pre ++ pending (top.run q pre).itch := by
  obtain ⟨hitch, hshown⟩ := h loc' hloc
  have hemit := (Decode.emitted_run hgap hsome).2
  rw [hpending, List.nil_append, ← hitch, ← hshown] at hemit
  exact hemit.symm

/-- What has been shown, and what is on its way, are the first messages; the others are still to come. -/
theorem InStep.split (h : InStep loc q pre) (hgap : Gap q.itch) (hpending : pending q.itch = [])
    (hloc : (top.run q pre).control.stockLocateV = true → loc' = loc)
    (hheard : Heard loc' q.itch (known loc' q (pre ++ rest)) ds) :
    ∃ later, ds = Gating.shown q pre ++ pending (top.run q pre).itch ++ later ∧
      collect (itchFresh.trace (top.run q pre).itch (known loc' (top.run q pre) rest)) = some later := by
  have hsent := hheard.sent
  rw [known_append, Circuit.trace_append, collect_append, Option.bind_eq_some_iff] at hsent
  obtain ⟨part, hpart, hrest⟩ := hsent
  obtain ⟨later, hlater, rfl⟩ := Option.map_eq_some_iff.1 hrest
  refine ⟨later, by rw [h.sent hgap hpending hloc hpart], ?_⟩
  rw [(h loc' hloc).1]
  exact hlater

/-- Nothing is on its way at rest. -/
theorem pending_of_quiescent {s : MoldUDP64Parser} (hq : Quiescent s q) : pending q.itch = [] := by
  rw [pending, Decode.ofCtrl_of_not_valid hq.ctrl, Decode.ofBook_of_not_valid hq.book,
    Decode.ofBook_of_not_valid hq.del]
  rfl

/-- **An order message comes behind the directory message**, so that its locate is known. -/
theorem InStep.no_missed (h : InStep loc q pre) {s : MoldUDP64Parser} (hq : Quiescent s q)
    (hinit : ∀ i ∈ pre, i.initV = false)
    (hheard : ∀ loc', ∃ ds, Heard loc' q.itch (known loc' q (pre ++ i :: rest)) ds ∧
      AdmitsAll loc q.control ds) :
    ((top.run q pre).itch.comb (top.run q pre).itchIn).errorStockLocate = false := by
  by_contra hne
  obtain ⟨loc', hmissed⟩ := exists_missed (by simpa using hne)
  have hunknown : (top.run q pre).control.stockLocateV = false := hmissed.unknown
  have hgap : Gap q.itch := fun _ => Or.inl hq.settled.state
  have hloc : (top.run q pre).control.stockLocateV = true → loc' = loc := fun hv => by
    rw [hunknown] at hv
    cases hv
  obtain ⟨ds, hds, hadm⟩ := hheard loc'
  obtain ⟨later, rfl, hlater⟩ := h.split hgap (pending_of_quiescent hq) hloc hds
  -- the order is sent next
  have hitch := (h loc' hloc).1
  have hins : known loc' (top.run q pre) (i :: rest) =
      locatedAt loc' (top.run q pre).itchIn :: known loc' ((top.run q pre).next i) rest := rfl
  have hlast : (top.run q pre).itchIn.ipDataTlast = false := by
    by_contra hlast
    have hv : (top.run q pre).itchIn.ipDataV = true := by
      by_contra hv
      rw [Decode.comb_idle (Bool.eq_false_iff.2 hv)] at hne
      exact hne rfl
    have hle : known loc' q pre ++ [locatedAt loc' (top.run q pre).itchIn] <+:
        known loc' q (pre ++ i :: rest) := by
      rw [known_append, hins]
      exact ⟨known loc' ((top.run q pre).next i) rest, List.append_assoc ..⟩
    have hidle := hds.last _ _ hle hv (Bool.eq_true_of_not_eq_false hlast)
    rw [Circuit.run_append, ← hitch] at hidle
    exact hmissed.busy hidle
  have hrun := hds.idle
  rw [known_append, Circuit.run_append, ← hitch, hins] at hrun
  rw [hins, Circuit.trace_cons] at hlater
  change collect (Decode.shown _ :: itchFresh.trace ((top.run q pre).itch.next _) _) = _ at hlater
  rw [Decode.shown] at hlater
  split_ifs at hlater
  · cases hlater
  rw [hmissed.silent, collect_cons_some, Option.map_eq_some_iff] at hlater
  obtain ⟨later', hlater', rfl⟩ := hlater
  obtain ⟨d, tail, rfl, hd⟩ := matched_run (hmissed.matched hlast) hlater' hrun
  -- but no stock locate is known in front of it
  have hknown := (AdmitsAll.at hadm).order hd
  have hctrl : (top.run q pre).itch.decCtrl.valid = false := by
    by_contra hv
    rcases List.eq_nil_or_concat pre with rfl | ⟨pre', j, rfl⟩
    · rw [show (top.run q []).itch = q.itch from rfl, hq.ctrl] at hv
      exact hv rfl
    · rw [List.concat_eq_append, Circuit.run_append] at hv hmissed
      exact not_inOrder_of_ctrl (Bool.eq_true_of_not_eq_false hv) hmissed.inOrder
  have hpend : (pending (top.run q pre).itch).foldl after (top.run q pre).control =
      (top.run q pre).control := by
    rw [pending, Decode.ofCtrl_of_not_valid hctrl, List.nil_append, List.foldl_append,
      Gating.foldl_after_ofBook, Gating.foldl_after_ofBook]
  rw [List.foldl_append, ← control_run hinit, hpend, hunknown] at hknown
  cases hknown

/-- **One cycle.** No error is raised, and the parser stays where it would be. -/
theorem InStep.next (h : InStep loc q pre) {s : MoldUDP64Parser} (hq : Quiescent s q)
    (hinit : ∀ i ∈ pre, i.initV = false) (hi : i.initV = false) (hlocates : Locates loc q.control)
    (hheard : ∀ loc', ∃ ds, Heard loc' q.itch (known loc' q (pre ++ i :: rest)) ds ∧
      AdmitsAll loc q.control ds) :
    ((top.run q pre).itch.comb (top.run q pre).itchIn).ipError = false ∧
      (top.run q pre).control.ctrlError ((top.run q pre).controlIn i) = false ∧
      InStep loc q (pre ++ [i]) := by
  have hmiss := h.no_missed hq hinit hheard
  have hgap : Gap q.itch := fun _ => Or.inl hq.settled.state
  obtain ⟨ds, hds, hadm⟩ := hheard loc
  obtain ⟨later, rfl, hlater⟩ := h.split hgap (pending_of_quiescent hq) (fun _ => rfl) hds
  rw [admitsAll_append] at hadm
  have hshown := admitsAll_append.1 hadm.1
  rw [← control_run hinit] at hshown
  have hlocate : Locates loc (top.run q pre).control := by
    rw [control_run hinit]
    exact hlocates.foldl (admitsAll_append.1 hadm.1).1
  have hcomb : ∀ loc', ((top.run q pre).control.stockLocateV = true → loc' = loc) →
      (top.run q pre).itch.comb (top.run q pre).itchIn =
        (top.run q pre).itch.comb (locatedAt loc' (top.run q pre).itchIn) := fun loc' hloc =>
    Gating.comb_locatedAt hmiss fun hv => (hlocate hv).trans (hloc hv).symm
  refine ⟨?_, ?_, fun loc' hloc => ?_⟩
  · have hins : known loc (top.run q pre) (i :: rest) =
        locatedAt loc (top.run q pre).itchIn :: known loc ((top.run q pre).next i) rest := rfl
    rw [hins, Circuit.trace_cons] at hlater
    change collect (Decode.shown _ :: itchFresh.trace ((top.run q pre).itch.next _) _) = _ at hlater
    rw [Decode.shown, ← hcomb loc fun _ => rfl] at hlater
    by_contra hne
    rw [if_pos (Bool.eq_true_of_not_eq_false hne)] at hlater
    cases hlater
  · refine ctrlError_of_admitted i (hshown.2.first ?_)
    exact List.prefix_append _ _
  · have hloc' : (top.run q pre).control.stockLocateV = true → loc' = loc := fun hv => by
      apply hloc
      rw [Circuit.run_append]
      change ((top.run q pre).next i).control.stockLocateV = true
      rw [Gating.control_next hi]
      exact stockLocateV_foldl _ hv
    obtain ⟨hitch, hout⟩ := h loc' hloc'
    have hins : known loc' q (pre ++ [i]) = known loc' q pre ++ [locatedAt loc' (top.run q pre).itchIn] := by
      rw [known_append]
      rfl
    rw [hins, Circuit.run_append, Circuit.run_append, Circuit.trace_append, List.flatMap_append, ← hout,
      ← hitch, shown_append]
    refine ⟨?_, rfl⟩
    change (top.run q pre).itch.next (top.run q pre).itchIn = (top.run q pre).itch.next _
    rw [Rtl.ItchRegs.next, Rtl.ItchRegs.next, hcomb loc' hloc']

/-- **The whole run.** -/
theorem located_run {s : MoldUDP64Parser} (hq : Quiescent s q) {cycles : List TopIn}
    (hinit : ∀ i ∈ cycles, i.initV = false) (hlocates : Locates loc q.control)
    (hheard : ∀ loc', ∃ ds, Heard loc' q.itch (known loc' q cycles) ds ∧ AdmitsAll loc q.control ds)
    (hcut : cycles = pre ++ rest) : InStep loc q pre := by
  induction pre using List.reverseRecOn generalizing rest with
  | nil => exact fun loc' _ => ⟨rfl, rfl⟩
  | append_singleton pre i ih =>
    have hcut' : cycles = pre ++ i :: rest := by
      rw [hcut, List.append_assoc]
      rfl
    subst hcut'
    obtain ⟨hpre, hinit'⟩ := List.forall_mem_append.1 hinit
    exact ((ih rfl).next hq hpre (hinit' i List.mem_cons_self) hlocates hheard).2.2

end Run

/-! ### A stream that the control module admits -/

section Stream

variable {s : MoldUDP64Parser} {q : TopRegs} {packets : List (List (List Byte))} {cycles : List TopIn}
  {loc : BitVec 16}

/-- The stream is heard whole, and admitted, whatever the stock locate is. -/
theorem heard_admitted (hq : Quiescent s q) (hstream : Stream s packets (cycles.map TopIn.axis))
    (hadm : ∀ loc', AdmitsAll loc q.control (sent loc' packets)) (last : TopIn) (loc' : BitVec 16) :
    ∃ ds, Heard loc' q.itch (known loc' q (cycles ++ [last])) ds ∧ AdmitsAll loc q.control ds :=
  ⟨_, heard hq hstream loc' last, hadm loc'⟩

theorem npError_along (h : Framing.Quiet (moldudp64Parser.trace q.mold (cycles.map TopIn.axis))) :
    top.Along (fun q i => q.mold.npError i.axis = false) q cycles := by
  induction cycles generalizing q with
  | nil => exact Circuit.along_nil
  | cons i cycles ih =>
    obtain ⟨hi, hrest⟩ := List.forall_mem_cons.1 h
    exact Circuit.along_cons.2 ⟨hi, ih hrest⟩

/-- **No error in front of the book.** -/
theorem front_quiet (hq : Quiescent s q) (hstream : Stream s packets (cycles.map TopIn.axis))
    (hadm : ∀ loc', AdmitsAll loc q.control (sent loc' packets)) (hlocates : Locates loc q.control)
    {last : TopIn} (hinit : ∀ i ∈ cycles ++ [last], i.initV = false) (hlast : last.axis.tvalid = false) :
    top.Along FrontQuiet q (cycles ++ [last]) := by
  intro pre i rest hcut
  have hheard := heard_admitted hq hstream hadm last
  have hstep := located_run hq hinit hlocates hheard hcut
  rw [hcut] at hheard hinit
  obtain ⟨hpre, hrest⟩ := List.forall_mem_append.1 hinit
  obtain ⟨hitch, hctrl, -⟩ := hstep.next hq hpre (hrest i List.mem_cons_self) hlocates hheard
  refine ⟨?_, hitch, hctrl⟩
  have hmold : Framing.Quiet (moldudp64Parser.trace q.mold ((cycles ++ [last]).map TopIn.axis)) := by
    rw [List.map_append, Circuit.trace_append]
    intro o ho
    rcases List.mem_append.1 ho with ho | ho
    · exact quiet_of_stream hstream hq.synced hq.tracks o ho
    · rw [List.mem_singleton.1 ho]
      exact Bool.and_eq_false_imp.2 fun hv => absurd (hlast.symm.trans hv) Bool.false_ne_true
  exact npError_along hmold pre i rest hcut

/-- **All messages are shown**, or on their way. -/
theorem shown_all (hq : Quiescent s q) (hstream : Stream s packets (cycles.map TopIn.axis))
    (hadm : ∀ loc', AdmitsAll loc q.control (sent loc' packets)) (hlocates : Locates loc q.control)
    {last : TopIn} (hinit : ∀ i ∈ cycles ++ [last], i.initV = false) :
    Gating.shown q (cycles ++ [last]) ++ pending (top.run q (cycles ++ [last])).itch = sent loc packets := by
  have hheard := heard_admitted hq hstream hadm last
  have hcut : cycles ++ [last] = (cycles ++ [last]) ++ [] := (List.append_nil _).symm
  have hstep := located_run hq hinit hlocates hheard hcut
  have hds := heard hq hstream loc last
  rw [hcut] at hds
  obtain ⟨later, hsent, hlater⟩ :=
    hstep.split (fun _ => Or.inl hq.settled.state) (pending_of_quiescent hq) (fun _ => rfl) hds
  obtain rfl : later = [] := (Option.some.inj hlater).symm
  rw [hsent, List.append_nil]

end Stream

end ItchOrderBook.System
