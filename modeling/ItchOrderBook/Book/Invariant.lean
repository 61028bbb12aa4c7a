import ItchOrderBook.Book.OrderStore
import ItchOrderBook.Book.PriceStore
import ItchOrderBook.Book.Half
import ItchOrderBook.Ref.Book

/-!
# The book invariant

`Good` ties the three stores of a book to its live orders: L2 tracks the covered levels, and each
half of the BBO shows the first levels of its side and counts the others. `book_processMsg`
follows a message through the stages: either it is answered with the true best levels and the
book stays good, or it is refused for one of the external reasons. None of the internal
assertions is reached.
-/

namespace ItchOrderBook.Book

open Ref

variable {cfg : Params} {ideal : Bool} {base : ℤ}

/-! ### Both sides of the BBO under one name -/

/-- `bid_module` or `off_module`. -/
def half (b : BBO) (isBuy : Bool) : BBOHalf := if isBuy then b.bidModule else b.offModule

/-- `bid_entry` or `off_entry`. -/
def best (b : BBO) (isBuy : Bool) : Option BBOEntry := if isBuy then b.bidEntry else b.offEntry

/-- The BBO with one half replaced. -/
def setHalf (b : BBO) (isBuy : Bool) (h : BBOHalf) : BBO :=
  if isBuy then { b with bidModule := h } else { b with offModule := h }

/-- The BBO with one best entry replaced. -/
def setBest (b : BBO) (isBuy : Bool) (e : Option BBOEntry) : BBO :=
  if isBuy then { b with bidEntry := e } else { b with offEntry := e }

section Sides

variable (b : BBO) (s c : Bool) (h : BBOHalf) (e : Option BBOEntry)

@[simp] theorem half_setHalf : half (setHalf b s h) c = if s = c then h else half b c := by
  cases s <;> cases c <;> rfl

@[simp] theorem half_setBest : half (setBest b s e) c = half b c := by
  cases s <;> cases c <;> rfl

@[simp] theorem best_setHalf : best (setHalf b s h) c = best b c := by
  cases s <;> cases c <;> rfl

@[simp] theorem best_setBest : best (setBest b s e) c = if s = c then e else best b c := by
  cases s <;> cases c <;> rfl

end Sides

/-- The prefix `BBO.process_msg` puts before the error text of a half. -/
def sideText (isBuy : Bool) : String := if isBuy then "(BID) " else "(OFF) "

theorem bbo_processMsg (b : BBO) (msg : DownstreamOrderMsg) :
    b.processMsg cfg msg =
      match (half b msg.isBuy).processMsg cfg msg with
      | (.raise e, h) => (.raise e, setHalf b msg.isBuy h)
      | (.err code, h) => (.err (sideText msg.isBuy ++ code), setHalf b msg.isBuy h)
      | (.ret r, h) =>
        let b' := setBest (setHalf b msg.isBuy h) msg.isBuy r.entry
        (b'.finish msg r, b') := by
  unfold BBO.processMsg half setHalf setBest sideText
  cases msg.isBuy
  · rcases hh : b.offModule.processMsg cfg msg with ⟨_ | _ | _, h⟩ <;> simp [hh]
  · rcases hh : b.bidModule.processMsg cfg msg with ⟨_ | _ | _, h⟩ <;> simp [hh]

theorem bbo_processUpdt (b : BBO) (isBuy : Bool) (entry : BBOEntry) :
    b.processUpdt cfg isBuy entry =
      ((half b isBuy).processUpdt cfg entry).map fun h => setHalf b isBuy h := by
  cases isBuy <;> rfl

/-! ### The best levels -/

/-- The best level of a side. -/
def top (d : Orders) (isBuy : Bool) : Option BBOEntry := (bookSide d isBuy).head?

/-- The answer to a message after which the orders `d` are live. -/
def quote (d : Orders) : BookResult where
  bidEntry := top d true
  offEntry := top d false
  spread :=
    match top d true, top d false with
    | some bid, some off => some (off.price - bid.price)
    | _, _ => none

theorem top_eq (d : Orders) (isBuy : Bool) : top d isBuy = (ladder d isBuy).head?.map toEntry := by
  rw [top, bookSide, List.head?_map]

theorem mem_levelPrices_of_ladder {d : Orders} {isBuy : Bool} {x : ℤ × ℤ} (hx : x ∈ ladder d isBuy) :
    x.1 ∈ levelPrices d isBuy := by
  obtain ⟨p, hp, rfl⟩ := List.mem_map.1 hx
  exact mem_sortPrices.1 hp

/-- No price is better than the one at the top. -/
theorem eq_or_better_of_top {d : Orders} {isBuy : Bool} {e : BBOEntry} (he : top d isBuy = some e) :
    e.price ∈ levelPrices d isBuy ∧
      ∀ p ∈ levelPrices d isBuy, p = e.price ∨ Better isBuy e.price p := by
  have hsorted := pairwise_sortPrices isBuy (levelPrices d isBuy)
  have hmem : ∀ p, p ∈ sortPrices isBuy (levelPrices d isBuy) ↔ p ∈ levelPrices d isBuy :=
    fun p => mem_sortPrices
  rw [top_eq, ladder] at he
  cases hl : sortPrices isBuy (levelPrices d isBuy) with
  | nil => rw [hl] at he; cases he
  | cons q qs =>
    rw [hl] at he hsorted hmem
    cases he
    refine ⟨(hmem q).1 List.mem_cons_self, fun p hp => ?_⟩
    rcases List.mem_cons.1 ((hmem p).2 hp) with rfl | hp
    · exact Or.inl rfl
    · exact Or.inr ((List.pairwise_cons.1 hsorted).1 p hp)

theorem exists_top_of_mem {d : Orders} {isBuy : Bool} {p : ℤ} (hp : p ∈ levelPrices d isBuy) :
    ∃ e, top d isBuy = some e := by
  rw [top_eq, ladder]
  cases hl : sortPrices isBuy (levelPrices d isBuy) with
  | nil => rw [← mem_sortPrices, hl] at hp; cases hp
  | cons q qs => exact ⟨_, rfl⟩

/-- The spread check sees whether the book is crossed. -/
theorem uncrossed_iff {d : Orders} :
    Uncrossed d ↔ ∀ bid off, top d true = some bid → top d false = some off →
      off.price - bid.price > 0 := by
  constructor
  · intro h bid off hb ho
    have := h _ (eq_or_better_of_top hb).1 _ (eq_or_better_of_top ho).1
    omega
  · intro h p hp q hq
    obtain ⟨bid, hb⟩ := exists_top_of_mem hp
    obtain ⟨off, ho⟩ := exists_top_of_mem hq
    have hlt := h bid off hb ho
    have hpb := (eq_or_better_of_top hb).2 p hp
    have hqo := (eq_or_better_of_top ho).2 q hq
    simp only [Better, if_true, Bool.false_eq_true, if_false] at hpb hqo
    omega

/-- **The end of `BBO.process_msg`.** With the best entries in place it answers with the quote,
unless the book is crossed. -/
theorem finish_spec {b : BBO} {d : Orders} (hb : ∀ c, best b c = top d c) (msg : DownstreamOrderMsg)
    (r : BBOHalfResult) :
    (Uncrossed d ∧ b.finish msg r = .ret ⟨(quote d).bidEntry, (quote d).offEntry, (quote d).spread,
      r.updtReq, msg.isBuy, r.updtReqMaskEnc⟩) ∨
    (¬ Uncrossed d ∧ b.finish msg r = .raise (.assertion "Spread should be positive.")) := by
  have hbid : b.bidEntry = top d true := hb true
  have hoff : b.offEntry = top d false := hb false
  rw [uncrossed_iff]
  simp only [BBO.finish, quote, hbid, hoff]
  cases hbt : top d true with
  | none => exact Or.inl ⟨by simp, rfl⟩
  | some bid =>
    cases hot : top d false with
    | none => exact Or.inl ⟨by simp, rfl⟩
    | some off =>
      by_cases hs : off.price - bid.price > 0
      · refine Or.inl ⟨?_, by simp only [hs, if_true]⟩
        rintro _ _ ⟨⟩ ⟨⟩
        exact hs
      · exact Or.inr ⟨fun h => hs (h bid off rfl rfl), by simp only [hs, if_false]⟩

/-! ### The invariant -/

/-- The side and window a half was set up with. -/
structure HalfWindow (cfg : Params) (ideal : Bool) (base : ℤ) (isBuy : Bool) (h : BBOHalf) :
    Prop where
  isBuy_eq : h.isBuy = isBuy
  ideal_eq : h.ideal = ideal
  bound_eq : h.priceBound = if isBuy then base else windowMax cfg base

/-- **The book invariant.** The three stores hold what they should of the live orders. -/
structure Good (ideal : Bool) (base : ℤ) (b : Book cfg) : Prop where
  kindL3 : isIdeal b.l3.memory = ideal
  kindL2 : b.l2.ideal = ideal
  placed : Placed cfg ideal base (orderMap b.l3).live
  tracks : Tracks base (orderMap b.l3).live b.l2
  window : ∀ c, HalfWindow cfg ideal base c (half b.bbo c)
  halves : ∀ c, HalfAt cfg.bboDepth (half b.bbo c) (ladder (orderMap b.l3).live c)
  bests : ∀ c, best b.bbo c = top (orderMap b.l3).live c

/-- L2 and the BBO hold what they should of the live orders. -/
structure Follows (ideal : Bool) (base : ℤ) (d : Orders) (l2 : L2 cfg) (bbo : BBO) : Prop where
  kindL2 : l2.ideal = ideal
  placed : Placed cfg ideal base d
  tracks : Tracks base d l2
  window : ∀ c, HalfWindow cfg ideal base c (half bbo c)
  halves : ∀ c, HalfAt cfg.bboDepth (half bbo c) (ladder d c)
  bests : ∀ c, best bbo c = top d c

theorem Good.follows {b : Book cfg} (hg : Good ideal base b) :
    Follows ideal base (orderMap b.l3).live b.l2 b.bbo :=
  ⟨hg.kindL2, hg.placed, hg.tracks, hg.window, hg.halves, hg.bests⟩

theorem Follows.good {b : Book cfg} (hk : isIdeal b.l3.memory = ideal)
    (hf : Follows ideal base (orderMap b.l3).live b.l2 b.bbo) : Good ideal base b :=
  ⟨hk, hf.kindL2, hf.placed, hf.tracks, hf.window, hf.halves, hf.bests⟩

theorem HalfWindow.of_sameHalf {c : Bool} {h h' : BBOHalf} (hw : HalfWindow cfg ideal base c h)
    (hs : SameHalf h h') : HalfWindow cfg ideal base c h' :=
  ⟨hs.1.trans hw.isBuy_eq, hs.2.1.trans hw.ideal_eq, hs.2.2.trans hw.bound_eq⟩

/-- On live prices, a half counts as in range what L2 covers. -/
theorem HalfWindow.inRange_eq {c : Bool} {h : BBOHalf} (hw : HalfWindow cfg ideal base c h)
    {d : Orders} (hd : Placed cfg ideal base d) {p : ℤ} (hp : p ∈ levelPrices d c) :
    h.inRange p = covered cfg ideal base p := by
  obtain ⟨i, e, he, rfl, rfl⟩ := mem_levelPrices.1 hp
  obtain ⟨h1, h2, h3⟩ := hw
  unfold BBOHalf.inRange covered
  rw [h1, h2, h3]
  cases hid : ideal
  · have := hd.inside i e he hid
    cases hb : e.isBuy <;> rw [hb] at this <;> simp_all
  · rfl

section Step

variable {om om' : OrderMap} {msg : BookMsg} {lk : DownstreamOrderMsg}

/-- The ladder of the other side stays. -/
theorem ladder_step_other (h : om.step msg = some (lk, om')) (hd : Positive om.live)
    (hm : msg.SharesPos) {c : Bool} (hc : lk.isBuy ≠ c) : ladder om'.live c = ladder om.live c := by
  refine (isLadder_ladder (OrderMap.step_positive h hd hm)).unique
    ((isLadder_ladder hd).congr fun p => ?_)
  rw [levelShares_step h, changeAt, if_neg fun e => hc e.1, add_zero]

/-- The ladder of the side of the message changes at its price. -/
theorem ladder_step_same (h : om.step msg = some (lk, om')) (hd : Positive om.live)
    (hm : msg.SharesPos) :
    ∃ pre post, (∀ x ∈ pre, Better lk.isBuy x.1 lk.price) ∧
      (∀ x ∈ post, Better lk.isBuy lk.price x.1) ∧
      ladder om.live lk.isBuy =
        pre ++ rung lk.price (levelShares om.live lk.isBuy lk.price) ++ post ∧
      ladder om'.live lk.isBuy =
        pre ++ rung lk.price (levelShares om.live lk.isBuy lk.price + change lk) ++ post := by
  have hl : IsLadder (Better lk.isBuy) (levelShares om.live lk.isBuy) (ladder om.live lk.isBuy) :=
    isLadder_ladder hd
  obtain ⟨pre, post, hpre, hpost, hsplit⟩ := hl.exists_split lk.price
  refine ⟨pre, post, hpre, hpost, hsplit, ?_⟩
  rw [hsplit] at hl
  have hl' := hl.update (g := levelShares om'.live lk.isBuy) hpre hpost fun p hp => by
    rw [levelShares_step h, changeAt, if_neg fun e => hp e.2.symm, add_zero]
  rw [levelShares_step h, changeAt, if_pos ⟨rfl, rfl⟩] at hl'
  exact (isLadder_ladder (OrderMap.step_positive h hd hm)).unique hl'

theorem pos_of_mem_ladder {d : Orders} (hd : Positive d) {c : Bool} {x : ℤ × ℤ}
    (hx : x ∈ ladder d c) : 0 < x.2 := by
  obtain ⟨hne, hf⟩ := ((isLadder_ladder hd).mem_iff x.1 x.2).1 hx
  have : 0 ≤ levelShares d c x.1 := levelShares_nonneg hd
  omega

/-- A half follows an accepted message of its side. -/
theorem half_step (h : om.step msg = some (lk, om')) (hd : Positive om.live) (hm : msg.SharesPos)
    (hn : 2 ≤ cfg.bboDepth) {hf : BBOHalf} (hw : HalfWindow cfg ideal base lk.isBuy hf)
    (hh : HalfAt cfg.bboDepth hf (ladder om.live lk.isBuy)) :
    ∃ hf', SameHalf hf hf' ∧ HalfStep cfg hf lk (ladder om'.live lk.isBuy) hf' := by
  obtain ⟨pre, post, hpre, hpost, hl, hl'⟩ := ladder_step_same h hd hm
  have hpos : ∀ x ∈ pre ++ post, 0 < x.2 := fun x hx => by
    refine pos_of_mem_ladder hd (c := lk.isBuy) ?_
    rw [hl]
    simp only [List.mem_append] at hx ⊢
    exact hx.elim (fun h => Or.inl (Or.inl h)) Or.inr
  rw [hl] at hh
  rw [hl']
  rw [← hw.isBuy_eq] at hpre hpost
  exact half_processMsg hw.isBuy_eq.symm hn hh hpre hpost hpos (levelShares_nonneg hd)
    (OrderMap.step_le_levelShares h hd) (OrderMap.step_shares_pos h hd hm)

/-- A message on a tick, not past the near side of the window, keeps the orders placed if it
leaves the book uncrossed. -/
theorem Placed.step (h : om.step msg = some (lk, om')) (hd : Placed cfg ideal base om.live)
    (hm : msg.SharesPos) (htick : lk.price % 50 = 0) (hb : ¬ Beyond cfg ideal base lk)
    (hu : Uncrossed om'.live) : Placed cfg ideal base om'.live where
  positive := OrderMap.step_positive h hd.positive hm
  tick := OrderMap.step_forall (P := fun _ p => p % 50 = 0) h hd.tick fun _ => htick
  inside := by
    refine OrderMap.step_forall (P := fun b p => ideal = false →
      if b then p ≤ windowMax cfg base else base ≤ p) h hd.inside fun _ hid => ?_
    by_contra hne
    refine hb ⟨hid, ?_⟩
    split_ifs at hne ⊢ <;> omega
  uncrossed := hu

/-- The level a half asks L2 for is covered. -/
theorem exists_refill {d : Orders} {c : Bool} {hf : BBOHalf} (hd : Placed cfg ideal base d)
    (hw : HalfWindow cfg ideal base c hf) {k : ℕ} (hh : HalfAt k hf (ladder d c))
    (hr : 0 < hf.outsideSharesInRange) :
    ∃ x, (ladder d c)[k]? = some x ∧ x.1 ∈ levelPrices d c ∧ covered cfg ideal base x.1 := by
  rw [hh.inRange] at hr
  obtain ⟨y, hy⟩ : ∃ y, y ∈ ((ladder d c).drop k).filter fun x => hf.inRange x.1 := by
    refine List.exists_mem_of_ne_nil _ fun hnil => ?_
    rw [volumeIn, hnil, volume_nil] at hr
    omega
  obtain ⟨hy, hry⟩ := List.mem_filter.1 hy
  have hlen : k < (ladder d c).length := by
    by_contra hshort
    rw [List.drop_of_length_le (by omega)] at hy
    cases hy
  have hcov : covered cfg ideal base y.1 :=
    hw.inRange_eq hd (mem_levelPrices_of_ladder (List.mem_of_mem_drop hy)) ▸ hry
  have hmem := mem_levelPrices_of_ladder (List.getElem_mem hlen)
  refine ⟨(ladder d c)[k], List.getElem?_eq_getElem hlen, hmem, ?_⟩
  have hsorted := (isLadder_ladder hd.positive : IsLadder _ _ (ladder d c)).sorted.drop (i := k)
  rw [List.drop_eq_getElem_cons hlen] at hy hsorted
  rcases List.mem_cons.1 hy with rfl | hy
  · exact hcov
  · exact covered_of_better hd hmem ((List.pairwise_cons.1 hsorted).1 y hy) hcov

end Step

/-! ### One message through the book -/

/-- The exceptions that a good book can raise: for a replace without an earlier delete, for a full
hash line, for a price past the near side of the window, or for a crossed book. -/
def ExternalRaise (e : Exn) : Prop :=
  L3Raises e ∨ WindowRaise e ∨ e = .assertion "Spread should be positive."

/-- The live orders take the message, at a price on a tick, and stay uncrossed. -/
def Accepts (om : OrderMap) (msg : BookMsg) : Prop :=
  ∃ lk om', om.step msg = some (lk, om') ∧ lk.price % 50 = 0 ∧ Uncrossed om'.live

/-- How a good book answers: with the quote of the orders then live, or not at all, which an ideal
book does only when the live orders do not take the message. -/
def Answers (ideal : Bool) (base : ℤ) (om : OrderMap) (msg : BookMsg)
    (out : Outcome BookResult × Book cfg) : Prop :=
  (∃ b' lk, out = (.ret (quote (orderMap b'.l3).live), b') ∧ Good ideal base b' ∧
    om.step msg = some (lk, orderMap b'.l3) ∧ lk.price % 50 = 0) ∨
  (((∃ c, out.1 = .err c) ∨ ∃ e, out.1 = .raise e ∧ ExternalRaise e) ∧
    (ideal = true → ¬ Accepts om msg))

section Book

variable {msg : BookMsg} {lk : DownstreamOrderMsg}

theorem not_accepts_of_step {om om' : OrderMap} (h : om.step msg = some (lk, om'))
    (hne : lk.price % 50 = 0 → ¬ Uncrossed om'.live) : ¬ Accepts om msg := by
  rintro ⟨lk₂, om₂, h₂, htick, hu⟩
  rw [h] at h₂
  cases h₂
  exact hne htick hu

theorem not_accepts_of_none {om : OrderMap} (h : om.step msg = none) : ¬ Accepts om msg := by
  rintro ⟨lk₂, om₂, h₂, -⟩
  rw [h] at h₂
  cases h₂

end Book

section Downstream

variable {om om' : OrderMap} {msg : BookMsg} {lk : DownstreamOrderMsg} {l2 l2' : L2 cfg}
  {bbo bbo' : BBO}

/-- The best entries after a half reported the top of its new ladder. -/
theorem best_step (hf : BBOHalf) (hg : Follows ideal base om.live l2 bbo) (hm : msg.SharesPos)
    (h : om.step msg = some (lk, om')) (c : Bool) :
    best (setBest (setHalf bbo lk.isBuy hf) lk.isBuy
      ((ladder om'.live lk.isBuy).head?.map toEntry)) c = top om'.live c := by
  rw [best_setBest, best_setHalf]
  split_ifs with hc
  · rw [← hc, top_eq]
  · rw [hg.bests, top_eq, top_eq, ladder_step_other h hg.placed.positive hm hc]

/-- L2 and the BBO follow the live orders again once both have taken the message. -/
theorem Follows.step {hf : BBOHalf} {e : Option BBOEntry} (hg : Follows ideal base om.live l2 bbo)
    (hm : msg.SharesPos) (h : om.step msg = some (lk, om')) (hp : Placed cfg ideal base om'.live)
    (hl2 : l2'.ideal = ideal) (ht : Tracks base om'.live l2')
    (hbbo : bbo' = setBest (setHalf bbo lk.isBuy hf) lk.isBuy e)
    (hs : SameHalf (half bbo lk.isBuy) hf)
    (hh : HalfAt cfg.bboDepth hf (ladder om'.live lk.isBuy))
    (hbest : ∀ c, best bbo' c = top om'.live c) : Follows ideal base om'.live l2' bbo' where
  kindL2 := hl2
  placed := hp
  tracks := ht
  bests := hbest
  window c := by
    rw [hbbo, half_setBest, half_setHalf]
    split_ifs with hc
    · exact hc ▸ (hg.window lk.isBuy).of_sameHalf hs
    · exact hg.window c
  halves c := by
    rw [hbbo, half_setBest, half_setHalf]
    split_ifs with hc
    · exact hc ▸ hh
    · rw [ladder_step_other h hg.placed.positive hm hc]
      exact hg.halves c

/-- A half of an ideal book never misses an outside level. -/
theorem outside_le_of_ideal {k : ℕ} {hf : BBOHalf} {l : List (ℤ × ℤ)} (hid : hf.ideal = true)
    (hh : HalfAt k hf l) : hf.outsideShares ≤ hf.outsideSharesInRange := by
  rw [hh.outside, hh.inRange, volumeIn, List.filter_eq_self.2 fun x _ => ?_]
  simp [BBOHalf.inRange, hid]

/-- The refill at the end of a message. -/
theorem refill_spec {hf : BBOHalf} {e : Option BBOEntry} (last : ℤ) (l3 : L3 cfg)
    (hn : 2 ≤ cfg.bboDepth) (hg : Follows ideal base om.live l2 bbo) (hm : msg.SharesPos)
    (h : om.step msg = some (lk, om')) (hp : Placed cfg ideal base om'.live)
    (hl2 : l2'.ideal = ideal) (ht : Tracks base om'.live l2')
    (hbbo : bbo' = setBest (setHalf bbo lk.isBuy hf) lk.isBuy e)
    (hs : SameHalf (half bbo lk.isBuy) hf)
    (hh : HalfAt (cfg.bboDepth - 1) hf (ladder om'.live lk.isBuy))
    (hr : 0 < hf.outsideSharesInRange) (hbest : ∀ c, best bbo' c = top om'.live c) :
    ∃ b' : Book cfg, Book.refill ⟨l3, l2', bbo'⟩ ⟨(quote om'.live).bidEntry,
        (quote om'.live).offEntry, (quote om'.live).spread, true, lk.isBuy, last⟩ =
        (.ret (quote om'.live), b') ∧ Follows ideal base om'.live b'.l2 b'.bbo ∧ b'.l3 = l3 := by
  have hw := (hg.window lk.isBuy).of_sameHalf hs
  obtain ⟨x, hx, hxl, hc⟩ := exists_refill hp hw hh hr
  have hget : l2'.getUpdt lk.isBuy = .ok (toEntry x) :=
    getUpdt_spec (hl2.symm ▸ hp) ht hx (hl2.symm ▸ hc)
  obtain ⟨hf', hupdt, hs', hh'⟩ := half_processUpdt (by omega) hh hx ((hw.inRange_eq hp hxl).trans hc)
  have hhalf : half bbo' lk.isBuy = hf := by rw [hbbo, half_setBest, half_setHalf, if_pos rfl]
  have hbbo' : setHalf bbo' lk.isBuy hf' =
      setBest (setHalf bbo lk.isBuy hf') lk.isBuy e := by
    rw [hbbo]
    cases lk.isBuy <;> rfl
  refine ⟨⟨l3, l2', setHalf bbo' lk.isBuy hf'⟩, ?_, ?_, rfl⟩
  · simp only [Book.refill, if_true, hget, bbo_processUpdt, hhalf, hupdt, Except.map]
  · refine hg.step hm h hp hl2 ht hbbo' ⟨hs'.1.trans hs.1, hs'.2.1.trans hs.2.1,
      hs'.2.2.trans hs.2.2⟩ hh' fun c => ?_
    rw [best_setHalf]
    exact hbest c

/-- How L2 and the BBO answer a message that takes the orders to `d'`: with the quote of the orders
then live; or not at all, off the tick, past the near side of the window, for a book that would be
crossed, or where the level to be shown next is out of range. -/
inductive Downstream (ideal : Bool) (base : ℤ) (b : Book cfg) (lk : DownstreamOrderMsg)
    (d' : Orders) : Prop
  | ret (b' : Book cfg) (hout : b.downstream lk = (.ret (quote d'), b')) (hl3 : b'.l3 = b.l3)
    (htick : lk.price % 50 = 0) (hb : ¬ Beyond cfg ideal base lk)
    (hhalf : ∃ r, ((half b.bbo lk.isBuy).processMsg cfg lk).1 = .ret r)
    (hf : Follows ideal base d' b'.l2 b'.bbo)
  | tick (hout : (b.downstream lk).1 = .err ("(L2 MSG) " ++ "Invalid price not on tick increment."))
    (htick : lk.price % 50 ≠ 0)
  | window (e : Exn) (hout : (b.downstream lk).1 = .raise e) (he : WindowRaise e)
    (htick : lk.price % 50 = 0) (hb : Beyond cfg ideal base lk)
  | range (hout : (b.downstream lk).1 =
      .err ("(BBO) " ++ (sideText lk.isBuy ++ "No shares in range for updt.")))
    (htick : lk.price % 50 = 0) (hb : ¬ Beyond cfg ideal base lk)
    (hhalf : ((half b.bbo lk.isBuy).processMsg cfg lk).1.IsErr) (hid : ideal = false)
  | crossed (hout : (b.downstream lk).1 = .raise (.assertion "Spread should be positive."))
    (htick : lk.price % 50 = 0) (hb : ¬ Beyond cfg ideal base lk) (hu : ¬ Uncrossed d')

/-- The BBO stage and the refill, after L2 has taken the message. -/
theorem bbo_stage {b : Book cfg} (hn : 2 ≤ cfg.bboDepth)
    (hg : Follows ideal base om.live b.l2 b.bbo) (hm : msg.SharesPos)
    (h : om.step msg = some (lk, om')) (htick : lk.price % 50 = 0)
    (hb : ¬ Beyond cfg ideal base lk) (hl2 : l2'.ideal = ideal)
    (ht : Tracks base om'.live l2') (hmsg : b.l2.processMsg lk = (.ret (), l2')) :
    Downstream ideal base b lk om'.live := by
  obtain ⟨hf, hs, hstep⟩ := half_step h hg.placed.positive hm hn (hg.window lk.isBuy)
    (hg.halves lk.isBuy)
  have hplaced := hg.placed.step h hm htick hb
  have hbests := best_step hf hg hm h
  rcases hstep with ⟨hp, hh⟩ | ⟨last, hp, hh, hr⟩ | ⟨hp, hh, hr, ho⟩
  · have hret : ∃ r, ((half b.bbo lk.isBuy).processMsg cfg lk).1 = .ret r := ⟨_, congrArg Prod.fst hp⟩
    rcases finish_spec hbests lk ⟨(ladder om'.live lk.isBuy).head?.map toEntry, false, 0⟩ with
      ⟨hu, hfin⟩ | ⟨hu, hfin⟩
    · refine .ret ⟨b.l3, l2', setBest (setHalf b.bbo lk.isBuy hf) lk.isBuy
        ((ladder om'.live lk.isBuy).head?.map toEntry)⟩ ?_ rfl htick hb hret
        (hg.step hm h (hplaced hu) hl2 ht rfl hs hh hbests)
      simp only [Book.downstream, hmsg, bbo_processMsg, hp, hfin, Book.refill, Bool.false_eq_true,
        if_false]
    · refine .crossed ?_ htick hb hu
      simp only [Book.downstream, hmsg, bbo_processMsg, hp, hfin]
  · have hret : ∃ r, ((half b.bbo lk.isBuy).processMsg cfg lk).1 = .ret r := ⟨_, congrArg Prod.fst hp⟩
    rcases finish_spec hbests lk ⟨(ladder om'.live lk.isBuy).head?.map toEntry, true, last⟩ with
      ⟨hu, hfin⟩ | ⟨hu, hfin⟩
    · obtain ⟨b', hb', hg', hl3⟩ := refill_spec last b.l3 hn hg hm h (hplaced hu) hl2 ht rfl
        hs hh hr hbests
      refine .ret b' ?_ hl3 htick hb hret hg'
      simp only [Book.downstream, hmsg, bbo_processMsg, hp, hfin]
      exact hb'
    · refine .crossed ?_ htick hb hu
      simp only [Book.downstream, hmsg, bbo_processMsg, hp, hfin]
  · refine .range ?_ htick hb ?_ ?_
    · simp only [Book.downstream, hmsg, bbo_processMsg, hp]
    · rw [hp]
      exact Outcome.isErr_err _
    · by_contra hid
      have := outside_le_of_ideal
        (((hg.window lk.isBuy).of_sameHalf hs).ideal_eq.trans (by simpa using hid)) hh
      omega

/-- **One message at L2 and the BBO.** -/
theorem downstream_spec {b : Book cfg} (hbase : base % 50 = 0) (hn : 2 ≤ cfg.bboDepth)
    (hg : Follows ideal base om.live b.l2 b.bbo) (hm : msg.SharesPos)
    (h : om.step msg = some (lk, om')) : Downstream ideal base b lk om'.live := by
  rcases l2_processMsg h hbase (hg.kindL2.symm ▸ hg.placed) hm hg.tracks with
    ⟨htick, hp2⟩ | ⟨htick, hb, e, hp2, he⟩ | ⟨htick, hb, l2, hp2, hl2, ht⟩
  · refine .tick ?_ htick
    simp only [Book.downstream, hp2]
  · refine .window e ?_ he htick (hg.kindL2 ▸ hb)
    simp only [Book.downstream, hp2]
  · exact bbo_stage hn hg hm h htick (hg.kindL2 ▸ hb) (hl2.trans hg.kindL2) ht hp2

end Downstream

section Book

variable {msg : BookMsg} {b : Book cfg}

/-- **One message at a good book.** -/
theorem book_processMsg (hbase : base % 50 = 0) (hn : 2 ≤ cfg.bboDepth) (hg : Good ideal base b)
    (hm : msg.SharesPos) : Answers ideal base (orderMap b.l3) msg (b.processMsg msg) := by
  rcases l3_processMsg b.l3 msg with ⟨lk, l3, hp, h, hk, -⟩ | ⟨c, hp, h⟩ | ⟨e, hp, he, h⟩
  · have hdown : b.processMsg msg = Book.downstream ⟨l3, b.l2, b.bbo⟩ lk := by
      simp only [Book.processMsg, hp]
    rw [hdown]
    rcases downstream_spec (b := ⟨l3, b.l2, b.bbo⟩) hbase hn hg.follows hm h with
      ⟨b', hout, hl3, htick, -, -, hf⟩ | ⟨hout, htick⟩ | ⟨e, hout, he, -, hb⟩ |
        ⟨hout, -, -, -, hid⟩ | ⟨hout, -, -, hu⟩
    · dsimp only at hl3
      rw [← hl3] at h hk hf
      exact Or.inl ⟨b', lk, by rw [hl3]; exact hout, hf.good (hk.trans hg.kindL3), h, htick⟩
    · exact Or.inr ⟨Or.inl ⟨_, hout⟩, fun _ => not_accepts_of_step h fun h0 => absurd h0 htick⟩
    · refine Or.inr ⟨Or.inr ⟨e, hout, Or.inr (Or.inl he)⟩, fun hid => ?_⟩
      rw [hid] at hb
      exact absurd hb.1 (by decide)
    · refine Or.inr ⟨Or.inl ⟨_, hout⟩, fun hid' => ?_⟩
      rw [hid] at hid'
      cases hid'
    · exact Or.inr ⟨Or.inr ⟨_, hout, Or.inr (Or.inr rfl)⟩, fun _ => not_accepts_of_step h fun _ => hu⟩
  · refine Or.inr ⟨Or.inl ⟨"(L3) " ++ c, ?_⟩, fun _ => not_accepts_of_none h⟩
    simp only [Book.processMsg, hp]
  · refine Or.inr ⟨Or.inr ⟨e, ?_, Or.inl he⟩, fun hid => ?_⟩
    · simp only [Book.processMsg, hp]
    · cases hs : (orderMap b.l3).step msg with
      | none => exact not_accepts_of_none hs
      | some out => exact absurd (hasRoom_of_ideal (hg.kindL3.trans hid) _) (h _ _ hs).2

end Book

end ItchOrderBook.Book
