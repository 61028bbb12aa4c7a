import ItchOrderBook.Book.Refusals
import ItchOrderBook.Pipeline.HalfStep

/-!
# The half of the RTL shows the levels of its side

The state of a reference half is determined by the levels of its side and by how many of them it shows
(`shown`). A half of the RTL that holds this state answers a message as the levels tell: it shows the
best ones again, or asks for the next one, or raises the error that this one is out of range
(`message_half`). The shares of all orders fit in its words (`fits_of_card`).
-/

namespace ItchOrderBook.Pipeline

open Book (HalfAt HalfStep HalfWindow OrderMap Orders Placed Positive SameHalf ladder levelShares
  sharesAt toEntry windowMax)
open Ref (BBOHalf BookMsg DownstreamOrderMsg Params)
open Rtl (BboWord DecBook HalfIn HalfRegs)

/-! ### The state of a half -/

/-- A half of the window that counts nothing. -/
def blankHalf (base : ℕ) (c : Bool) : BBOHalf :=
  ⟨c, false, if c then base else windowMax {} base, [], 0, 0⟩

/-- The half that shows the best `k` levels of a side, and counts the others. -/
def shown (base k : ℕ) (d : Orders) (c : Bool) : BBOHalf :=
  { blankHalf base c with
    entries := ((ladder d c).take k).map toEntry
    outsideShares := volume ((ladder d c).drop k)
    outsideSharesInRange := volumeIn (blankHalf base c).inRange ((ladder d c).drop k) }

section Shown

variable {base k : ℕ} {d : Orders} {c : Bool}

theorem shown_same : SameHalf (blankHalf base c) (shown base k d c) := ⟨rfl, rfl, rfl⟩

theorem shown_window : HalfWindow {} false base c (shown base k d c) := ⟨rfl, rfl, rfl⟩

theorem shown_halfAt : HalfAt k (shown base k d c) (ladder d c) where
  entries := rfl
  outside := rfl
  inRange := by
    rw [shown_same.inRange]
    rfl

/-- The levels determine the half. -/
theorem eq_shown {h : BBOHalf} (hw : HalfWindow {} false base c h) (hh : HalfAt k h (ladder d c)) :
    h = shown base k d c := by
  obtain ⟨h1, h2, h3⟩ := hw
  have hsame : SameHalf (blankHalf base c) h := ⟨h1, h2, h3⟩
  have hrange := hh.inRange
  rw [hsame.inRange] at hrange
  calc h = ⟨h.isBuy, h.ideal, h.priceBound, h.entries, h.outsideSharesInRange, h.outsideShares⟩ := rfl
    _ = shown base k d c := by
      rw [h1, h2, h3, hh.entries, hh.outside, hrange]
      rfl

/-- The half does not depend on the orders of the other side. -/
theorem shown_congr {d' : Orders} (h : ladder d' c = ladder d c) : shown base k d' c = shown base k d c := by
  unfold shown
  rw [h]

end Shown

/-! ### The size of the counters -/

/-- The shares of every live order fit in a message. -/
def Small (d : Orders) : Prop := ∀ i e, d.lookup i = some e → e.shares < 2 ^ 32

/-- The shares of each side fit in a word. -/
structure Fits (d : Orders) : Prop where
  volume (c : Bool) : volume (ladder d c) < 2 ^ 64
  sharesAt (p : ℤ) : sharesAt d p < 2 ^ 64

section Size

variable {om om' : OrderMap} {msg : BookMsg} {lk : DownstreamOrderMsg} {d : Orders} {c : Bool}

theorem small_empty : Small ∅ := by
  intro i e he
  cases he

/-- Messages of the RTL leave orders that fit in messages. -/
theorem Small.step (hs : Small om.live) (h : om.step msg = some (lk, om')) (hpos : 1 ≤ lk.shares)
    (hlt : lk.shares < 2 ^ 32) : Small om'.live := by
  intro i e he
  rcases OrderMap.step_cases h with ⟨-, -, hl⟩ | ⟨-, e₀, he₀, -, -, -, hl⟩
  · rw [hl] at he
    by_cases hi : i = msg.orderId
    · subst hi
      rw [Finmap.lookup_insert] at he
      cases he
      exact hlt
    · rw [Finmap.lookup_insert_of_ne _ hi] at he
      exact hs i e he
  · rw [hl, Book.leftover] at he
    have := hs _ e₀ he₀
    by_cases hi : i = msg.orderId
    · subst hi
      split_ifs at he
      · rw [Finmap.lookup_erase] at he
        cases he
      · rw [Finmap.lookup_insert] at he
        cases he
        dsimp only
        omega
    · split_ifs at he
      · rw [Finmap.lookup_erase_ne hi] at he
        exact hs i e he
      · rw [Finmap.lookup_insert_of_ne _ hi] at he
        exact hs i e he

/-- The shares of the live orders of one side. -/
def sideShares (d : Orders) (c : Bool) : ℤ := tally (fun _ e => if e.isBuy = c then e.shares else 0) d

theorem sideShares_le (hs : Small d) : sideShares d c ≤ d.keys.card * 2 ^ 32 := by
  have hle := tally_le_card (d := d) (b := (2 ^ 32 : ℤ))
    (h := fun _ e => if e.isBuy = c then e.shares else 0) fun i e he => by
      have := hs i e he
      split_ifs <;> omega
  rw [nsmul_eq_mul] at hle
  exact hle

theorem levelShares_le (hd : Positive d) (p : ℤ) : levelShares d c p ≤ sideShares d c :=
  tally_le_tally fun i e he => by
    have := hd i e he
    split_ifs <;> first | omega | tauto

/-- The levels of a side have no more shares than its orders. -/
theorem volume_ladder_le (hd : Positive d) : volume (ladder d c) ≤ sideShares d c := by
  have hsum : volume (ladder d c) = ∑ p ∈ Book.levelPrices d c, levelShares d c p := by
    have hsort : (Book.sortPrices c (Book.levelPrices d c) : Multiset ℤ) =
        (Book.levelPrices d c).val := by
      unfold Book.sortPrices
      split_ifs <;> exact Finset.sort_eq _ _
    calc volume (ladder d c)
        = ((Book.sortPrices c (Book.levelPrices d c)).map (levelShares d c)).sum := by
          rw [volume, ladder, List.map_map]
          rfl
      _ = ((Book.levelPrices d c).val.map (levelShares d c)).sum := by
          rw [← hsort, Multiset.map_coe, Multiset.sum_coe]
  have hswap : ∑ p ∈ Book.levelPrices d c, levelShares d c p = tally (fun _ e =>
      ∑ p ∈ Book.levelPrices d c, if e.isBuy = c ∧ e.price = p then e.shares else 0) d :=
    sum_tally _ _ _
  rw [hsum, hswap]
  refine tally_le_tally fun i e he => ?_
  have := hd i e he
  by_cases hc : e.isBuy = c
  · simp only [hc, true_and, if_true, Finset.sum_ite_eq]
    split_ifs <;> omega
  · simp [hc]

/-- **The shares fit** for as many orders as the order table has places for. -/
theorem fits_of_card (hd : Positive d) (hs : Small d) (hcard : d.keys.card ≤ 2 ^ 14 + 8) : Fits d := by
  have hside : ∀ c, sideShares d c < 2 ^ 47 := by
    intro c
    have := sideShares_le (c := c) hs
    have hcard' : (d.keys.card : ℤ) ≤ 2 ^ 14 + 8 := by exact_mod_cast hcard
    omega
  refine ⟨fun c => ?_, fun p => ?_⟩
  · have := volume_ladder_le (c := c) hd
    have := hside c
    omega
  · have := levelShares_le (c := true) hd p
    have := levelShares_le (c := false) hd p
    have := hside true
    have := hside false
    rw [sharesAt]
    omega

end Size

/-! ### One message -/

/-- The refill flags of a half are up to date. -/
structure Flagged (q : HalfRegs) (h : BBOHalf) : Prop where
  updtAbleAll : q.updtAbleAll = decide (0 < h.outsideShares)
  updtAbleInRange : q.updtAbleInRange = decide (0 < h.outsideSharesInRange)

/-- What a half does with a message that takes the orders from `d` to `d'`: it shows the best levels, or
one less and asks for the next one, which was the one past those it showed, or raises its error. -/
inductive HalfNext (base : ℕ) (d d' : Orders) (c : Bool) (q : HalfRegs) (isAdd error : Bool) : Prop
  | full (hh : Holds c q (shown base 2 d' c)) (hupd : q.updting = false) (hreq : q.updtReq = false)
    (herr : error = false)
  | short (hh : Holds c q (shown base 1 d' c)) (hupd : q.updting = true) (hreq : q.updtReq = true)
    (herr : error = false) (hr : 0 < (shown base 1 d' c).outsideSharesInRange)
    (ha : isAdd = false) (hnext : (ladder d' c)[1]? = (ladder d c)[2]?)
  | refused (herr : error = true)

section Message

variable {base k : ℕ} {om om' : OrderMap} {msg : BookMsg} {d : Orders} {c : Bool} {q : HalfRegs}
  {h h' : BBOHalf} {i : HalfIn}

theorem ladder_pos (hd : Positive d) : ∀ x ∈ ladder d c, 0 < x.2 := fun _ => Book.pos_of_mem_ladder hd

theorem volume_drop_nonneg (hd : Positive d) : 0 ≤ volume ((ladder d c).drop k) :=
  Book.volume_nonneg fun x hx => ladder_pos hd x (List.mem_of_mem_drop hx)

theorem volumeIn_bounds {P : ℤ → Bool} {l : List (ℤ × ℤ)} (hl : ∀ x ∈ l, 0 < x.2) :
    0 ≤ volumeIn P l ∧ volumeIn P l ≤ volume l := by
  induction l with
  | nil => exact ⟨le_rfl, le_rfl⟩
  | cons x l ih =>
    have hx := hl x List.mem_cons_self
    have := ih fun y hy => hl y (List.mem_cons_of_mem _ hy)
    rw [volumeIn_cons, volume_cons]
    split_ifs <;> omega

theorem shown_le (hd : Positive d) :
    (shown base k d c).outsideSharesInRange ≤ (shown base k d c).outsideShares :=
  (volumeIn_bounds fun x hx => ladder_pos hd x (List.mem_of_mem_drop hx)).2

theorem noWrap_of_fits (hd : Positive d) (hf : Fits d) (hh : HalfAt k h (ladder d c)) : NoWrap h := by
  have hsplit : volume (ladder d c) = volume ((ladder d c).take k) + volume ((ladder d c).drop k) := by
    rw [← volume_append, List.take_append_drop]
  have htake : ∀ x ∈ (ladder d c).take k, x.2 ≤ volume ((ladder d c).take k) := by
    intro x hx
    obtain ⟨pre, post, hl⟩ := List.append_of_mem hx
    have hpos : ∀ y ∈ (ladder d c).take k, 0 < y.2 := fun y hy => ladder_pos hd y (List.mem_of_mem_take hy)
    rw [hl] at hpos ⊢
    have h1 := Book.volume_nonneg fun y hy => hpos y (List.mem_append_left _ hy)
    have h2 := Book.volume_nonneg fun y hy =>
      hpos y (List.mem_append_right _ (List.mem_cons_of_mem x hy))
    rw [volume_append, volume_cons]
    omega
  have hnn : 0 ≤ volume ((ladder d c).take k) :=
    Book.volume_nonneg fun x hx => ladder_pos hd x (List.mem_of_mem_take hx)
  have hdrop := volume_drop_nonneg (k := k) (c := c) hd
  have hrange := volumeIn_bounds (P := h.inRange) (l := (ladder d c).drop k)
    fun x hx => ladder_pos hd x (List.mem_of_mem_drop hx)
  have hfit := hf.volume c
  refine ⟨fun e he => ?_, ?_, ?_⟩
  · rw [hh.entries] at he
    obtain ⟨x, hx, rfl⟩ := List.mem_map.1 he
    have := htake x hx
    show x.2 < 2 ^ 64
    omega
  · rw [hh.outside]
    omega
  · rw [hh.inRange]
    omega

/-- A half never takes more shares off its counters than they hold. -/
theorem recorded_of_halfStep (hd : Positive d) (hside : (orderMsg i.decBook).isBuy = h.isBuy)
    (hs : HalfStep {} h (orderMsg i.decBook) (ladder d c) h') : Recorded {} h (orderMsg i.decBook) := by
  rintro ⟨hscan, hlen⟩ ha
  have hp := processMsg_eq {} hside
  rw [hscan] at hp
  dsimp only at hp
  rw [BBOHalf.outsideMsg, if_neg (not_lt.2 hlen), ha, if_neg Bool.false_ne_true] at hp
  have hat : ∀ {k}, HalfAt k h' (ladder d c) → h' = h.addOutside (-(orderMsg i.decBook).shares)
      (orderMsg i.decBook).price → (orderMsg i.decBook).shares ≤ h.outsideShares ∧
        (h.inRange (orderMsg i.decBook).price = true →
          (orderMsg i.decBook).shares ≤ h.outsideSharesInRange) := by
    intro k hh he
    have hall := hh.outside
    have hin := hh.inRange
    have hrange := volumeIn_bounds (P := h'.inRange) (l := (ladder d c).drop k)
      fun x hx => ladder_pos hd x (List.mem_of_mem_drop hx)
    have hdrop := volume_drop_nonneg (k := k) (c := c) hd
    rw [← hall, he, BBOHalf.addOutside] at hdrop
    rw [← hin, he, BBOHalf.addOutside] at hrange
    dsimp only at hdrop hrange
    refine ⟨by omega, fun hr => ?_⟩
    rw [if_pos hr] at hrange
    omega
  rcases hs with ⟨hp', hh⟩ | ⟨last, hp', hh, -⟩ | ⟨hp', hh, -⟩
  · exact hat hh (congrArg Prod.snd (hp'.symm.trans hp))
  · exact hat hh (congrArg Prod.snd (hp'.symm.trans hp))
  · exact hat hh (congrArg Prod.snd (hp'.symm.trans hp))

/-- The entry that a message depletes. -/
theorem scan_depletion {b : Bool} {lk : DownstreamOrderMsg} {es : List Ref.BBOEntry} {k idx : ℕ}
    (hs : BBOHalf.scan b lk k es = .ok (.depletion idx)) :
    lk.msgType.isAdd = false ∧ ∃ e ∈ es, e.price = lk.price ∧ e.shares = lk.shares := by
  obtain ⟨ha, pre, post, he, -⟩ := (Book.scan_depletion_iff b lk es k).1 ⟨idx, hs⟩
  refine ⟨ha, ⟨lk.shares, lk.price⟩, ?_, rfl, rfl⟩
  rw [he]
  exact List.mem_append_right pre List.mem_cons_self

/-- A message that requests a refill takes away one of the levels shown. -/
theorem request_next {r : Ref.BBOHalfResult} {lk : DownstreamOrderMsg}
    (h : om.step msg = some (lk, om')) (hd : Positive om.live) (hm : msg.SharesPos)
    (hr : ((shown base 2 om.live lk.isBuy).processMsg {} lk).1 = .ret r) (hreq : r.updtReq = true) :
    lk.msgType.isAdd = false ∧ (ladder om'.live lk.isBuy)[1]? = (ladder om.live lk.isBuy)[2]? := by
  obtain ⟨ha, e, he, hprice, hshares⟩ : lk.msgType.isAdd = false ∧
      ∃ e ∈ ((ladder om.live lk.isBuy).take 2).map toEntry, e.price = lk.price ∧
        e.shares = lk.shares := by
    have hside : ¬ lk.isBuy ≠ (shown base 2 om.live lk.isBuy).isBuy := not_not.2 rfl
    rw [BBOHalf.processMsg, if_neg hside] at hr
    split at hr
    · cases hr
    · cases hr
      rw [updtReq_result_false] at hreq
      cases hreq
    · rename_i hscan
      exact scan_depletion hscan
    · cases hr
      rw [updtReq_result_false] at hreq
      cases hreq
    · cases hr
      rw [updtReq_result_false] at hreq
      cases hreq
  obtain ⟨pre, post, hpre, -, hl, hl'⟩ := Book.ladder_step_same h hd hm
  obtain ⟨x, hx, rfl⟩ := List.mem_map.1 he
  have hlevel : levelShares om.live lk.isBuy lk.price = lk.shares := by
    obtain ⟨-, hlev⟩ := ((Book.isLadder_ladder hd).mem_iff x.1 x.2).1 (List.mem_of_mem_take hx)
    rw [← hprice, ← hshares]
    exact hlev
  have hpos := OrderMap.step_shares_pos h hd hm
  rw [hlevel, rung_of_ne (by omega), List.append_assoc, List.singleton_append] at hl
  rw [hlevel, Book.change, ha, if_neg Bool.false_ne_true, add_neg_cancel, rung_zero,
    List.append_nil] at hl'
  -- the level is one of the first two, as those before it are better
  have hlen : pre.length < 2 := by
    by_contra hlong
    rw [hl, take_append_of_le (by omega)] at hx
    exact irrefl (r := Book.Better lk.isBuy) lk.price (hprice ▸ hpre x (List.mem_of_mem_take hx))
  rw [hl, hl']
  refine ⟨ha, ?_⟩
  obtain hnil | ⟨x', rfl⟩ : pre = [] ∨ ∃ x', pre = [x'] := by
    rw [← List.length_eq_zero_iff, ← List.length_eq_one_iff]
    omega
  · rw [hnil]
    rfl
  · rfl

/-- **A message at a half that shows the best levels.** The flags matter only to a message that takes
shares. -/
theorem message_half (h : om.step msg = some (orderMsg i.decBook, om')) (hd : Positive om.live)
    (hm : msg.SharesPos) (hf : Fits om'.live) (hi : Message i) (hside : i.decBook.isBuy = c)
    (hh : Holds c q (shown base 2 om.live c)) (hupd : q.updting = false)
    (hflags : i.decBook.isAdd = false → Flagged q (shown base 2 om.live c)) :
    HalfNext base om.live om'.live c (HalfRegs.next c q i) i.decBook.isAdd
        (HalfRegs.out c q i).error ∧
      ((HalfRegs.out c q i).error = true ↔
        ((shown base 2 om.live c).processMsg {} (orderMsg i.decBook)).1.IsErr) := by
  subst hside
  have hd' := OrderMap.step_positive h hd hm
  obtain ⟨h', hsame, hstep⟩ : ∃ h', SameHalf (shown base 2 om.live i.decBook.isBuy) h' ∧
      HalfStep {} (shown base 2 om.live i.decBook.isBuy) (orderMsg i.decBook)
        (ladder om'.live i.decBook.isBuy) h' :=
    Book.half_step (h := h) hd hm le_rfl shown_window shown_halfAt
  have hwin : HalfWindow {} false base i.decBook.isBuy h' := shown_window.of_sameHalf hsame
  have hside' : (orderMsg i.decBook).isBuy = (shown base 2 om.live i.decBook.isBuy).isBuy := rfl
  have hc : i.decBook.isAdd = false → Corresponds i.decBook.isBuy q (shown base 2 om.live _) :=
    fun ha => ⟨⟨hh, hupd, (hflags ha).updtAbleAll, (hflags ha).updtAbleInRange⟩, shown_le hd⟩
  have hrec := recorded_of_halfStep hd' hside' hstep
  have hagrees : (∀ e, ((shown base 2 om.live i.decBook.isBuy).processMsg {}
        (orderMsg i.decBook)).1 ≠ .raise e) →
      NoWrap ((shown base 2 om.live i.decBook.isBuy).processMsg {} (orderMsg i.decBook)).2 →
      Agrees {} i.decBook.isBuy q (shown base 2 om.live i.decBook.isBuy) i :=
    fun hnr hfit => message_agrees rfl hh hupd hc hi hnr hrec hfit
  rcases hstep with ⟨hp, hat⟩ | ⟨last, hp, hat, hr⟩ | ⟨hp, hat, -⟩
  · obtain ⟨herr, hreq, hupd', hholds⟩ := hagrees (by rw [hp]; exact fun e h => nomatch h)
      (by rw [hp]; exact noWrap_of_fits hd' hf hat)
    refine ⟨?_, herr⟩
    rw [hp] at herr hreq hholds
    rw [eq_shown hwin hat] at hholds
    have hno : (HalfRegs.next i.decBook.isBuy q i).updtReq = false := by
      rw [← Bool.not_eq_true, hreq]
      rintro ⟨r, hr, hr'⟩
      cases hr
      cases hr'
    refine .full hholds (hupd'.trans hno) hno ?_
    rw [← Bool.not_eq_true, herr]
    exact Ref.Outcome.isErr_ret _
  · obtain ⟨herr, hreq, hupd', hholds⟩ := hagrees (by rw [hp]; exact fun e h => nomatch h)
      (by rw [hp]; exact noWrap_of_fits hd' hf hat)
    refine ⟨?_, herr⟩
    rw [hp] at herr hreq hholds
    have heq := eq_shown hwin hat
    rw [heq] at hholds hr
    have hyes : (HalfRegs.next i.decBook.isBuy q i).updtReq = true := hreq.2 ⟨_, rfl, rfl⟩
    obtain ⟨ha, hnext⟩ := request_next h hd hm (congrArg Prod.fst hp) rfl
    rw [isAdd_orderMsg] at ha
    refine .short hholds (hupd'.trans hyes) hyes ?_ hr ha hnext
    rw [← Bool.not_eq_true, herr]
    exact Ref.Outcome.isErr_ret _
  · obtain ⟨herr, -⟩ := hagrees (by rw [hp]; exact fun e h => nomatch h)
      (by rw [hp]; exact noWrap_of_fits hd' hf hat)
    refine ⟨.refused ?_, herr⟩
    rw [herr, hp]
    exact Ref.Outcome.isErr_err _

end Message

end ItchOrderBook.Pipeline
