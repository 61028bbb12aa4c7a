import ItchOrderBook.Lib.Tally
import ItchOrderBook.Lib.Ladder
import ItchOrderBook.Ref.Structs
import Mathlib.Tactic.Ring
import Mathlib.Tactic.SplitIfs

/-!
# The live orders and their price levels

What the order book is about, without its tables: a finite map from order ids to live orders,
changed by order messages (`OrderMap.step`), and for each side the price levels of the live
orders, best first, with the shares live at each (`bookSide`).

`levelShares_step` is the conservation law that ties the two: an accepted message changes the
shares of one level of one side, by the shares it carries downstream.
-/

namespace ItchOrderBook.Book

open Ref

/-- Live orders by id. -/
abbrev Orders := Finmap fun _ : ℕ => L3Entry

/-- The live orders, and the side of the last deleted one. -/
structure OrderMap where
  live : Orders
  lastDelIsBuy : Option Bool

/-- What remains of an order after `shares` of it are gone. -/
def leftover (d : Orders) (orderId : ℕ) (e : L3Entry) (shares : ℤ) : Orders :=
  if e.shares = shares then d.erase orderId
  else d.insert orderId ⟨e.isBuy, e.shares - shares, e.price⟩

/-- The effect of an order message: the message passed downstream and the orders then live, or
`none` when the message does not fit the live orders. -/
def OrderMap.step (om : OrderMap) : BookMsg → Option (DownstreamOrderMsg × OrderMap)
  | .add _ i b s p =>
    if i ∈ om.live then none else some (⟨.add, b, s, p⟩, { om with live := om.live.insert i ⟨b, s, p⟩ })
  | .reduce _ i s =>
    match om.live.lookup i with
    | none => none
    | some e =>
      if e.shares < s then none
      else some (⟨.reduce, e.isBuy, s, e.price⟩, { om with live := leftover om.live i e s })
  | .delete _ i =>
    match om.live.lookup i with
    | none => none
    | some e => some (⟨.delete, e.isBuy, e.shares, e.price⟩, ⟨om.live.erase i, some e.isBuy⟩)
  | .replace _ i s p =>
    if i ∈ om.live then none
    else om.lastDelIsBuy.map fun b => (⟨.replace, b, s, p⟩, { om with live := om.live.insert i ⟨b, s, p⟩ })

/-- Every live order has at least one share. -/
def Positive (d : Orders) : Prop := ∀ i e, d.lookup i = some e → 1 ≤ e.shares

/-! ### Price levels -/

/-- The shares of the live orders of one side at one price. -/
def levelShares (d : Orders) (isBuy : Bool) (price : ℤ) : ℤ :=
  tally (fun _ e => if e.isBuy = isBuy ∧ e.price = price then e.shares else 0) d

/-- The prices of the live orders of one side. -/
def levelPrices (d : Orders) (isBuy : Bool) : Finset ℤ :=
  ((d.entries.filter fun e => e.2.isBuy = isBuy).map fun e => e.2.price).toFinset

/-- `price` is nearer to the top of its side than `q`. -/
def Better (isBuy : Bool) (price q : ℤ) : Prop := if isBuy then q < price else price < q

/-- Prices in the order of their side, best first. -/
def sortPrices (isBuy : Bool) (s : Finset ℤ) : List ℤ :=
  if isBuy then descending s else ascending s

/-- The price levels of one side, best first, each with its shares. -/
def ladder (d : Orders) (isBuy : Bool) : List (ℤ × ℤ) :=
  (sortPrices isBuy (levelPrices d isBuy)).map fun p => (p, levelShares d isBuy p)

/-- A rung as an entry of the BBO. -/
def toEntry (x : ℤ × ℤ) : BBOEntry := ⟨x.2, x.1⟩

/-- The price levels of one side as BBO entries, best first. -/
def bookSide (d : Orders) (isBuy : Bool) : List BBOEntry := (ladder d isBuy).map toEntry

instance (isBuy : Bool) : DecidableRel (Better isBuy) := fun p q => by
  unfold Better; infer_instance

instance (isBuy : Bool) : IsStrictTotalOrder ℤ (Better isBuy) where
  trichotomous p q := by cases isBuy <;> simp only [Better] <;> grind
  irrefl p := by cases isBuy <;> simp [Better]
  trans p q r := by cases isBuy <;> simp only [Better] <;> grind

theorem mem_sortPrices {isBuy : Bool} {s : Finset ℤ} {p : ℤ} : p ∈ sortPrices isBuy s ↔ p ∈ s := by
  unfold sortPrices
  split_ifs <;> exact Finset.mem_sort _

theorem pairwise_sortPrices (isBuy : Bool) (s : Finset ℤ) :
    (sortPrices isBuy s).Pairwise (Better isBuy) := by
  cases isBuy
  · exact (Finset.sortedLT_sort s).pairwise
  · exact (Finset.sortedGT_sort s).pairwise

theorem sortPrices_filter (isBuy : Bool) (s : Finset ℤ) (P : ℤ → Bool) :
    sortPrices isBuy (s.filter fun p => P p) = (sortPrices isBuy s).filter P := by
  refine eq_of_pairwise_of_mem_iff irrefl (fun _ _ _ => IsTrans.trans _ _ _)
    (pairwise_sortPrices _ _) ((pairwise_sortPrices _ _).filter _) fun p => ?_
  rw [mem_sortPrices, Finset.mem_filter, List.mem_filter, mem_sortPrices]

theorem length_sortPrices (isBuy : Bool) (s : Finset ℤ) :
    (sortPrices isBuy s).length = s.card := by
  unfold sortPrices
  split_ifs <;> exact Finset.length_sort _

theorem mem_levelPrices {d : Orders} {isBuy : Bool} {p : ℤ} :
    p ∈ levelPrices d isBuy ↔ ∃ i e, d.lookup i = some e ∧ e.isBuy = isBuy ∧ e.price = p := by
  simp only [levelPrices, Multiset.mem_toFinset, Multiset.mem_map, Multiset.mem_filter]
  constructor
  · rintro ⟨⟨i, e⟩, ⟨he, hb⟩, hp⟩
    exact ⟨i, e, Finmap.lookup_eq_some_iff.2 he, by simpa using hb, hp⟩
  · rintro ⟨i, e, he, hb, hp⟩
    exact ⟨⟨i, e⟩, ⟨Finmap.lookup_eq_some_iff.1 he, by simpa using hb⟩, hp⟩

section Positive

variable {d : Orders} (hd : Positive d) {isBuy : Bool} {p : ℤ}

include hd

theorem levelShares_summand_nonneg (b : Bool) (q : ℤ) (i : ℕ) (e : L3Entry)
    (he : d.lookup i = some e) :
    (0 : ℤ) ≤ if e.isBuy = b ∧ e.price = q then e.shares else 0 := by
  have := hd i e he
  split_ifs <;> omega

theorem levelShares_nonneg : 0 ≤ levelShares d isBuy p :=
  tally_nonneg (levelShares_summand_nonneg hd isBuy p)

/-- An order's shares are part of its level's. -/
theorem shares_le_levelShares {i : ℕ} {e : L3Entry} (he : d.lookup i = some e) :
    e.shares ≤ levelShares d e.isBuy e.price := by
  have := le_tally (levelShares_summand_nonneg hd e.isBuy e.price) he
  rw [if_pos ⟨rfl, rfl⟩] at this
  exact this

/-- The prices with live orders are those with live shares. -/
theorem mem_levelPrices_iff : p ∈ levelPrices d isBuy ↔ levelShares d isBuy p ≠ 0 := by
  rw [mem_levelPrices]
  constructor
  · rintro ⟨i, e, he, rfl, rfl⟩
    have := shares_le_levelShares hd he
    have := hd i e he
    omega
  · intro h
    by_contra hne
    push Not at hne
    refine h (tally_eq_zero fun i e he => if_neg fun hc => ?_)
    exact hne i e he hc.1 hc.2

/-- The levels of a side form a ladder of its shares. -/
theorem isLadder_ladder : IsLadder (Better isBuy) (levelShares d isBuy) (ladder d isBuy) where
  sorted := List.pairwise_map.2 (pairwise_sortPrices _ _)
  mem_iff q m := by
    simp only [ladder, List.mem_map, mem_sortPrices, mem_levelPrices_iff hd, Prod.mk.injEq]
    constructor
    · rintro ⟨_, h, rfl, rfl⟩; exact ⟨h, rfl⟩
    · rintro ⟨h, rfl⟩; exact ⟨q, h, rfl, rfl⟩

end Positive

/-! ### The effect of a message on the levels -/

/-- The signed change a downstream message makes to its level. -/
def change (msg : DownstreamOrderMsg) : ℤ := if msg.msgType.isAdd then msg.shares else -msg.shares

/-- The change a downstream message makes to the level of a side and price. -/
def changeAt (msg : DownstreamOrderMsg) (isBuy : Bool) (price : ℤ) : ℤ :=
  if msg.isBuy = isBuy ∧ msg.price = price then change msg else 0

variable {om om' : OrderMap} {msg : BookMsg} {lk : DownstreamOrderMsg}

theorem levelShares_insert {d : Orders} {i : ℕ} (h : i ∉ d) (e : L3Entry) (isBuy : Bool) (p : ℤ) :
    levelShares (d.insert i e) isBuy p =
      (if e.isBuy = isBuy ∧ e.price = p then e.shares else 0) + levelShares d isBuy p :=
  tally_insert_of_notMem _ _ h

theorem levelShares_erase {d : Orders} {i : ℕ} {e : L3Entry} (h : d.lookup i = some e)
    (isBuy : Bool) (p : ℤ) :
    levelShares d isBuy p =
      (if e.isBuy = isBuy ∧ e.price = p then e.shares else 0) + levelShares (d.erase i) isBuy p :=
  tally_erase _ _ h

theorem levelShares_leftover {d : Orders} {i : ℕ} {e : L3Entry} (h : d.lookup i = some e) (s : ℤ)
    (isBuy : Bool) (p : ℤ) :
    levelShares d isBuy p =
      (if e.isBuy = isBuy ∧ e.price = p then s else 0) + levelShares (leftover d i e s) isBuy p := by
  unfold leftover
  by_cases hs : e.shares = s
  · rw [if_pos hs, levelShares_erase h, hs]
  · rw [if_neg hs]
    have hl := tally_insert_of_lookup (fun (_ : ℕ) (e : L3Entry) =>
      if e.isBuy = isBuy ∧ e.price = p then e.shares else 0) d
      (w := ⟨e.isBuy, e.shares - s, e.price⟩) h
    dsimp only at hl
    unfold levelShares
    split_ifs at hl ⊢ <;> omega

/-- **What an accepted message does.** It adds an order, or takes shares off a live one. -/
theorem OrderMap.step_cases (h : om.step msg = some (lk, om')) :
    (lk.msgType.isAdd = true ∧ msg.orderId ∉ om.live ∧
      om'.live = om.live.insert msg.orderId ⟨lk.isBuy, lk.shares, lk.price⟩) ∨
    (lk.msgType.isAdd = false ∧ ∃ e, om.live.lookup msg.orderId = some e ∧ e.isBuy = lk.isBuy ∧
      e.price = lk.price ∧ lk.shares ≤ e.shares ∧
      om'.live = leftover om.live msg.orderId e lk.shares) := by
  cases msg with
  | add l i b s q =>
    simp only [step] at h
    split_ifs at h with hi
    cases h
    exact Or.inl ⟨rfl, hi, rfl⟩
  | reduce l i s =>
    simp only [step] at h
    split at h
    · cases h
    · rename_i e he
      split_ifs at h with hs
      cases h
      exact Or.inr ⟨rfl, e, he, rfl, rfl, not_lt.1 hs, rfl⟩
  | delete l i =>
    simp only [step] at h
    split at h
    · cases h
    · rename_i e he
      cases h
      exact Or.inr ⟨rfl, e, he, rfl, rfl, le_rfl, (if_pos rfl).symm⟩
  | replace l i s q =>
    simp only [step] at h
    split_ifs at h with hi
    obtain ⟨b, -, hb⟩ := Option.map_eq_some_iff.1 h
    cases hb
    exact Or.inl ⟨rfl, hi, rfl⟩

/-- **Conservation.** An accepted message changes the level it names downstream, and no other. -/
theorem levelShares_step (h : om.step msg = some (lk, om')) (isBuy : Bool) (p : ℤ) :
    levelShares om'.live isBuy p = levelShares om.live isBuy p + changeAt lk isBuy p := by
  unfold changeAt change
  rcases OrderMap.step_cases h with ⟨ha, hi, hl⟩ | ⟨ha, e, he, hb, hp, -, hl⟩
  · rw [hl, levelShares_insert hi, ha]
    simp only [if_true]
    ring
  · have := levelShares_leftover he lk.shares isBuy p
    rw [hl, ha]
    rw [hb, hp] at this
    simp only [Bool.false_eq_true, if_false]
    split_ifs at this ⊢ <;> omega

/-- A property of side and price holds of all live orders after a message when it held before,
and holds of the level the message adds to. -/
theorem OrderMap.step_forall {P : Bool → ℤ → Prop} (h : om.step msg = some (lk, om'))
    (hold : ∀ i e, om.live.lookup i = some e → P e.isBuy e.price)
    (hadd : lk.msgType.isAdd = true → P lk.isBuy lk.price) (i : ℕ) (e : L3Entry)
    (he : om'.live.lookup i = some e) : P e.isBuy e.price := by
  rcases step_cases h with ⟨ha, -, hl⟩ | ⟨-, e₀, he₀, -, -, -, hl⟩
  · rw [hl] at he
    by_cases hi : i = msg.orderId
    · subst hi; rw [Finmap.lookup_insert] at he; cases he; exact hadd ha
    · rw [Finmap.lookup_insert_of_ne _ hi] at he; exact hold i e he
  · rw [hl] at he
    unfold leftover at he
    split_ifs at he
    · by_cases hi : i = msg.orderId
      · subst hi; rw [Finmap.lookup_erase] at he; cases he
      · rw [Finmap.lookup_erase_ne hi] at he; exact hold i e he
    · by_cases hi : i = msg.orderId
      · subst hi; rw [Finmap.lookup_insert] at he; cases he; exact hold _ e₀ he₀
      · rw [Finmap.lookup_insert_of_ne _ hi] at he; exact hold i e he

/-- The message passed downstream has the shares of the message, or those of the order it
deletes, and the price of the message if that has one. -/
def OrderMap.Carries (om : OrderMap) (lk : DownstreamOrderMsg) : BookMsg → Prop
  | .add _ _ b s p => lk.isBuy = b ∧ lk.shares = s ∧ lk.price = p
  | .reduce _ _ s => lk.shares = s
  | .delete _ i => ∃ e, om.live.lookup i = some e ∧ lk.shares = e.shares
  | .replace _ _ s p => lk.shares = s ∧ lk.price = p

theorem OrderMap.step_fields (h : om.step msg = some (lk, om')) :
    lk.msgType = msg.msgType ∧ om.Carries lk msg := by
  cases msg with
  | add l i b s p =>
    simp only [step] at h
    split_ifs at h
    cases h
    exact ⟨rfl, rfl, rfl, rfl⟩
  | reduce l i s =>
    simp only [step] at h
    split at h
    · cases h
    · split_ifs at h
      cases h
      exact ⟨rfl, rfl⟩
  | delete l i =>
    simp only [step] at h
    split at h
    · cases h
    · rename_i e he
      cases h
      exact ⟨rfl, e, he, rfl⟩
  | replace l i s p =>
    simp only [step] at h
    split_ifs at h
    obtain ⟨b, -, hb⟩ := Option.map_eq_some_iff.1 h
    cases hb
    exact ⟨rfl, rfl, rfl⟩

/-- The shares passed downstream are positive. -/
theorem OrderMap.step_shares_pos (h : om.step msg = some (lk, om')) (hd : Positive om.live)
    (hm : msg.SharesPos) : 1 ≤ lk.shares := by
  have hf := (step_fields h).2
  cases msg with
  | add l i b s p => exact hf.2.1 ▸ hm
  | reduce l i s => exact hf ▸ hm
  | delete l i =>
    obtain ⟨e, he, hsh⟩ := hf
    exact hsh ▸ hd i e he
  | replace l i s p => exact hf.1 ▸ hm

theorem OrderMap.step_positive (h : om.step msg = some (lk, om')) (hd : Positive om.live)
    (hm : msg.SharesPos) : Positive om'.live := by
  intro i e he
  have hlk := step_shares_pos h hd hm
  rcases step_cases h with ⟨-, -, hl⟩ | ⟨-, e₀, he₀, -, -, hle, hl⟩
  · rw [hl] at he
    by_cases hi : i = msg.orderId
    · subst hi; rw [Finmap.lookup_insert] at he; cases he; exact hlk
    · rw [Finmap.lookup_insert_of_ne _ hi] at he; exact hd i e he
  · rw [hl] at he
    unfold leftover at he
    split_ifs at he with hs
    · by_cases hi : i = msg.orderId
      · subst hi; rw [Finmap.lookup_erase] at he; cases he
      · rw [Finmap.lookup_erase_ne hi] at he; exact hd i e he
    · by_cases hi : i = msg.orderId
      · subst hi; rw [Finmap.lookup_insert] at he; cases he; dsimp only; omega
      · rw [Finmap.lookup_insert_of_ne _ hi] at he; exact hd i e he

/-- A message that takes shares takes them from a live order, hence from a level that has them. -/
theorem OrderMap.step_le_levelShares (h : om.step msg = some (lk, om')) (hd : Positive om.live)
    (ha : lk.msgType.isAdd = false) : lk.shares ≤ levelShares om.live lk.isBuy lk.price := by
  rcases step_cases h with ⟨ha', -⟩ | ⟨-, e, he, hb, hp, hle, -⟩
  · rw [ha] at ha'; cases ha'
  · rw [← hb, ← hp]
    exact hle.trans (shares_le_levelShares hd he)

end ItchOrderBook.Book
