import ItchOrderBook.Book.PriceMemory
import ItchOrderBook.Book.Runs
import ItchOrderBook.Ref.Consistency

/-!
# The consistency check passes

In a good book the levels reconstructed from the orders of L3 are those that L2 holds, and the entries
reconstructed from them those of the BBO that are in range. To list its levels the bounded memory inverts
its hash, so the table of hashes belongs to the invariant (`HasLut`).
-/

namespace ItchOrderBook.Book

open Ref

variable {cfg : Params} {ideal : Bool} {base p : ℤ}

/-! ### The table of hashes stays -/

/-- The table of hashes is that of the window. -/
def HasLut (base : ℤ) : L2Store cfg → Prop
  | .ideal _ => True
  | .hw m => m.inverseHashLut = windowLut cfg base

section Lut

variable {st st' : L2Store cfg} {k v : ℤ}

theorem HasLut.setItem (h : HasLut base st) (hs : st.setItem k v = .ok st') : HasLut base st' := by
  cases st with
  | ideal d =>
    cases hs
    trivial
  | hw m =>
    rw [L2Store.setItem, L2Memory.setItem] at hs
    cases hk : priceHash cfg k with
    | error e =>
      rw [hk] at hs
      cases hs
    | ok i =>
      rw [hk] at hs
      cases hs
      exact h

theorem HasLut.delItem (h : HasLut base st) (hs : st.delItem k = .ok st') : HasLut base st' := by
  cases st with
  | ideal d =>
    rw [L2Store.delItem] at hs
    split_ifs at hs
    cases hs
    trivial
  | hw m =>
    rw [L2Store.delItem, L2Memory.delItem] at hs
    cases hget : m.getItem k with
    | error e =>
      rw [hget] at hs
      cases hs
    | ok old =>
      rw [hget] at hs
      dsimp only at hs
      split_ifs at hs
      · cases hs
      · have hset : HasLut base (.hw m) → HasLut base st' := fun hm => hm.setItem hs
        exact hset h

end Lut

section Keeps

variable {s : L2 cfg}

theorem HasLut.increase (h : HasLut base s.memory) (isBuy : Bool) (shares price : ℤ) :
    HasLut base (s.increase isBuy shares price).2.memory := by
  unfold L2.increase
  split
  · exact h
  · dsimp only
    split
    · exact h
    · split
      · exact h
      · rename_i hset
        rw [memory_addLevel]
        exact h.setItem hset

theorem HasLut.decrease (h : HasLut base s.memory) (isBuy : Bool) (shares price : ℤ) :
    HasLut base (s.decrease isBuy shares price).2.memory := by
  unfold L2.decrease
  split
  · exact h
  · exact h
  · split
    · exact h
    · rename_i old _
      dsimp only
      split
      · exact h
      · rename_i memory hmem
        have hnew : HasLut base memory := by
          split_ifs at hmem
          · exact h.delItem hmem
          · exact h.setItem hmem
        split_ifs
        · rw [memory_removeLevel]
          exact hnew
        · exact hnew
        · exact hnew

theorem HasLut.l2 (h : HasLut base s.memory) (msg : DownstreamOrderMsg) :
    HasLut base (s.processMsg msg).2.memory := by
  unfold L2.processMsg
  split_ifs
  · exact h
  · exact h
  · exact h
  · exact h
  · exact h
  · cases msg.msgType
    · exact h.increase _ _ _
    · exact h.increase _ _ _
    · exact h.decrease _ _ _
    · exact h.decrease _ _ _
  · exact h

theorem refill_l2 (b : Book cfg) (res : BBOResult) : (b.refill res).2.l2 = b.l2 := by
  unfold Book.refill
  dsimp only
  split_ifs
  · split
    · rfl
    · split <;> rfl
  · rfl

/-- **No message changes the table of hashes.** -/
theorem HasLut.book {b : Book cfg} (h : HasLut base b.l2.memory) (msg : BookMsg) :
    HasLut base (b.processMsg msg).2.l2.memory := by
  unfold Book.processMsg
  rcases b.l3.processMsg msg with ⟨lk | c | e, l3⟩
  · have hl2 := h.l2 lk
    dsimp only
    unfold Book.downstream
    dsimp only
    rcases hp : b.l2.processMsg lk with ⟨_ | c | e, l2⟩
    · rw [hp] at hl2
      dsimp only
      rcases b.bbo.processMsg cfg lk with ⟨res | c | e, bbo⟩
      · dsimp only
        rw [refill_l2]
        exact hl2
      · exact hl2
      · exact hl2
    · rw [hp] at hl2
      exact hl2
    · rw [hp] at hl2
      exact hl2
  · exact h
  · exact h

end Keeps

/-! ### The levels of L2 -/

/-- `dict(memory)` of a memory that holds the shares `t`. -/
theorem toDict_of_holds {t : ℤ → ℤ} {st : L2Store cfg} {d : PriceDict} (hbase : base % 50 = 0)
    (h : Holds base t st) (hlut : HasLut base st) (hnonneg : ∀ p, 0 ≤ t p)
    (htick : ∀ p, t p ≠ 0 → p % 50 = 0)
    (hd : ∀ p, d.lookup p = if covered cfg (isIdealL2 st) base p ∧ t p ≠ 0 then some (t p) else none) :
    st.toDict = .ok d := by
  cases st with
  | ideal d' =>
    have hdd : d' = d := by
      apply Finmap.ext_lookup
      intro p
      rw [h p, hd p]
      by_cases ht : t p = 0 <;> simp [ht, isIdealL2, covered]
    rw [L2Store.toDict, hdd]
  | hw m =>
    have hpresents : Presents base m d := by
      constructor
      · intro p v hv
        rw [hd p] at hv
        split_ifs at hv with hc
        cases hv
        have := hnonneg p
        exact ⟨⟨htick p hc.2, hc.1⟩, by omega⟩
      · intro p hp
        rw [h p hp.1 hp.2, hd p]
        by_cases ht : t p = 0
        · simp [ht]
        · have hc : covered cfg (isIdealL2 (.hw m)) base p = true := hp.2
          simp [ht, hc]
      · exact hlut
    exact hpresents.toDict hbase

/-- A sum of selected values. -/
theorem sum_map_filter {α : Type} (P : α → Prop) [DecidablePred P] (f : α → ℤ) (s : Multiset α) :
    ((s.filter P).map f).sum = (s.map fun x => if P x then f x else 0).sum := by
  induction s using Multiset.induction with
  | empty => rfl
  | cons x s ih =>
    by_cases hx : P x
    · rw [Multiset.filter_cons_of_pos s hx]
      simp [ih, hx]
    · rw [Multiset.filter_cons_of_neg s hx]
      simp [ih, hx]

/-- The shares at a price, of both sides, are a sum over the orders. -/
theorem sharesAt_eq_sum (d : Orders) (p : ℤ) :
    sharesAt d p = (d.entries.map fun e => if e.2.price = p then e.2.shares else 0).sum := by
  rw [sharesAt, levelShares, levelShares, tally, tally, ← Multiset.sum_map_add]
  congr 1
  refine Multiset.map_congr rfl fun e _ => ?_
  cases e.2.isBuy <;> simp

theorem sharesAt_ne_zero_iff {d : Orders} (hd : Positive d) :
    sharesAt d p ≠ 0 ↔ ∃ i e, d.lookup i = some e ∧ e.price = p := by
  have htrue : 0 ≤ levelShares d true p := levelShares_nonneg hd
  have hfalse : 0 ≤ levelShares d false p := levelShares_nonneg hd
  constructor
  · intro h
    have hside : levelShares d true p ≠ 0 ∨ levelShares d false p ≠ 0 := by
      unfold sharesAt at h
      omega
    rcases hside with hs | hs
    · obtain ⟨i, e, he, -, hp⟩ := mem_levelPrices.1 ((mem_levelPrices_iff hd).2 hs)
      exact ⟨i, e, he, hp⟩
    · obtain ⟨i, e, he, -, hp⟩ := mem_levelPrices.1 ((mem_levelPrices_iff hd).2 hs)
      exact ⟨i, e, he, hp⟩
  · rintro ⟨i, e, he, rfl⟩
    have hle := shares_le_levelShares hd he
    have hpos := hd i e he
    unfold sharesAt
    cases hb : e.isBuy <;> rw [hb] at hle <;> omega

section Good

variable {b : Book cfg}

theorem isKept_eq (hg : Good ideal base b) (entry : L3Entry) :
    b.isKept entry = covered cfg ideal base entry.price := by
  rw [Book.isKept, covered, hg.kindL2, hg.tracks.priceBase, hg.tracks.priceMax]

/-- A good book is initialised. -/
theorem pricesUnset_eq (hg : Good ideal base b) : b.pricesUnset = false := by
  rw [Book.pricesUnset, hg.tracks.initialized]
  exact Bool.and_false _

/-- The covered prices with live orders, and their shares. -/
theorem lookup_orderLevels (hg : Good ideal base b) (p : ℤ) :
    b.orderLevels.lookup p =
      if covered cfg ideal base p ∧ sharesAt (liveOrders b) p ≠ 0 then some (sharesAt (liveOrders b) p)
      else none := by
  have hmem : p ∈ (((liveOrders b).entries.map Sigma.snd).filter fun e => b.isKept e).map L3Entry.price ↔
      covered cfg ideal base p ∧ sharesAt (liveOrders b) p ≠ 0 := by
    have hpos : Positive (liveOrders b) := hg.placed.positive
    rw [sharesAt_ne_zero_iff hpos]
    simp only [Multiset.mem_map, Multiset.mem_filter, isKept_eq hg]
    constructor
    · rintro ⟨e, ⟨⟨x, hx, rfl⟩, hc⟩, rfl⟩
      exact ⟨hc, x.1, x.2, Finmap.lookup_eq_some_iff.2 hx, rfl⟩
    · rintro ⟨hc, i, e, he, rfl⟩
      exact ⟨e, ⟨⟨⟨i, e⟩, Finmap.lookup_eq_some_iff.1 he, rfl⟩, hc⟩, rfl⟩
  have hgroup : b.orderLevels = group L3Entry.price L3Entry.shares
      (((liveOrders b).entries.map Sigma.snd).filter fun e => b.isKept e) := rfl
  rw [hgroup, lookup_group]
  by_cases hc : covered cfg ideal base p ∧ sharesAt (liveOrders b) p ≠ 0
  · rw [if_pos (hmem.2 hc), if_pos hc]
    congr 1
    rw [Multiset.filter_filter, sum_map_filter, Multiset.map_map, sharesAt_eq_sum]
    congr 1
    refine Multiset.map_congr rfl fun e _ => ?_
    by_cases he : e.2.price = p
    · have hkept : b.isKept e.2 = true := by rw [isKept_eq hg, he, hc.1]
      simp [he, hkept]
    · simp [he]
  · rw [if_neg fun h => hc (hmem.1 h), if_neg hc]

/-- **The reconstruction of L2** is L2. -/
theorem toDict_eq (hbase : base % 50 = 0) (hg : Good ideal base b) (hlut : HasLut base b.l2.memory) :
    b.l2Reconstruct = b.l2.memory.toDict := by
  rw [Book.l2Reconstruct, pricesUnset_eq hg, if_neg fun h => Bool.false_ne_true h.1, eq_comm]
  refine toDict_of_holds hbase hg.tracks.memory hlut (sharesAt_nonneg hg.placed.positive) (fun p hp => ?_)
    fun p => ?_
  · obtain ⟨i, e, he, rfl⟩ := (sharesAt_ne_zero_iff hg.placed.positive).1 hp
    exact hg.placed.tick i e he
  · rw [hg.tracks.kind, hg.kindL2]
    exact lookup_orderLevels hg p

/-! ### The entries of the BBO -/

/-- If what is selected comes first, the first ones may be taken before or after the selection. -/
theorem take_filter {α : Type} {P : α → Bool} {l : List α} (h : l.Pairwise fun x y => P y = true → P x = true)
    (n : ℕ) : (l.filter P).take n = (l.take n).filter P := by
  induction l generalizing n with
  | nil => simp
  | cons x l ih =>
    obtain ⟨hx, hl⟩ := List.pairwise_cons.1 h
    cases n with
    | zero => simp
    | succ n =>
      rw [List.take_succ_cons]
      by_cases hp : P x = true
      · rw [List.filter_cons_of_pos hp, List.filter_cons_of_pos hp, List.take_succ_cons, ih hl]
      · -- nothing behind is selected
        have hnil : l.filter P = [] := List.filter_eq_nil_iff.2 fun y hy hy' => hp (hx y hy hy')
        have hnil' : (l.take n).filter P = [] :=
          List.filter_eq_nil_iff.2 fun y hy hy' => hp (hx y (List.mem_of_mem_take hy) hy')
        rw [List.filter_cons_of_neg hp, List.filter_cons_of_neg hp, hnil, hnil', List.take_nil]

/-- The covered prices among the best ones are the best prices of L2. -/
theorem l2Prices_eq (hg : Good ideal base b) (c : Bool) :
    b.l2Prices c = ((sortPrices c (levelPrices (liveOrders b) c)).take cfg.bboDepth).filter
      fun p => covered cfg ideal base p := by
  have hprices : b.l2Prices c =
      (sortPrices c (b.l2.levels c)).take (min (sortPrices c (b.l2.levels c)).length cfg.bboDepth) := by
    rw [length_sortPrices]
    cases c <;> rfl
  have hlevels : b.l2.levels c =
      (levelPrices (liveOrders b) c).filter fun p => covered cfg ideal base p = true := by
    rw [hg.tracks.levels, hg.kindL2]
    rfl
  rw [hprices, min_comm, ← List.take_take, List.take_length, hlevels, sortPrices_filter]
  refine take_filter ?_ _
  refine (pairwise_sortPrices c _).imp_of_mem fun {p q} hp _ hpq hq => ?_
  exact covered_of_better hg.placed (mem_sortPrices.1 hp) hpq hq

/-- The entries in range are those at covered prices. -/
theorem bboEntries_eq (hg : Good ideal base b) (c : Bool) : b.bboEntries c =
    .ok (((bookSide (liveOrders b) c).take cfg.bboDepth).filter fun e => covered cfg ideal base e.price) := by
  have hentries : (half b.bbo c).entries = (bookSide (liveOrders b) c).take cfg.bboDepth :=
    hg.consistent.entries c
  have hform : b.bboEntries c =
      .ok (if ideal then (half b.bbo c).entries
        else if c then (half b.bbo c).entries.filter fun e => decide (e.price ≥ base)
        else (half b.bbo c).entries.filter fun e => decide (e.price ≤ windowMax cfg base)) := by
    unfold Book.bboEntries
    dsimp only
    rw [pricesUnset_eq hg, if_neg fun h => Bool.false_ne_true h.1, hg.kindL2, hg.tracks.priceBase,
      hg.tracks.priceMax]
    cases ideal <;> cases c <;> rfl
  rw [hform, hentries]
  refine congrArg Except.ok ?_
  cases hid : ideal with
  | true =>
    rw [if_pos rfl, eq_comm, List.filter_eq_self]
    exact fun e _ => rfl
  | false =>
    -- the orders of a side are in range on the side near the top
    have hside : ∀ e ∈ (bookSide (liveOrders b) c).take cfg.bboDepth,
        if c then e.price ≤ windowMax cfg base else base ≤ e.price := by
      intro e he
      obtain ⟨x, hx, rfl⟩ := List.mem_map.1 (List.mem_of_mem_take he)
      obtain ⟨i, o, ho, rfl, hprice⟩ := mem_levelPrices.1 (mem_levelPrices_of_ladder hx)
      have hin := hg.placed.inside i o ho hid
      rw [hprice] at hin
      exact hin
    rw [if_neg Bool.false_ne_true]
    cases c with
    | true =>
      rw [if_pos rfl]
      refine List.filter_congr fun e he => ?_
      have := hside e he
      rw [if_pos rfl] at this
      simp [covered, this]
    | false =>
      rw [if_neg Bool.false_ne_true]
      refine List.filter_congr fun e he => ?_
      have := hside e he
      rw [if_neg Bool.false_ne_true] at this
      simp [covered, this]

theorem assertSide_ok (hg : Good ideal base b) (c : Bool) : b.assertSide c = .ok () := by
  have hget : ∀ p ∈ b.l2Prices c, (b.l2.memory.getItem p).map (fun shares => (⟨shares, p⟩ : BBOEntry)) =
      .ok (toEntry (p, levelShares (liveOrders b) c p)) := by
    intro p hp
    rw [l2Prices_eq hg, List.mem_filter] at hp
    obtain ⟨hmem, hc⟩ := hp
    have hlevel : p ∈ levelPrices (orderMap b.l3).live c := mem_sortPrices.1 (List.mem_of_mem_take hmem)
    have hat : sharesAt (orderMap b.l3).live p = levelShares (orderMap b.l3).live c p :=
      sharesAt_of_mem hg.placed hlevel
    have hne : sharesAt (orderMap b.l3).live p ≠ 0 := by
      rw [hat]
      exact (mem_levelPrices_iff hg.placed.positive).1 hlevel
    obtain ⟨i, e, he, -, hprice⟩ := mem_levelPrices.1 hlevel
    have htick : p % 50 = 0 := hprice ▸ hg.placed.tick i e he
    rw [((hg.consistent.memory p htick hc).2 hne), show sharesAt (liveOrders b) p = _ from hat]
    rfl
  have hrec : b.bboReconstruct c =
      .ok ((b.l2Prices c).map fun p => toEntry (p, levelShares (liveOrders b) c p)) := mapM_ok hget
  rw [Book.assertSide, hrec, bboEntries_eq hg]
  dsimp only
  rw [if_pos]
  rw [l2Prices_eq hg, bookSide, ladder, List.map_map, ← List.map_take, List.filter_map]
  rfl

/-- **The check passes** for every good book. -/
theorem assertConsistentState_ok (hbase : base % 50 = 0) (hg : Good ideal base b)
    (hlut : HasLut base b.l2.memory) : b.assertConsistentState = .ok () := by
  have hrec : b.l2Reconstruct = .ok b.orderLevels := by
    rw [Book.l2Reconstruct, pricesUnset_eq hg, if_neg fun h => Bool.false_ne_true h.1]
  rw [Book.assertConsistentState, ← toDict_eq hbase hg hlut, hrec]
  dsimp only
  rw [if_neg (not_not.2 rfl), assertSide_ok hg true]
  exact assertSide_ok hg false

end Good

/-- The price base of an initialised size-limited book is on a tick. -/
theorem tick_of_initParams {b : Book cfg} (h : (Book.new cfg false).initParams base = .ok b) :
    base % 50 = 0 := by
  cases hm : (L2Memory.empty : L2Memory cfg).initParams base with
  | error e =>
    simp only [Book.initParams, Book.new, L2.initParams, L2.new, hm, Bool.false_eq_true, if_false] at h
    cases h
  | ok m => exact (memory_initParams.1 hm).1

end ItchOrderBook.Book
