import ItchOrderBook.Pipeline.Refill
import ItchOrderBook.Rtl.Book

/-!
# The book behind the order table, cycle by cycle

A half that asks for a level has it four cycles after its message: the request passes to the search,
from there to the memories, and comes back as the refill word (`Stage`). Meanwhile `book` holds back the
order that follows a delete. `Phase` says what the registers hold some cycles after a message. It is kept
by a cycle without a message (`Phase.idle`), and a message that comes when it may begins it anew
(`Phase.message`, `Phase.hold`).
-/

namespace ItchOrderBook.Pipeline

open Book (OrderMap Orders Placed Positive ladder sharesAt toEntry)
open Ref (BBOEntry BBOHalf BookMsg Params)
open Rtl (BboWord BookIn BookRegs DecBook HalfIn HalfRegs L2Regs SearchRegs priceAddr)

/-! ### Both sides under one name -/

/-- The half of a side. -/
def halfOf (q : BookRegs) (c : Bool) : HalfRegs := if c then q.bbo.bid else q.bbo.off

/-- The inputs of the half of a side. -/
def halfIn (q : BookRegs) (i : BookIn) (c : Bool) : HalfIn :=
  if c then (q.bboIn i).bid else (q.bboIn i).off

/-- The search registers of a side. -/
def searchOf (r : L2Regs) (c : Bool) : SearchRegs := if c then r.bid else r.off

/-- The ordering that the lookup tables give for the second best price of a side. -/
def aimOf (r : L2Regs) (c : Bool) : BitVec 11 :=
  if c then r.lut.priceAddrToOrdering.douta else r.lut.priceAddrToOrdering.doutb

/-- The refill word of a side. -/
def wordOf (r : L2Regs) (c : Bool) : BboWord :=
  ⟨(searchOf r c).updtReq2, r.lut.orderingToPrice.doutb, r.odRam.ram.doutb⟩

section Sides

variable (q : BookRegs) (i : BookIn) (c : Bool)

theorem halfOf_next : halfOf (q.next i) c = HalfRegs.next c (halfOf q c) (halfIn q i c) := by
  cases c <;> rfl

theorem searchOf_next : searchOf (q.next i).l2 c =
    ⟨(halfOf q c).updtReq, (searchOf q.l2 c).updtReq, aimOf q.l2 c,
      localSearch c q.l2.existArr (searchOf q.l2 c).updtOrdering,
      globalSearch c (searchOf q.l2 c).localEncArr⟩ := by
  cases c <;> rfl

theorem halfIn_initV : (halfIn q i c).initV = i.initV := by
  cases c <;> rfl

theorem halfIn_updt : (halfIn q i c).updt = wordOf q.l2 c := by
  cases c <;> rfl

/-- A half sees the messages of its side. -/
theorem halfIn_decBook : (halfIn q i c).decBook =
    { q.bboDecBook with valid := q.bboDecBook.valid && (q.bboDecBook.isBuy == c) } := by
  cases c
  · have : (!q.bboDecBook.isBuy) = (q.bboDecBook.isBuy == false) := by
      cases q.bboDecBook.isBuy <;> rfl
    rw [← this]
    rfl
  · have : q.bboDecBook.isBuy = (q.bboDecBook.isBuy == true) := by
      cases q.bboDecBook.isBuy <;> rfl
    conv_rhs => rw [← this]
    rfl

theorem error_eq : (q.bbo.out (q.bboIn i)).error =
    ((HalfRegs.out true (halfOf q true) (halfIn q i true)).error ||
      (HalfRegs.out false (halfOf q false) (halfIn q i false)).error) := rfl

/-- The lookup tables are read at the price of the refill word, or else at the second best price; the
first port serves the messages before the bids. -/
theorem aimOf_next {base : ℕ} (hc : Config base q.l2) : aimOf (q.next i).l2 c =
    q.l2.lut.priceAddrToOrdering.mem (if c && q.lookup.valid then priceAddr q.lookup.price else
      priceAddr (if (wordOf q.l2 c).valid then (wordOf q.l2 c).price else (halfOf q c).arr1.price)) := by
  have hlut := (hc.lut_next (q.l2In i)).1
  cases c
  · exact congrArg (fun t => t.doutb) hlut
  · exact congrArg (fun t => t.douta) hlut

end Sides

/-! ### The stages of a refill -/

/-- Where the request for the next level of a side is. -/
inductive Stage
  | rest
  | asked (c : Bool)
  | sought (c : Bool)
  | filled (c : Bool)
  deriving DecidableEq

namespace Stage

/-- The stage after a cycle. -/
def next : Stage → Stage
  | rest => rest
  | asked c => sought c
  | sought c => filled c
  | filled _ => rest

/-- The side that waits for a level. -/
def side : Stage → Option Bool
  | rest => none
  | asked c => some c
  | sought c => some c
  | filled c => some c

/-- `updt_ing_q`. -/
def busy : Stage → Bool
  | rest => false
  | asked _ => false
  | sought _ => true
  | filled _ => true

/-- The number of levels that the half of a side shows. -/
def depth (s : Stage) (c : Bool) : ℕ := if s.side = some c then 1 else 2

theorem depth_side {s : Stage} {c : Bool} (h : s.side = some c) : s.depth c = 1 := if_pos h

theorem depth_other {s : Stage} {c c' : Bool} (h : s.side = some c') (hc : c' ≠ c) : s.depth c = 2 :=
  if_neg fun h' => hc (Option.some.inj (h.symm.trans h'))

/-- The cycles after its message in which a request is at a stage. -/
def At (n : ℕ) : Stage → Prop
  | rest => True
  | asked _ => n = 1
  | sought _ => n = 2
  | filled _ => n = 3

theorem At.next {n : ℕ} {s : Stage} (h : s.At n) : s.next.At (n + 1) := by
  cases s with
  | rest => trivial
  | filled c => trivial
  | _ c => exact congrArg (· + 1) h

theorem At.eq_rest {n : ℕ} {s : Stage} (h : s.At n) (hn : 4 ≤ n) : s = rest := by
  cases s with
  | rest => rfl
  | _ c =>
    have : n ≤ 3 := by
      simp only [At] at h
      omega
    omega

/-- A request is back in the third cycle. -/
theorem At.eq_filled {n : ℕ} {s : Stage} (h : s.At n) (hn : 3 ≤ n) (hs : s ≠ rest) :
    n = 3 ∧ ∃ c, s = filled c := by
  cases s with
  | rest => exact absurd rfl hs
  | filled c => exact ⟨h, c, rfl⟩
  | _ c =>
    have : n ≤ 2 := by
      simp only [At] at h
      omega
    omega

end Stage

/-- The signals of a request at a stage. -/
structure Signals (s : Stage) (q : BookRegs) : Prop where
  updtReq (c : Bool) : (halfOf q c).updtReq = decide (s = .asked c)
  updting (c : Bool) : (halfOf q c).updting = decide (s.side = some c)
  sought (c : Bool) : (searchOf q.l2 c).updtReq = decide (s = .sought c)
  filled (c : Bool) : (searchOf q.l2 c).updtReq2 = decide (s = .filled c)
  updtIng : q.updtIng = s.busy

section Signals

variable {s : Stage} {q : BookRegs} {i : BookIn}

/-- A half in a cycle without a message: the refill word ends its wait. -/
theorem half_next_idle (c : Bool) {h : HalfRegs} {j : HalfIn} (hv : j.decBook.valid = false) :
    (HalfRegs.next c h j).updtReq = false ∧
      (HalfRegs.next c h j).updting = (!j.updt.valid && h.updting) ∧
      (HalfRegs.next c h j).arr0 = h.arr0 := by
  cases hu : j.updt.valid <;> simp [HalfRegs.next, HalfRegs.onMsg, HalfRegs.onUpdt, hv, hu]

theorem halfIn_idle (hb : q.bboDecBook.valid = false) (c : Bool) :
    (halfIn q i c).decBook.valid = false := by
  rw [halfIn_decBook]
  exact congrArg (fun b => b && (q.bboDecBook.isBuy == c)) hb

theorem updtIngNext_eq (hs : Signals s q) : q.updtIngNext i =
    if s.side.any fun c => decide (s = .filled c) then false
      else if s.side.any fun c => decide (s = .asked c) then true else s.busy := by
  have hbid : q.l2.bidUpdt.valid = decide (s = .filled true) := hs.filled true
  have hoff : q.l2.offUpdt.valid = decide (s = .filled false) := hs.filled false
  have hreq : (q.bbo.out (q.bboIn i)).bidUpdtReq = decide (s = .asked true) := hs.updtReq true
  have hreq' : (q.bbo.out (q.bboIn i)).offUpdtReq = decide (s = .asked false) := hs.updtReq false
  rw [BookRegs.updtIngNext, hbid, hoff, hreq, hreq', hs.updtIng]
  cases s with
  | rest => rfl
  | _ c => cases c <;> rfl

/-- A request goes on by one stage. -/
theorem Signals.next (hs : Signals s q) (hb : q.bboDecBook.valid = false) :
    Signals s.next (q.next i) where
  updtReq c := by
    rw [halfOf_next, (half_next_idle c (halfIn_idle hb c)).1]
    cases s <;> rfl
  updting c := by
    rw [halfOf_next, (half_next_idle c (halfIn_idle hb c)).2.1, halfIn_updt, wordOf, hs.filled,
      hs.updting]
    cases s with
    | rest => rfl
    | _ c' => cases c <;> cases c' <;> rfl
  sought c := by
    rw [searchOf_next]
    dsimp only
    rw [hs.updtReq]
    cases s <;> simp [Stage.next]
  filled c := by
    rw [searchOf_next]
    dsimp only
    rw [hs.sought]
    cases s <;> simp [Stage.next]
  updtIng := by
    have hnext : (q.next i).updtIng = q.updtIngNext i := rfl
    rw [hnext, updtIngNext_eq hs]
    cases s <;> simp [Stage.next, Stage.side, Stage.busy]

end Signals

/-! ### What a refill carries -/

/-- The level `x` at place `k` of the window is the second one of a side. -/
structure IsSecond (base : ℕ) (d : Orders) (c : Bool) (x : ℤ × ℤ) (k : ℕ) : Prop where
  level : (ladder d c)[1]? = some x
  place : k < 2048
  price : x.1 = base + 50 * k

/-- What is found of the level asked for at each stage. -/
def Fetch (base : ℕ) (d : Orders) (q : BookRegs) : Stage → Prop
  | .rest => True
  | .asked c => ∃ x k, IsSecond base d c x k ∧
      globalSearch c (searchOf q.l2 c).localEncArr = BitVec.ofNat 11 k
  | .sought c => ∃ x k, IsSecond base d c x k ∧ (searchOf q.l2 c).enc = BitVec.ofNat 11 k
  | .filled c => ∃ x k, IsSecond base d c x k ∧ (wordOf q.l2 c).price = levelPrice base k ∧
      ((wordOf q.l2 c).shares.toNat : ℤ) = x.2

section Fetch

variable {base n : ℕ} {d : Orders} {s : Stage} {q : BookRegs} {i : BookIn}

theorem lookupOrdering_eq {c : Bool} (hs : Signals (.sought c) q) :
    q.l2.lookupOrdering = (searchOf q.l2 c).enc := by
  cases c with
  | true =>
    have hbid : q.l2.bid.updtReq = true := hs.sought true
    rw [L2Regs.lookupOrdering, hbid]
    rfl
  | false =>
    have hbid : q.l2.bid.updtReq = false := hs.sought true
    have hoff : q.l2.off.updtReq = true := hs.sought false
    rw [L2Regs.lookupOrdering, hbid, hoff]
    rfl

/-- The memories have the level once the search has found its ordering. -/
theorem Fetch.next (hf : Fetch base d q s) (hs : Signals s q) (hp : Placed {} false base d)
    (ht : Settles base (sharesAt d) (3 - n) q.l2) (hn : s.At n) : Fetch base d (q.next i) s.next := by
  cases s with
  | rest => trivial
  | filled c => trivial
  | asked c =>
    obtain ⟨x, k, hx, henc⟩ := hf
    refine ⟨x, k, hx, ?_⟩
    rw [searchOf_next]
    exact henc
  | sought c =>
    obtain ⟨x, k, hx, henc⟩ := hf
    have hn : n = 2 := hn
    have hc := ht.config
    have hord : q.l2.lookupOrdering = BitVec.ofNat 11 k := (lookupOrdering_eq hs).trans henc
    refine ⟨x, k, hx, ?_, ?_⟩
    · have hprice : (wordOf (q.next i).l2 c).price =
          (q.l2.next (q.l2In i)).lut.orderingToPrice.doutb := rfl
      rw [hprice, (hc.lut_next _).2]
      dsimp only
      rw [hord]
      exact (hc.lut k hx.place).2
    · have hshares : (wordOf (q.next i).l2 c).shares = (q.l2.next (q.l2In i)).odRam.ram.doutb := rfl
      rw [hshares, (hc.rams_next _).2]
      dsimp only
      rw [hord]
      have hod := ht.od (by omega) k hx.place
      rw [odWord] at hod
      rw [hod, ← hx.price]
      exact (sharesAt_of_ladder hp (List.mem_of_getElem? hx.level)).1

/-- The halves in a cycle without a message: the refill word completes the levels shown. -/
theorem halves_next (hf : Fetch base d q s) (hs : Signals s q) (hp : Placed {} false base d)
    (hb : q.bboDecBook.valid = false) (hi : i.initV = false)
    (hh : ∀ c, Holds c (halfOf q c) (shown base (s.depth c) d c))
    (hfits : base + 50 * 2047 < 2 ^ 32) (c : Bool) :
    Holds c (halfOf (q.next i) c) (shown base (s.next.depth c) d c) := by
  have hinit : (halfIn q i c).initV = false := (halfIn_initV q i c).trans hi
  have hmsg := halfIn_idle (i := i) hb c
  have hword : (halfIn q i c).updt.valid = decide (s = .filled c) := by
    rw [halfIn_updt, wordOf, hs.filled]
  rw [halfOf_next]
  by_cases hfill : s = .filled c
  · subst hfill
    obtain ⟨x, k, hx, hprice, hshares⟩ := hf
    have hhc : Holds c (halfOf q c) (shown base 1 d c) := by
      have := hh c
      rwa [Stage.depth_side rfl] at this
    have hmem := List.mem_of_getElem? hx.level
    have hcov : (shown base 1 d c).inRange x.1 = true := by
      rw [shown_window.inRange_eq hp (Book.mem_levelPrices_of_ladder hmem), hx.price]
      exact covered_place rfl hx.place
    have hentry : entry (halfIn q i c).updt = toEntry x := by
      rw [halfIn_updt, entry, hprice, hshares, toNat_levelPrice hfits hx.place, toEntry, hx.price]
      push_cast
      rfl
    have hin : ((halfIn q i c).updt.shares.toNat : ℤ) ≤ (shown base 1 d c).outsideSharesInRange := by
      have hdrop : (ladder d c).drop 1 = (ladder d c)[1]?.toList ++ (ladder d c).drop 2 :=
        drop_eq_getElem?_toList_append _ 1
      rw [hx.level, Option.toList_some] at hdrop
      have hrest := (volumeIn_bounds (P := (shown base 1 d c).inRange) (l := (ladder d c).drop 2)
        fun y hy => ladder_pos hp.positive y (List.mem_of_mem_drop hy)).1
      rw [halfIn_updt, hshares, shown_halfAt.inRange, hdrop, volumeIn_append, volumeIn_cons,
        volumeIn_nil, if_pos hcov]
      omega
    have hlen : (shown base 1 d c).entries.length = 1 := by
      rw [shown_halfAt.length_entries]
      have := (List.getElem?_eq_some_iff.1 hx.level).1
      omega
    obtain ⟨h', hok, hholds, -⟩ := hhc.next_refill (show ({} : Params).bboDepth = 2 from rfl)
      ⟨hinit, hmsg, hword.trans (decide_eq_true rfl)⟩ hlen hin (shown_le hp.positive)
    obtain ⟨h'', hok', hsame, hat⟩ : ∃ h'', (shown base 1 d c).processUpdt {} (toEntry x) = .ok h'' ∧
        Book.SameHalf (shown base 1 d c) h'' ∧ Book.HalfAt 2 h'' (ladder d c) :=
      Book.half_processUpdt (show 1 ≤ ({} : Params).bboDepth by decide) shown_halfAt hx.level hcov
    rw [hentry, hok'] at hok
    obtain rfl : h'' = h' := Except.ok.inj hok
    rw [eq_shown (shown_window.of_sameHalf hsame) hat] at hholds
    exact hholds
  · have hdepth : s.next.depth c = s.depth c := by
      cases s with
      | rest => rfl
      | filled c' =>
        have hne : c' ≠ c := fun h => hfill (congrArg _ h)
        simp [Stage.depth, Stage.next, Stage.side, hne]
      | _ c' => rfl
    rw [hdepth]
    exact ((hh c).next_idle ⟨hinit, hmsg, hword.trans (decide_eq_false hfill)⟩).1

end Fetch

/-! ### The cycles after a message -/

/-- The ordering is that of the second best price, if this is in the window. -/
def Aims (base : ℕ) (d : Orders) (c : Bool) (o : BitVec 11) : Prop :=
  ∀ x k, IsSecond base d c x k → o = BitVec.ofNat 11 k

/-- The registers `n` cycles after a message, with the request for a level at stage `s`: the table settles
and the halves show the best levels; the next level is aimed at from the fourth cycle on, and from the
fifth the flags and the search are ready for the next message. -/
structure Phase (base : ℕ) (d : Orders) (n : ℕ) (s : Stage) (q : BookRegs) : Prop where
  placed : Placed {} false base d
  table : Settles base (sharesAt d) (3 - n) q.l2
  stage : s.At n
  signals : Signals s q
  halves (c : Bool) : Holds c (halfOf q c) (shown base (s.depth c) d c)
  fetch : Fetch base d q s
  held : q.decBookUpdt.valid = false
  aims (hn : 4 ≤ n) (c : Bool) : Aims base d c (aimOf q.l2 c)
  flags (hn : 5 ≤ n) (c : Bool) : Flagged (halfOf q c) (shown base 2 d c)
  search (hn : 5 ≤ n) (c : Bool) : Aims base d c (searchOf q.l2 c).updtOrdering

section Phase

variable {base n : ℕ} {d : Orders} {s : Stage} {q : BookRegs} {i : BookIn} {c : Bool}

theorem IsSecond.place_eq {x y : ℤ × ℤ} {k j : ℕ} (hx : IsSecond base d c x k)
    (hy : IsSecond base d c y j) : j = k := by
  have h := Option.some.inj (hx.level.symm.trans hy.level)
  have hk := hx.price
  rw [h, hy.price] at hk
  omega

/-- The price in slot 1 is that of the second level. -/
theorem second_price {h : HalfRegs} {x : ℤ × ℤ} {k : ℕ} (hh : Holds c h (shown base 2 d c))
    (hx : IsSecond base d c x k) (hfits : base + 50 * 2047 < 2 ^ 32) :
    h.arr1.price = levelPrice base k := by
  have hentry : (entries h)[1]? = some (toEntry x) := by
    have hshown : (shown base 2 d c).entries = ((ladder d c).take 2).map toEntry := rfl
    rw [← hh.entries, hshown, List.getElem?_map, List.getElem?_take_of_lt (by omega), hx.level]
    rfl
  rw [entries] at hentry
  split_ifs at hentry with h0 h1
  · have hprice : (h.arr1.price.toNat : ℤ) = x.1 :=
      congrArg (fun e => e.price) (Option.some.inj hentry)
    rw [hx.price] at hprice
    apply BitVec.eq_of_toNat_eq
    rw [toNat_levelPrice hfits hx.place]
    omega
  · cases hentry
  · cases hentry

/-- The lookup tables are read at the second best price, which may just come with the refill. -/
theorem aims_next (hc : Config base q.l2) (hf : Fetch base d q s) (hs : Signals s q)
    (hh : ∀ c, Holds c (halfOf q c) (shown base (s.depth c) d c)) (hn : s.At n) (h3 : 3 ≤ n)
    (hv : q.lookup.valid = false) (c : Bool) : Aims base d c (aimOf (q.next i).l2 c) := by
  intro x k hx
  have hword : (wordOf q.l2 c).valid = decide (s = .filled c) := hs.filled c
  have haddr : (if (wordOf q.l2 c).valid then (wordOf q.l2 c).price else (halfOf q c).arr1.price) =
      levelPrice base k := by
    rw [hword]
    by_cases hfill : s = .filled c
    · subst hfill
      obtain ⟨y, j, hy, hprice, -⟩ := hf
      rw [if_pos (decide_eq_true rfl), hprice, hx.place_eq hy]
    · have hdepth : s.depth c = 2 := by
        cases s with
        | rest => rfl
        | filled c' => exact Stage.depth_other rfl fun h => hfill (congrArg _ h)
        | _ c' =>
          have : n ≤ 2 := by
            simp only [Stage.At] at hn
            omega
          omega
      have hhc := hh c
      rw [hdepth] at hhc
      rw [decide_eq_false hfill, if_neg Bool.false_ne_true, second_price hhc hx hc.fits]
  rw [aimOf_next q i c hc, hv, Bool.and_false, if_neg Bool.false_ne_true, haddr]
  exact (hc.lut k hx.place).1

theorem Phase.bboDecBook (h : Phase base d n s q) (hv : q.lookup.valid = false) :
    q.bboDecBook.valid = false := by
  have hrel : q.release = false := by
    rw [BookRegs.release, h.held]
    rfl
  rw [BookRegs.bboDecBook, hrel, if_neg Bool.false_ne_true]
  split_ifs
  · rfl
  · exact hv

/-- **A cycle without a message.** -/
theorem Phase.idle (h : Phase base d n s q) (hv : q.lookup.valid = false) (hi : i.initV = false) :
    Phase base d (n + 1) s.next (q.next i) where
  placed := h.placed
  table := by
    rw [show 3 - (n + 1) = 3 - n - 1 by omega]
    exact h.table.next (i := q.l2In i) hi hv
  stage := h.stage.next
  signals := h.signals.next (h.bboDecBook hv)
  halves := halves_next h.fetch h.signals h.placed (h.bboDecBook hv) hi h.halves h.table.config.fits
  fetch := h.fetch.next h.signals h.placed h.table h.stage
  held := by
    have hnext : (q.next i).decBookUpdt = q.decBookUpdtNext := rfl
    rw [hnext, BookRegs.decBookUpdtNext]
    split_ifs
    · rfl
    · exact hv
    · rfl
  aims hn := aims_next h.table.config h.fetch h.signals h.halves h.stage (by omega) hv
  flags hn c := by
    obtain rfl := h.stage.eq_rest (by omega)
    have hword : (halfIn q i c).updt.valid = false := by
      rw [halfIn_updt]
      exact h.signals.filled c
    obtain ⟨-, -, -, hall, hin⟩ := (h.halves c).next_idle
      ⟨(halfIn_initV q i c).trans hi, halfIn_idle (h.bboDecBook hv) c, hword⟩
    rw [halfOf_next]
    exact ⟨hall, hin⟩
  search hn c := by
    rw [searchOf_next]
    exact h.aims (by omega) c

end Phase

end ItchOrderBook.Pipeline
