import ItchOrderBook.Book.Orders
import ItchOrderBook.Ref.L2PriceTable
import Mathlib.Algebra.Order.Ring.Int
import Mathlib.RingTheory.Coprime.Lemmas

/-!
# The L2 table holds the covered price levels

The L2 table covers every price in the ideal model, and `L2_MEM_SIZE` ticks from `price_base` on
otherwise. `Tracks` says that its price sets are the covered levels of the live orders and that
its memory holds their shares; `l2_processMsg` says that a message keeps it so.

The bounded memory finds a price by `(price >> 1) mod L2_MEM_SIZE`. On the window this is
injective: consecutive ticks are 25 apart there, and 25 is prime to a power of two.
-/

namespace ItchOrderBook.Book

open Ref

variable {cfg : Params} {ideal : Bool} {base p q : ℤ}

/-- The last price of the window. -/
def windowMax (cfg : Params) (base : ℤ) : ℤ := base + 50 * (cfg.l2MemSize - 1)

/-- The prices the L2 table covers. -/
def covered (cfg : Params) (ideal : Bool) (base price : ℤ) : Bool :=
  ideal || (decide (base ≤ price) && decide (price ≤ windowMax cfg base))

theorem covered_ideal : covered cfg true base p = true := rfl

theorem covered_hw : covered cfg false base p = true ↔ base ≤ p ∧ p ≤ windowMax cfg base := by
  simp [covered]

/-- The array index of a price on a tick. -/
def slot (cfg : Params) (price : ℤ) : ℕ := ((price / 2) % cfg.l2MemSize).toNat

theorem priceHash_tick (hp : p % 50 = 0) : priceHash cfg p = .ok (slot cfg p) := if_pos hp

/-- **The price hash is injective on the window.** -/
theorem slot_inj (hbase : base % 50 = 0) (hp : p % 50 = 0) (hq : q % 50 = 0)
    (cp : covered cfg false base p) (cq : covered cfg false base q)
    (h : slot cfg p = slot cfg q) : p = q := by
  rw [covered_hw, windowMax] at cp cq
  obtain ⟨a, rfl⟩ := Int.dvd_of_emod_eq_zero hp
  obtain ⟨b, rfl⟩ := Int.dvd_of_emod_eq_zero hq
  have hsize : (cfg.l2MemSize : ℤ) = 2 ^ cfg.l2LogMemSize := by
    simp [Params.l2MemSize, Nat.one_shiftLeft]
  have hpos : (0 : ℤ) < cfg.l2MemSize := by rw [hsize]; exact pow_pos (by decide) _
  have hmod : (50 * a / 2) % (cfg.l2MemSize : ℤ) = (50 * b / 2) % cfg.l2MemSize := by
    have ha := Int.emod_nonneg (50 * a / 2) hpos.ne'
    have hb := Int.emod_nonneg (50 * b / 2) hpos.ne'
    unfold slot at h
    omega
  have hdvd : (cfg.l2MemSize : ℤ) ∣ 25 * (a - b) := by
    have hsub := Int.emod_eq_emod_iff_emod_sub_eq_zero.1 hmod
    rw [show 50 * a / 2 - 50 * b / 2 = 25 * (a - b) by omega] at hsub
    exact Int.dvd_of_emod_eq_zero hsub
  have hcop : IsCoprime (cfg.l2MemSize : ℤ) 25 := by
    rw [hsize]
    exact IsCoprime.pow_left (Int.isCoprime_iff_gcd_eq_one.2 rfl)
  have hwide : |a - b| < cfg.l2MemSize := by rw [abs_lt]; constructor <;> omega
  have := Int.eq_zero_of_abs_lt_dvd (hcop.dvd_of_dvd_mul_left hdvd) hwide
  omega

/-! ### Setting the price base -/

/-- The dict from hashes to prices of the window. -/
def windowLut (cfg : Params) (base : ℤ) : HashLut :=
  (L2Memory.ticks cfg base).foldl (fun lut p => lut.insert (slot cfg p) p) ∅

theorem mem_ticks :
    p ∈ L2Memory.ticks cfg base ↔ ∃ k < cfg.l2MemSize, p = base + 50 * (k : ℤ) := by
  simp only [L2Memory.ticks, List.mem_map, List.mem_range, eq_comm]

theorem fillLut_eq {ticks : List ℤ} (h : ∀ p ∈ ticks, p % 50 = 0) (lut : HashLut) :
    L2Memory.fillLut cfg ticks lut =
      .ok (ticks.foldl (fun lut p => lut.insert (slot cfg p) p) lut) := by
  induction ticks generalizing lut with
  | nil => rfl
  | cons p ticks ih =>
    rw [L2Memory.fillLut, priceHash_tick (h p List.mem_cons_self)]
    exact ih (fun q hq => h q (List.mem_cons_of_mem _ hq)) _

/-- A filled table has only ticks in it: any other price fails the assertion of the hash. -/
theorem fillLut_ok {ticks : List ℤ} {lut lut' : HashLut}
    (h : L2Memory.fillLut cfg ticks lut = .ok lut') : ∀ p ∈ ticks, p % 50 = 0 := by
  induction ticks generalizing lut with
  | nil => exact fun p hp => absurd hp List.not_mem_nil
  | cons p ticks ih =>
    by_cases hp : p % 50 = 0
    · rw [L2Memory.fillLut, priceHash_tick hp] at h
      exact fun q hq => (List.mem_cons.1 hq).elim (fun e => e ▸ hp) (ih h q)
    · rw [L2Memory.fillLut, priceHash, if_neg hp] at h
      cases h

theorem base_mem_ticks (cfg : Params) (base : ℤ) : base ∈ L2Memory.ticks cfg base := by
  refine mem_ticks.2 ⟨0, ?_, by simp⟩
  rw [Params.l2MemSize, Nat.one_shiftLeft]
  exact Nat.two_pow_pos _

theorem ticks_tick (hbase : base % 50 = 0) {p : ℤ} (hp : p ∈ L2Memory.ticks cfg base) :
    p % 50 = 0 := by
  obtain ⟨k, -, rfl⟩ := mem_ticks.1 hp
  omega

/-- `init_params` of a new memory: the price base is on a tick, and the table is filled. -/
theorem memory_initParams {m : L2Memory cfg} :
    (L2Memory.empty : L2Memory cfg).initParams base = .ok m ↔
      base % 50 = 0 ∧ m = ⟨true, base, fun _ => 0, windowLut cfg base⟩ := by
  have hempty : (L2Memory.empty : L2Memory cfg).initParams base =
      (L2Memory.fillLut cfg (L2Memory.ticks cfg base) ∅).map fun lut =>
        ⟨true, base, fun _ => 0, lut⟩ := rfl
  rw [hempty]
  constructor
  · intro h
    cases hlut : L2Memory.fillLut cfg (L2Memory.ticks cfg base) ∅ with
    | error e =>
      rw [hlut] at h
      cases h
    | ok lut =>
      have hticks := fillLut_ok hlut
      rw [fillLut_eq hticks] at h
      exact ⟨hticks base (base_mem_ticks cfg base), (Except.ok.inj h).symm⟩
  · rintro ⟨hbase, rfl⟩
    rw [fillLut_eq fun p => ticks_tick hbase]
    rfl

/-! ### The memory -/

/-- The memory holds `t p` shares at the covered prices on a tick. -/
def Holds (base : ℤ) (t : ℤ → ℤ) : L2Store cfg → Prop
  | .ideal d => ∀ p, d.lookup p = if t p = 0 then none else some (t p)
  | .hw m => ∀ p, p % 50 = 0 → covered cfg false base p → m.arr (slot cfg p) = t p

/-- The memory is a plain dict. -/
def isIdealL2 : L2Store cfg → Bool
  | .ideal _ => true
  | .hw _ => false

section Memory

variable {t : ℤ → ℤ} {st : L2Store cfg} (h : Holds base t st) (hp : p % 50 = 0)
  (hc : covered cfg (isIdealL2 st) base p)

include h hp hc

theorem Holds.contains (ht : 0 ≤ t p) : st.contains p = .ok (decide (t p ≠ 0)) := by
  cases st with
  | ideal d =>
    have := h p
    simp only [L2Store.contains, ← Finmap.lookup_isSome, this]
    split_ifs with h0 <;> simp [h0]
  | hw m =>
    simp only [L2Store.contains, L2Memory.contains, priceHash_tick hp, Except.map, h p hp hc]
    congr 1
    rw [decide_eq_decide]
    omega

theorem Holds.getItem (ht : t p ≠ 0) : st.getItem p = .ok (t p) := by
  cases st with
  | ideal d =>
    have := h p
    rw [if_neg ht] at this
    simp only [L2Store.getItem, this]
  | hw m => simp only [L2Store.getItem, L2Memory.getItem, priceHash_tick hp, Except.map, h p hp hc]

variable {t' : ℤ → ℤ} (hbase : base % 50 = 0) (hoff : ∀ q, q ≠ p → t' q = t q)

include hbase hoff

theorem Holds.setItem (ht : t' p ≠ 0) :
    ∃ st', st.setItem p (t' p) = .ok st' ∧ Holds base t' st' ∧ isIdealL2 st' = isIdealL2 st := by
  cases st with
  | ideal d =>
    refine ⟨_, rfl, fun q => ?_, rfl⟩
    by_cases hq : q = p
    · rw [hq, Finmap.lookup_insert, if_neg ht]
    · rw [Finmap.lookup_insert_of_ne _ hq, hoff q hq, h q]
  | hw m =>
    refine ⟨.hw { m with arr := fun i => if i = slot cfg p then t' p else m.arr i }, ?_, ?_, rfl⟩
    · simp only [L2Store.setItem, L2Memory.setItem, priceHash_tick hp, Except.map]
    · intro q hq hcq
      by_cases hqp : q = p
      · simp [hqp]
      · have : slot cfg q ≠ slot cfg p := fun e => hqp (slot_inj hbase hq hp hcq hc e)
        simp only [this, if_false, hoff q hqp, h q hq hcq]

theorem Holds.delItem (ht : 0 < t p) (ht' : t' p = 0) :
    ∃ st', st.delItem p = .ok st' ∧ Holds base t' st' ∧ isIdealL2 st' = isIdealL2 st := by
  cases st with
  | ideal d =>
    have hmem : p ∈ d := by
      rw [← Finmap.lookup_isSome, h p, if_neg (by omega)]; rfl
    refine ⟨.ideal (d.erase p), if_pos hmem, fun q => ?_, rfl⟩
    by_cases hq : q = p
    · rw [hq, Finmap.lookup_erase, if_pos ht']
    · rw [Finmap.lookup_erase_ne hq, hoff q hq, h q]
  | hw m =>
    refine ⟨.hw { m with arr := fun i => if i = slot cfg p then 0 else m.arr i }, ?_, ?_, rfl⟩
    · have : ¬ m.arr (slot cfg p) ≤ 0 := by rw [h p hp hc]; omega
      simp only [L2Store.delItem, L2Memory.delItem, L2Memory.getItem, L2Memory.setItem,
        priceHash_tick hp, Except.map, this, if_false]
    · intro q hq hcq
      by_cases hqp : q = p
      · simp [hqp, ht']
      · have : slot cfg q ≠ slot cfg p := fun e => hqp (slot_inj hbase hq hp hcq hc e)
        simp only [this, if_false, hoff q hqp, h q hq hcq]

end Memory

/-! ### The table -/

/-- The shares live at a price, of both sides. -/
def sharesAt (d : Orders) (price : ℤ) : ℤ := levelShares d true price + levelShares d false price

/-- Every bid is below every offer. -/
def Uncrossed (d : Orders) : Prop := ∀ p ∈ levelPrices d true, ∀ q ∈ levelPrices d false, p < q

/-- Orders as the book accepts them: on a tick, on the covered side of the window, uncrossed. -/
structure Placed (cfg : Params) (ideal : Bool) (base : ℤ) (d : Orders) : Prop where
  positive : Positive d
  tick : ∀ i e, d.lookup i = some e → e.price % 50 = 0
  inside : ∀ i e, d.lookup i = some e → ideal = false →
    if e.isBuy then e.price ≤ windowMax cfg base else base ≤ e.price
  uncrossed : Uncrossed d

/-- The table holds the covered price levels of the live orders. -/
structure Tracks (base : ℤ) (d : Orders) (s : L2 cfg) : Prop where
  initialized : s.initialized = true
  priceBase : s.priceBase = base
  priceMax : s.priceMax = windowMax cfg base
  kind : isIdealL2 s.memory = s.ideal
  levels : ∀ b, s.levels b = (levelPrices d b).filter fun p => covered cfg s.ideal base p
  memory : Holds base (sharesAt d) s.memory

section Step

variable {s : L2 cfg} {t t' : ℤ → ℤ} {b : Bool} {sh : ℤ}

@[simp] theorem levels_addLevel (s : L2 cfg) (b c : Bool) (p : ℤ) :
    (s.addLevel b p).levels c = if b = c then insert p (s.levels c) else s.levels c := by
  cases b <;> cases c <;> rfl

@[simp] theorem levels_removeLevel (s : L2 cfg) (b c : Bool) (p : ℤ) :
    (s.removeLevel b p).levels c = if b = c then (s.levels c).erase p else s.levels c := by
  cases b <;> cases c <;> rfl

/-- The table after its memory and one price set were replaced is otherwise the same table. -/
def SameTable (s s' : L2 cfg) : Prop :=
  s'.initialized = s.initialized ∧ s'.priceBase = s.priceBase ∧ s'.priceMax = s.priceMax ∧
    s'.ideal = s.ideal

theorem sameTable_addLevel (s : L2 cfg) (m : L2Store cfg) (b : Bool) (p : ℤ) :
    SameTable s ({ s with memory := m }.addLevel b p) := by
  cases b <;> exact ⟨rfl, rfl, rfl, rfl⟩

theorem sameTable_removeLevel (s : L2 cfg) (m : L2Store cfg) (b : Bool) (p : ℤ) :
    SameTable s ({ s with memory := m }.removeLevel b p) := by
  cases b <;> exact ⟨rfl, rfl, rfl, rfl⟩

@[simp] theorem memory_addLevel (s : L2 cfg) (b : Bool) (p : ℤ) :
    (s.addLevel b p).memory = s.memory := by cases b <;> rfl

@[simp] theorem memory_removeLevel (s : L2 cfg) (b : Bool) (p : ℤ) :
    (s.removeLevel b p).memory = s.memory := by cases b <;> rfl

variable (hbase : base % 50 = 0) (h : Holds base t s.memory) (hp : p % 50 = 0)
  (hc : covered cfg (isIdealL2 s.memory) base p) (hoff : ∀ q, q ≠ p → t' q = t q) (hsh : 1 ≤ sh)

include hbase h hp hc hoff hsh

/-- Adding shares at a covered price. -/
theorem increase_spec (ht : 0 ≤ t p) (ht' : t' p = t p + sh) :
    ∃ s', s.increase b sh p = (.ret (), s') ∧ SameTable s s' ∧
      isIdealL2 s'.memory = isIdealL2 s.memory ∧ Holds base t' s'.memory ∧
      ∀ c, s'.levels c = if b = c then insert p (s.levels c) else s.levels c := by
  obtain ⟨m, hm, hm', hk⟩ := h.setItem hp hc hbase hoff (by omega)
  have htotal : (if decide (t p ≠ 0) = true then (s.memory.getItem p).map (· + sh) else .ok sh) =
      .ok (t' p) := by
    by_cases h0 : t p = 0
    · simp [h0, ht']
    · simp [h0, ht', h.getItem hp hc h0, Except.map]
  refine ⟨{ s with memory := m }.addLevel b p, ?_, sameTable_addLevel s m b p, by simpa using hk,
    by simpa using hm', fun c => levels_addLevel _ b c p⟩
  simp only [L2.increase, h.contains hp hc ht, htotal, hm]

/-- Taking shares away at a covered price that has them. -/
theorem decrease_spec (hle : sh ≤ t p) (ht' : t' p = t p - sh) (hmem : p ∈ s.levels b) :
    ∃ s', s.decrease b sh p = (.ret (), s') ∧ SameTable s s' ∧
      isIdealL2 s'.memory = isIdealL2 s.memory ∧ Holds base t' s'.memory ∧
      ∀ c, s'.levels c = if b = c ∧ t' p = 0 then (s.levels c).erase p else s.levels c := by
  have hne : t p ≠ 0 := by omega
  by_cases h0 : t' p = 0
  · obtain ⟨m, hm, hm', hk⟩ := h.delItem hp hc hbase hoff (by omega) h0
    refine ⟨{ s with memory := m }.removeLevel b p, ?_, sameTable_removeLevel s m b p,
      by simpa using hk, by simpa using hm', fun c => ?_⟩
    · simp only [L2.decrease, h.contains hp hc (by omega), h.getItem hp hc hne, ← ht', h0, hm,
        hne, ne_eq, not_false_eq_true, decide_true, if_true, hmem, not_true, if_false]
    · rw [levels_removeLevel]; simp only [h0, and_true]; rfl
  · obtain ⟨m, hm, hm', hk⟩ := h.setItem hp hc hbase hoff h0
    refine ⟨{ s with memory := m }, ?_, ⟨rfl, rfl, rfl, rfl⟩, hk, hm', fun c => ?_⟩
    · simp only [L2.decrease, h.contains hp hc (by omega), h.getItem hp hc hne, ← ht', h0, hm,
        hne, ne_eq, not_false_eq_true, decide_true, hmem, not_true, if_false]
    · rw [if_neg fun e => h0 e.2]; rfl

end Step

/-! ### `L2.processMsg` after a message accepted by L3 -/

/-- The two window assertions of `L2.process_msg`. -/
def WindowRaise (e : Exn) : Prop :=
  e = .assertion "Bid larger than price_max, choose higher price_base." ∨
    e = .assertion "Offer less than price_base, choose lower price_base."

/-- The message is past the window on the side near the top of the book. -/
def Beyond (cfg : Params) (ideal : Bool) (base : ℤ) (msg : DownstreamOrderMsg) : Prop :=
  ideal = false ∧ if msg.isBuy then windowMax cfg base < msg.price else msg.price < base

variable {om om' : OrderMap} {msg : BookMsg} {lk : DownstreamOrderMsg} {s : L2 cfg}

theorem sharesAt_step (h : om.step msg = some (lk, om')) (p : ℤ) :
    sharesAt om'.live p = sharesAt om.live p + if lk.price = p then change lk else 0 := by
  simp only [sharesAt, levelShares_step h, changeAt]
  cases lk.isBuy <;> simp <;> ring

theorem sharesAt_nonneg {d : Orders} (hd : Positive d) (p : ℤ) : 0 ≤ sharesAt d p :=
  Int.add_nonneg (levelShares_nonneg hd) (levelShares_nonneg hd)

/-- In an uncrossed book a price has shares on one side only. -/
theorem sharesAt_of_mem {d : Orders} (hd : Placed cfg ideal base d) {b : Bool}
    (hp : p ∈ levelPrices d b) : sharesAt d p = levelShares d b p := by
  have hzero : ∀ c, p ∉ levelPrices d c → levelShares d c p = 0 := fun c hc => by
    rwa [mem_levelPrices_iff hd.positive, not_not] at hc
  unfold sharesAt
  cases b
  · rw [hzero true fun hc => lt_irrefl _ (hd.uncrossed p hc p hp), zero_add]
  · rw [hzero false fun hc => lt_irrefl _ (hd.uncrossed p hp p hc), add_zero]

theorem mem_levelPrices_step (h : om.step msg = some (lk, om')) (hd : Positive om.live)
    (hm : msg.SharesPos) (b : Bool) (q : ℤ) :
    q ∈ levelPrices om'.live b ↔
      if lk.isBuy = b ∧ lk.price = q then levelShares om.live b q + change lk ≠ 0
      else q ∈ levelPrices om.live b := by
  rw [mem_levelPrices_iff (OrderMap.step_positive h hd hm), levelShares_step h, changeAt]
  split_ifs
  · rfl
  · rw [add_zero, mem_levelPrices_iff hd]

theorem Holds.congr {t t' : ℤ → ℤ} {st : L2Store cfg} (h : Holds base t st)
    (ht : ∀ p, covered cfg (isIdealL2 st) base p → t' p = t p) : Holds base t' st := by
  cases st with
  | ideal d => intro p; rw [ht p rfl]; exact h p
  | hw m => intro p hp hc; rw [ht p hc]; exact h p hp hc

theorem Tracks.of_sameTable {d d' : Orders} {s' : L2 cfg} (ht : Tracks base d s)
    (hs : SameTable s s') (hk : isIdealL2 s'.memory = isIdealL2 s.memory)
    (hm : Holds base (sharesAt d') s'.memory)
    (hl : ∀ c q, q ∈ s'.levels c ↔ q ∈ levelPrices d' c ∧ covered cfg s.ideal base q) :
    Tracks base d' s' := by
  obtain ⟨hi, hpb, hpm, hid⟩ := hs
  refine ⟨hi ▸ ht.initialized, hpb ▸ ht.priceBase, hpm ▸ ht.priceMax, ?_, fun c => ?_, hm⟩
  · rw [hk, hid, ht.kind]
  · ext q
    rw [hl, hid, Finset.mem_filter]

theorem mem_levels {d : Orders} (ht : Tracks base d s) (c : Bool) (q : ℤ) :
    q ∈ s.levels c ↔ q ∈ levelPrices d c ∧ covered cfg s.ideal base q := by
  rw [ht.levels, Finset.mem_filter]

/-- A message at a price the table does not cover changes nothing that it holds. -/
theorem Tracks.step_uncovered (h : om.step msg = some (lk, om')) (hd : Positive om.live)
    (hm : msg.SharesPos) (ht : Tracks base om.live s) (hc : ¬ covered cfg s.ideal base lk.price) :
    Tracks base om'.live s := by
  have hne : ∀ q, covered cfg s.ideal base q → lk.price ≠ q := fun q hq e => hc (e ▸ hq)
  refine ht.of_sameTable ⟨rfl, rfl, rfl, rfl⟩ rfl (ht.memory.congr fun q hq => ?_) fun c q => ?_
  · rw [sharesAt_step h, if_neg (hne q (ht.kind ▸ hq)), add_zero]
  · rw [mem_levels ht, mem_levelPrices_step h hd hm]
    refine and_congr_left fun hq => ?_
    rw [if_neg fun e => hne q hq e.2]

/-- The two updates of a covered price keep the table in step with the orders. -/
theorem Tracks.step_covered (h : om.step msg = some (lk, om')) (hbase : base % 50 = 0)
    (hd : Placed cfg s.ideal base om.live) (hm : msg.SharesPos) (ht : Tracks base om.live s)
    (htick : lk.price % 50 = 0) (hc : covered cfg s.ideal base lk.price) :
    ∃ s', (if lk.msgType.isAdd then s.increase lk.isBuy lk.shares lk.price
        else s.decrease lk.isBuy lk.shares lk.price) = (.ret (), s') ∧
      SameTable s s' ∧ Tracks base om'.live s' := by
  have hsh := OrderMap.step_shares_pos h hd.positive hm
  have hc' : covered cfg (isIdealL2 s.memory) base lk.price := by rw [ht.kind]; exact hc
  have hoff : ∀ q, q ≠ lk.price → sharesAt om'.live q = sharesAt om.live q := fun q hq => by
    rw [sharesAt_step h, if_neg hq.symm, add_zero]
  have hat := sharesAt_step h lk.price
  rw [if_pos rfl, change] at hat
  cases ha : lk.msgType.isAdd with
  | true =>
    rw [ha, if_pos rfl] at hat
    obtain ⟨s', hs', hsame, hk, hhold, hlev⟩ := increase_spec hbase ht.memory htick
      hc' hoff hsh (sharesAt_nonneg hd.positive _) hat
    refine ⟨s', hs', hsame, ht.of_sameTable hsame hk hhold fun c q => ?_⟩
    rw [hlev, mem_levelPrices_step h hd.positive hm]
    have hpos : 0 ≤ levelShares om.live c q := levelShares_nonneg hd.positive
    by_cases hcq : lk.isBuy = c ∧ lk.price = q
    · obtain ⟨rfl, rfl⟩ := hcq
      simp only [if_true, and_self, Finset.mem_insert, true_or, change, ha, hc, and_true, true_iff]
      omega
    · rw [if_neg hcq, ← mem_levels ht]
      split_ifs with hb
      · rw [Finset.mem_insert, or_iff_right fun e => hcq ⟨hb, e.symm⟩]
      · rfl
  | false =>
    rw [ha, if_neg Bool.false_ne_true, ← sub_eq_add_neg] at hat
    have hle := OrderMap.step_le_levelShares h hd.positive ha
    have hmem : lk.price ∈ levelPrices om.live lk.isBuy :=
      (mem_levelPrices_iff hd.positive).2 (by omega)
    have heq := sharesAt_of_mem hd hmem
    obtain ⟨s', hs', hsame, hk, hhold, hlev⟩ := decrease_spec hbase ht.memory htick
      hc' hoff hsh (heq ▸ hle) hat ((mem_levels ht _ _).2 ⟨hmem, hc⟩)
    refine ⟨s', hs', hsame, ht.of_sameTable hsame hk hhold fun c q => ?_⟩
    rw [hlev, mem_levelPrices_step h hd.positive hm]
    by_cases hcq : lk.isBuy = c ∧ lk.price = q
    · obtain ⟨rfl, rfl⟩ := hcq
      have hzero : sharesAt om'.live lk.price = 0 ↔
          ¬ levelShares om.live lk.isBuy lk.price + change lk ≠ 0 := by
        rw [hat, heq, change, ha, if_neg Bool.false_ne_true]; omega
      simp only [true_and, and_self, if_true, hc, and_true, hzero]
      by_cases hz : levelShares om.live lk.isBuy lk.price + change lk = 0
      · simp [hz]
      · simpa [hz] using (mem_levels ht _ _).2 ⟨hmem, hc⟩
    · rw [if_neg hcq, ← mem_levels ht]
      split_ifs with hb
      · rw [Finset.mem_erase, and_iff_right fun e => hcq ⟨hb.1, e.symm⟩]
      · rfl

/-- **One message at L2.** It is refused off a tick, stopped past the near side of the window,
and else leaves the table in step with the orders. -/
theorem l2_processMsg (h : om.step msg = some (lk, om')) (hbase : base % 50 = 0)
    (hd : Placed cfg s.ideal base om.live) (hm : msg.SharesPos) (ht : Tracks base om.live s) :
    (lk.price % 50 ≠ 0 ∧ s.processMsg lk = (.err "Invalid price not on tick increment.", s)) ∨
    (lk.price % 50 = 0 ∧ Beyond cfg s.ideal base lk ∧
      ∃ e, s.processMsg lk = (.raise e, s) ∧ WindowRaise e) ∨
    (lk.price % 50 = 0 ∧ ¬ Beyond cfg s.ideal base lk ∧
      ∃ s', s.processMsg lk = (.ret (), s') ∧ s'.ideal = s.ideal ∧ Tracks base om'.live s') := by
  have hsh := OrderMap.step_shares_pos h hd.positive hm
  by_cases htick : lk.price % 50 = 0
  · have hwin : (!s.ideal ∧ (lk.price < s.priceBase ∨ lk.price > s.priceMax)) ↔
        ¬ covered cfg s.ideal base lk.price := by
      rw [ht.priceBase, ht.priceMax]
      cases s.ideal
      · rw [covered_hw]; simp only [Bool.not_false, true_and]; omega
      · simp [covered_ideal]
    have hbegin : s.processMsg lk =
        if ¬ covered cfg s.ideal base lk.price then
          if lk.isBuy ∧ lk.price > s.priceMax then
            (.raise (.assertion "Bid larger than price_max, choose higher price_base."), s)
          else if !lk.isBuy ∧ lk.price < s.priceBase then
            (.raise (.assertion "Offer less than price_base, choose lower price_base."), s)
          else (.ret (), s)
        else if lk.msgType.isAdd then s.increase lk.isBuy lk.shares lk.price
        else s.decrease lk.isBuy lk.shares lk.price := by
      have hpos : lk.shares > 0 := by omega
      rw [L2.processMsg]
      simp only [ht.initialized, htick, hwin, hpos, Bool.not_true, Bool.false_eq_true, if_false,
        ne_eq, not_true]
      cases lk.msgType <;> rfl
    rw [hbegin]
    by_cases hc : covered cfg s.ideal base lk.price
    · obtain ⟨s', hs', hsame, ht'⟩ := ht.step_covered h hbase hd hm htick hc
      refine Or.inr (Or.inr ⟨htick, ?_, s', by rw [if_neg (not_not.2 hc)]; exact hs', hsame.2.2.2, ht'⟩)
      rintro ⟨hid, hb⟩
      rw [hid, covered_hw] at hc
      split_ifs at hb <;> omega
    · rw [if_pos hc, ht.priceMax, ht.priceBase]
      have hid : s.ideal = false := by
        cases hi : s.ideal
        · rfl
        · rw [hi] at hc; exact absurd covered_ideal hc
      cases hb : lk.isBuy
      · by_cases hlt : lk.price < base
        · exact Or.inr (Or.inl ⟨htick, ⟨hid, by simpa [hb] using hlt⟩, _, by simp [hlt], Or.inr rfl⟩)
        · refine Or.inr (Or.inr ⟨htick, fun hB => hlt (by simpa [hb] using hB.2), s, ?_, rfl,
            ht.step_uncovered h hd.positive hm hc⟩)
          simp [hlt]
      · by_cases hlt : windowMax cfg base < lk.price
        · exact Or.inr (Or.inl ⟨htick, ⟨hid, by simpa [hb] using hlt⟩, _, by simp [hlt], Or.inl rfl⟩)
        · refine Or.inr (Or.inr ⟨htick, fun hB => hlt (by simpa [hb] using hB.2), s, ?_, rfl,
            ht.step_uncovered h hd.positive hm hc⟩)
          simp [hlt]
  · refine Or.inl ⟨htick, ?_⟩
    simp [L2.processMsg, ht.initialized, htick]

/-! ### The refill -/

/-- A live price nearer to the top than a covered one is covered. -/
theorem covered_of_better {d : Orders} {b : Bool} (hd : Placed cfg ideal base d)
    (hp : p ∈ levelPrices d b) (hpq : Better b p q) (hq : covered cfg ideal base q) :
    covered cfg ideal base p := by
  cases ideal with
  | true => rfl
  | false =>
    obtain ⟨i, e, he, rfl, rfl⟩ := mem_levelPrices.1 hp
    have := hd.inside i e he rfl
    rw [covered_hw] at hq ⊢
    unfold Better at hpq
    split_ifs at this hpq <;> omega

/-- **The refill is the next level.** When the level past the first `BBO_DEPTH - 1` is covered,
`get_updt` returns it. -/
theorem getUpdt_spec {d : Orders} {b : Bool} {x : ℤ × ℤ} (hd : Placed cfg s.ideal base d)
    (ht : Tracks base d s) (hx : (ladder d b)[cfg.bboDepth - 1]? = some x)
    (hc : covered cfg s.ideal base x.1) : s.getUpdt b = .ok (toEntry x) := by
  obtain ⟨p, hp, rfl⟩ : ∃ p, (sortPrices b (levelPrices d b))[cfg.bboDepth - 1]? = some p ∧
      x = (p, levelShares d b p) := by
    rw [ladder, List.getElem?_map, Option.map_eq_some_iff] at hx
    exact hx.imp fun _ h => ⟨h.1, h.2.symm⟩
  have hmem : p ∈ levelPrices d b := mem_sortPrices.1 (List.mem_of_getElem? hp)
  have hidx : (sortPrices b (s.levels b))[cfg.bboDepth - 1]? = some p := by
    rw [ht.levels, sortPrices_filter]
    exact getElem?_filter_of_pairwise (pairwise_sortPrices _ _)
      (fun q hq r => covered_of_better hd (mem_sortPrices.1 hq)) hp hc
  have hcard : (s.levels b).card > cfg.bboDepth - 1 := by
    rw [← length_sortPrices b]
    exact (List.getElem?_eq_some_iff.1 hidx).1
  obtain ⟨i, e, he, -, hprice⟩ := mem_levelPrices.1 hmem
  have hget : s.memory.getItem p = .ok (levelShares d b p) := by
    have hat := sharesAt_of_mem hd hmem
    rw [← hat]
    refine ht.memory.getItem (hprice ▸ hd.tick i e he) (ht.kind ▸ hc) ?_
    rw [hat]
    exact (mem_levelPrices_iff hd.positive).1 hmem
  have hentry : s.entryAt (cfg.bboDepth - 1)
      ((sortPrices b (s.levels b)).take (cfg.bboDepth - 1 + 1)) = .ok (toEntry (p, levelShares d b p)) := by
    rw [L2.entryAt, List.getElem?_take_of_lt (by omega), hidx]
    simp only [hget, Except.map, toEntry]
  cases b
  · have : ¬ ¬ s.offs.card > cfg.bboDepth - 1 := not_not.2 hcard
    simp only [L2.getUpdt, L2.getOffUpdt, this, if_false, Bool.false_eq_true]
    exact hentry
  · have : ¬ ¬ s.bids.card > cfg.bboDepth - 1 := not_not.2 hcard
    simp only [L2.getUpdt, L2.getBidUpdt, this, if_false, if_true]
    exact hentry

end ItchOrderBook.Book
