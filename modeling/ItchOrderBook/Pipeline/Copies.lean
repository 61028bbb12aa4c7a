import ItchOrderBook.Pipeline.Levels

/-!
# The three copies of the price table agree

In every run of `l2_price_table` that starts with an initialisation, three cycles after the last message
the memory by price addresses, the memory by orderings and the existence bits all tell the shares that
the messages have left at each price of the window (`copies_agree`). A message takes the shares of its
level from the first memory only, and its ordering from a table that the refill requests share.
-/

namespace ItchOrderBook.Pipeline

open Rtl (DecBook L2In L2Regs l2PriceTable priceAddr)
open Tables (Fresh LutHolds)

/-! ### The initialised table -/

/-- In the run that begins with the release of reset at `q` there is one initialisation pulse, in cycle
`n`, and no message before cycle `t₀`, in which the table is ready and its lookup tables hold the window. -/
structure Loads (base : ℕ) (q : L2Regs) (u : ℕ → L2In) (n t₀ : ℕ) : Prop where
  pulse : ∀ t < t₀, (u t).initV = decide (t = n)
  priceBase : (u n).initPriceBase.toNat = base
  tick : base % 50 = 0
  fits : base + 50 * 2047 < 2 ^ 32
  after : n < t₀
  quiet : ∀ t < t₀, (u t).decBook.valid = false
  ready : (l2PriceTable.state q.reset u t₀).ready = true
  lut : LutHolds base (l2PriceTable.state q.reset u t₀).lut

/-- No message has been seen. -/
structure Unused (r : L2Regs) : Prop where
  decBook : r.decBook.valid = false
  existWen : r.existWen = false
  existArr : ∀ a, r.existArr a = false

/-- The table has its window. -/
structure Windowed (base : ℕ) (r : L2Regs) : Prop where
  initialized : r.initialized = true
  priceBase : r.priceBase.toNat = base
  priceMax : r.priceMax.toNat = base + 50 * 2047

section Start

variable {base n t₀ : ℕ} {q r : L2Regs} {u : ℕ → L2In} {i : L2In}

theorem Unused.next (h : Unused r) (hv : i.decBook.valid = false) : Unused (r.next i) where
  decBook := decBook_idle r hv
  existWen := h.decBook
  existArr a := by
    rw [existArr_next h.existWen]
    exact h.existArr a

theorem Windowed.next (h : Windowed base r) (hi : i.initV = false) : Windowed base (r.next i) where
  initialized := by simp [L2Regs.next, h.initialized]
  priceBase := by simp [L2Regs.next, hi, h.priceBase]
  priceMax := by simp [L2Regs.next, hi, h.priceMax]

/-- The initialisation pulse. -/
theorem windowed_next (hi : i.initV = true) (hbase : i.initPriceBase.toNat = base)
    (hfits : base + 50 * 2047 < 2 ^ 32) : Windowed base (r.next i) := by
  refine ⟨by simp [L2Regs.next, hi], by simp [L2Regs.next, hi, hbase], ?_⟩
  have hmax : (r.next i).priceMax = i.initPriceBase + (50 <<< 11) - 50 := by
    simp [L2Regs.next, hi]
  have hconst : ((50 <<< 11 : ℕ) : BitVec 32).toNat = 102400 := by decide
  have hfifty : (50 : BitVec 32).toNat = 50 := by decide
  rw [hmax, BitVec.toNat_sub, BitVec.toNat_add, hconst, hfifty, hbase]
  omega

theorem Loads.unused (h : Loads base q u n t₀) {t : ℕ} (ht : t ≤ t₀) :
    Unused (l2PriceTable.state q.reset u t) := by
  induction t with
  | zero => exact ⟨rfl, rfl, fun _ => rfl⟩
  | succ t ih => exact (ih (Nat.le_of_succ_le ht)).next (h.quiet t ht)

theorem Loads.windowed (h : Loads base q u n t₀) {t : ℕ} (hn : n + 1 ≤ t) (ht : t ≤ t₀) :
    Windowed base (l2PriceTable.state q.reset u t) := by
  induction t, hn using Nat.le_induction with
  | base =>
    exact windowed_next ((h.pulse n h.after).trans (decide_eq_true rfl)) h.priceBase h.fits
  | succ t hnt ih =>
    have hinit : (u t).initV = false := (h.pulse t ht).trans (decide_eq_false (by omega))
    exact (ih (Nat.le_of_succ_le ht)).next hinit

/-- **The initialised table** holds no shares. -/
theorem Loads.table (h : Loads base q u n t₀) :
    Table base (fun _ => 0) (l2PriceTable.state q.reset u t₀) := by
  have hu := h.unused le_rfl
  have hw := h.windowed h.after le_rfl
  obtain ⟨hge, hdone⟩ := (Tables.ready_iff t₀).1 h.ready
  obtain ⟨-, hpa, hod⟩ := Tables.loaded_of_ready h.quiet h.ready h.lut
  have hpaSwept := (Tables.ram_countdown (r := fun t => (l2PriceTable.state q.reset u t).paRam)
    (q := q.paRam) rfl fun _ => rfl).done hge
  have hodSwept := (Tables.ram_countdown (r := fun t => (l2PriceTable.state q.reset u t).odRam)
    (q := q.odRam) rfl fun _ => rfl).done hge
  refine ⟨⟨h.tick, h.fits, hw.initialized, hw.priceBase, hw.priceMax, h.lut, hdone, hpaSwept,
    hodSwept⟩, hu.decBook, hu.existWen, fun k _ => ?_, fun k _ => ?_, fun k _ => ?_⟩
  · rw [paWord, hpa]
    rfl
  · rw [odWord, hod]
    rfl
  · rw [hu.existArr]
    rfl

/-- With an early enough pulse the table is loaded one cycle after the fill of the lookup tables. -/
theorem loads_of_fresh (hpulse : ∀ t, (u t).initV = decide (t = n))
    (hprice : (u n).initPriceBase.toNat = base) (htick : base % 50 = 0)
    (hfits : base + 50 * 2047 < 2 ^ 32) (hfresh : Fresh q.lut n) (hlate : n + 2049 ≤ t₀)
    (hquiet : ∀ t < t₀, (u t).decBook.valid = false) : Loads base q u n t₀ := by
  have hdone : (l2PriceTable.state q.reset u t₀).lut.initDone = true := by
    obtain ⟨j, rfl⟩ := Nat.exists_eq_add_of_le (show n + 1 ≤ t₀ by omega)
    exact (Tables.lut_initDone_after (l := fun t => (l2PriceTable.state q.reset u t).lut) (q := q.lut)
      rfl (fun _ => rfl) hpulse hfresh j).2 (by omega)
  have hready := (Tables.ready_iff (q := q) (u := u) t₀).2 ⟨by omega, hdone⟩
  have hloaded := Tables.sound_of_fresh hpulse (by rw [hprice]; exact htick) hfresh t₀ (by omega) hquiet
    hready
  rw [hprice] at hloaded
  exact ⟨fun t _ => hpulse t, hprice, htick, hfits, by omega, hquiet, hready, hloaded.lut⟩

end Start

/-! ### The stream of messages -/

/-- The shares that a message adds at a price. -/
def added (d : DecBook) (p : ℤ) : ℤ :=
  if d.valid = true ∧ (d.price.toNat : ℤ) = p then
    if d.isAdd then (d.shares.toNat : ℤ) else -d.shares.toNat
  else 0

/-- The net shares that the messages before a cycle have added at a price. -/
def net (u : ℕ → L2In) : ℕ → ℤ → ℤ
  | 0, _ => 0
  | t + 1, p => net u t p + added (u t).decBook p

/-- From cycle `t₀` on there are no more pulses, and the messages are on a tick, at least three cycles
apart and of at least one share. At the prices of the window no reduction exceeds the shares, and the
shares fit into their words. -/
structure Spread (base : ℕ) (u : ℕ → L2In) (t₀ : ℕ) : Prop where
  pulse : ∀ t, t₀ ≤ t → (u t).initV = false
  apart : ∀ t t', (u t).decBook.valid = true → (u t').decBook.valid = true → t < t' → t + 3 ≤ t'
  tick : ∀ t, (u t).decBook.valid = true → (u t).decBook.price.toNat % 50 = 0
  pos : ∀ t, (u t).decBook.valid = true → 1 ≤ (u t).decBook.shares.toNat
  enough : ∀ t, (u t).decBook.valid = true → ¬ Past base (u t).decBook.price →
    (u t).decBook.isAdd = false →
      ((u t).decBook.shares.toNat : ℤ) ≤ net u t (u t).decBook.price.toNat
  fits : ∀ t, (u t).decBook.valid = true → ¬ Past base (u t).decBook.price →
    net u (t + 1) (u t).decBook.price.toNat < 2 ^ 64

section Stream

variable {base n t₀ : ℕ} {q : L2Regs} {u : ℕ → L2In}

theorem net_of_idle {t : ℕ} (hv : (u t).decBook.valid = false) : net u (t + 1) = net u t := by
  funext p
  rw [net, added, if_neg fun h => by rw [hv] at h; exact Bool.false_ne_true h.1, add_zero]

theorem net_quiet (hquiet : ∀ t < t₀, (u t).decBook.valid = false) {t : ℕ} (ht : t ≤ t₀) :
    net u t = fun _ => 0 := by
  induction t with
  | zero => rfl
  | succ t ih => rw [net_of_idle (hquiet t ht), ih (Nat.le_of_succ_le ht)]

theorem added_of_ne {d : DecBook} {p : ℤ} (h : (d.price.toNat : ℤ) ≠ p) : added d p = 0 :=
  if_neg fun hp => h hp.2

/-- What a message changes at the prices of the window. -/
theorem Spread.levelChange (hs : Spread base u t₀) {T k : ℕ} (hfits : base + 50 * 2047 < 2 ^ 32)
    (hv : (u T).decBook.valid = true) (hk : k < 2048) (hprice : (u T).decBook.price = levelPrice base k)
    (hnonneg : 0 ≤ net u T (base + 50 * k)) :
    LevelChange base k (net u T) (net u (T + 1)) (u T).decBook := by
  have hnat : ((u T).decBook.price.toNat : ℤ) = base + 50 * k := by
    rw [hprice, toNat_levelPrice hfits hk]
    push_cast
    rfl
  have hin : ¬ Past base (u T).decBook.price := by
    unfold Past
    omega
  have hhere : net u (T + 1) (base + 50 * k) = net u T (base + 50 * k) +
      if (u T).decBook.isAdd then ((u T).decBook.shares.toNat : ℤ) else -(u T).decBook.shares.toNat := by
    rw [net, added, if_pos ⟨hv, hnat⟩]
  refine ⟨hk, hprice, hs.pos T hv, hhere, fun j hj hjk => ?_, ?_, ?_⟩
  · rw [net, added_of_ne, add_zero]
    omega
  · rw [hhere]
    split_ifs with hadd
    · omega
    · have hle := hs.enough T hv hin (Bool.not_eq_true _ ▸ hadd)
      rw [hnat] at hle
      omega
  · rw [← hnat]
    exact hs.fits T hv hin

/-- **A run of messages.** The table holds the net shares, three cycles after the last message. -/
theorem Loads.settles (hl : Loads base q u n t₀) (hs : Spread base u t₀) {T : ℕ} (hT : t₀ ≤ T) :
    ∃ m, Settles base (net u T) m (l2PriceTable.state q.reset u T) ∧
      (m = 0 ∨ ∃ t < T, (u t).decBook.valid = true ∧ T + m ≤ t + 3) := by
  induction T, hT using Nat.le_induction with
  | base =>
    rw [net_quiet hl.quiet le_rfl]
    exact ⟨0, hl.table, Or.inl rfl⟩
  | succ T hT ih =>
    obtain ⟨m, hm, hlast⟩ := ih
    have hi := hs.pulse T hT
    by_cases hv : (u T).decBook.valid = true
    · -- the message before is at least three cycles ago
      have hrest : m = 0 := by
        rcases hlast with hm0 | ⟨t, hlt, htv, hle⟩
        · exact hm0
        · have := hs.apart t T htv hv hlt
          omega
      subst hrest
      have htable : Table base (net u T) (l2PriceTable.state q.reset u T) := hm
      refine ⟨2, ?_, Or.inr ⟨T, Nat.lt_succ_self T, hv, le_rfl⟩⟩
      by_cases hpast : Past base (u T).decBook.price
      · refine htable.past hpast (fun k hk => ?_) hi
        rw [net, added_of_ne, add_zero]
        unfold Past at hpast
        omega
      · rw [Past, not_or, not_lt, not_lt] at hpast
        obtain ⟨k, hk, hprice⟩ := exists_level hl.tick hl.fits (hs.tick T hv) hpast.1 hpast.2
        refine htable.message (hs.levelChange hl.fits hv hk hprice ?_) hv hi
        rw [← htable.pa k hk]
        exact Int.natCast_nonneg _
    · have hidle : (u T).decBook.valid = false := by simpa using hv
      rw [net_of_idle hidle]
      refine ⟨m - 1, hm.next hi hidle, ?_⟩
      rcases hlast with rfl | ⟨t, hlt, htv, hle⟩
      · exact Or.inl rfl
      · by_cases hm0 : m = 0
        · exact Or.inl (by omega)
        · exact Or.inr ⟨t, by omega, htv, by omega⟩

/-- The table at rest. -/
theorem Loads.table_at (hl : Loads base q u n t₀) (hs : Spread base u t₀) {T : ℕ} (hT : t₀ ≤ T)
    (hlast : ∀ t < T, (u t).decBook.valid = true → t + 3 ≤ T) :
    Table base (net u T) (l2PriceTable.state q.reset u T) := by
  obtain ⟨m, hm, hm0 | ⟨t, hlt, htv, hle⟩⟩ := hl.settles hs hT
  · subst hm0
    exact hm
  · have := hlast t hlt htv
    have hm0 : m = 0 := by omega
    subst hm0
    exact hm

/-- The memories and the existence bits of two states are the same. -/
def SameCopies (r r' : L2Regs) : Prop :=
  r'.paRam.ram.mem = r.paRam.ram.mem ∧ r'.odRam.ram.mem = r.odRam.ram.mem ∧ r'.existArr = r.existArr

/-- Where nothing is under way, nothing is written. -/
theorem sameCopies_next {r : L2Regs} (hc : Config base r) (hv : r.decBook.valid = false)
    (hw : r.existWen = false) (i : L2In) : SameCopies r (r.next i) := by
  obtain ⟨hpa, hod⟩ := hc.rams_next i
  rw [hv] at hpa hod
  refine ⟨?_, ?_, existArr_next hw i⟩
  · rw [hpa]
    rfl
  · rw [hod]
    rfl

/-- **A message past the window** leaves the copies as they were. -/
theorem Loads.past (hl : Loads base q u n t₀) (hs : Spread base u t₀) {t : ℕ}
    (hv : (u t).decBook.valid = true) (hpast : Past base (u t).decBook.price) :
    SameCopies (l2PriceTable.state q.reset u t) (l2PriceTable.state q.reset u (t + 3)) := by
  have hT : t₀ ≤ t := by
    by_contra hlt
    rw [hl.quiet t (not_le.1 hlt)] at hv
    cases hv
  have htable := hl.table_at hs hT fun t' hlt htv => hs.apart t' t htv hv hlt
  have hidle : ∀ k, t < k → k < t + 3 → (u k).decBook.valid = false := by
    intro k hk hlt
    by_contra hkv
    have := hs.apart t k hv (by simpa using hkv) hk
    omega
  have hc1 := htable.toConfig.next (hs.pulse t hT)
  have hv1 := htable.toConfig.decBook_past hpast
  have hc2 := hc1.next (hs.pulse (t + 1) (by omega))
  have hv2 := decBook_idle (i := u (t + 1)) ((l2PriceTable.state q.reset u t).next (u t))
    (hidle (t + 1) (by omega) (by omega))
  obtain ⟨a1, b1, c1⟩ := sameCopies_next htable.toConfig htable.decBook htable.existWen (u t)
  obtain ⟨a2, b2, c2⟩ := sameCopies_next hc1 hv1 htable.decBook (u (t + 1))
  obtain ⟨a3, b3, c3⟩ := sameCopies_next hc2 hv2 hv1 (u (t + 2))
  exact ⟨(a3.trans a2).trans a1, (b3.trans b2).trans b1, (c3.trans c2).trans c1⟩

/-- **The three copies agree.** Once three cycles have passed since the last message, both memories hold
the net shares at every price of the window, an existence bit is set exactly if they are positive, and
messages past the window have changed nothing. -/
theorem copies_agree (hl : Loads base q u n t₀) (hs : Spread base u t₀) {T : ℕ} (hT : t₀ ≤ T)
    (hlast : ∀ t < T, (u t).decBook.valid = true → t + 3 ≤ T) :
    (∀ k : ℕ, k < 2048 →
      (((l2PriceTable.state q.reset u T).paRam.ram.mem (priceAddr (levelPrice base k))).toNat : ℤ) =
        net u T (base + 50 * k) ∧
      (((l2PriceTable.state q.reset u T).odRam.ram.mem (BitVec.ofNat 11 k)).toNat : ℤ) =
        net u T (base + 50 * k) ∧
      ((l2PriceTable.state q.reset u T).existArr (BitVec.ofNat 11 k) = true ↔
        0 < net u T (base + 50 * k))) ∧
    ∀ t, (u t).decBook.valid = true → Past base (u t).decBook.price →
      SameCopies (l2PriceTable.state q.reset u t) (l2PriceTable.state q.reset u (t + 3)) := by
  have htable := hl.table_at hs hT hlast
  refine ⟨fun k hk => ⟨htable.pa k hk, htable.od k hk, ?_⟩, fun t hv hpast => hl.past hs hv hpast⟩
  rw [htable.exist k hk, decide_eq_true_iff]

end Stream

/-! ### A run -/

/-- A level is added, an order comes past the window, and the level is reduced. -/
def threeMsgs (t : ℕ) : L2In where
  initV := decide (t = 2)
  initPriceBase := 100000
  decBook :=
    if t = 2100 then { DecBook.zero with valid := true, shares := 10, price := 100100 }
    else if t = 2103 then { DecBook.zero with valid := true, shares := 7, price := 50000 }
    else if t = 2106 then
      { DecBook.zero with valid := true, msgType := .reduce, shares := 4, price := 100100 }
    else .zero
  bidUpdtReq := false
  bidUpdtPriceAddr := 0
  offUpdtReq := false
  offUpdtPriceAddr := 0

theorem threeMsgs_valid {t : ℕ} (hv : (threeMsgs t).decBook.valid = true) :
    t = 2100 ∨ t = 2103 ∨ t = 2106 := by
  by_contra hne
  rw [not_or, not_or] at hne
  have hzero : (threeMsgs t).decBook = .zero := by
    simp only [threeMsgs, if_neg hne.1, if_neg hne.2.1, if_neg hne.2.2]
  rw [hzero] at hv
  cases hv

theorem threeMsgs_idle {t : ℕ} (h : t ≠ 2100 ∧ t ≠ 2103 ∧ t ≠ 2106) :
    (threeMsgs t).decBook.valid = false := by
  by_contra hv
  have := threeMsgs_valid (by simpa using hv)
  omega

theorem threeMsgs_quiet : ∀ t < 2100, (threeMsgs t).decBook.valid = false :=
  fun _ ht => threeMsgs_idle (by omega)

theorem threeMsgs_net : net threeMsgs 2106 100100 = 10 ∧ net threeMsgs 2109 100100 = 6 := by
  have hidle : ∀ t, t ≠ 2100 ∧ t ≠ 2103 ∧ t ≠ 2106 → net threeMsgs (t + 1) = net threeMsgs t :=
    fun t ht => net_of_idle (threeMsgs_idle ht)
  have h0 : net threeMsgs 2100 = fun _ => 0 :=
    net_quiet threeMsgs_quiet le_rfl
  have h1 : net threeMsgs 2101 100100 = 10 := by
    rw [net, h0]
    decide
  have h4 : net threeMsgs 2104 100100 = 10 := by
    rw [net, hidle 2102 (by omega), hidle 2101 (by omega), h1]
    decide
  have h6 : net threeMsgs 2106 100100 = 10 := by
    rw [hidle 2105 (by omega), hidle 2104 (by omega), h4]
  refine ⟨h6, ?_⟩
  rw [hidle 2108 (by omega), hidle 2107 (by omega), net, h6]
  decide

theorem threeMsgs_spread : Spread 100000 threeMsgs 2100 where
  pulse t ht := decide_eq_false (by omega)
  apart t t' hv hv' hlt := by
    have := threeMsgs_valid hv
    have := threeMsgs_valid hv'
    omega
  tick t hv := by
    rcases threeMsgs_valid hv with rfl | rfl | rfl <;> decide
  pos t hv := by
    rcases threeMsgs_valid hv with rfl | rfl | rfl <;> decide
  enough t hv _ hadd := by
    rcases threeMsgs_valid hv with rfl | rfl | rfl
    · cases hadd
    · cases hadd
    · exact threeMsgs_net.1.symm ▸ (by decide)
  fits t hv hin := by
    rcases threeMsgs_valid hv with rfl | rfl | rfl
    · rw [net, net_quiet threeMsgs_quiet le_rfl]
      decide
    · exact absurd (Or.inl (by decide)) hin
    · rw [net]
      refine threeMsgs_net.1.symm ▸ ?_
      decide

theorem copies_agree_threeMsgs :
    (((l2PriceTable.state Tables.zeroRegs.reset threeMsgs 2109).odRam.ram.mem 2).toNat : ℤ) = 6 := by
  have hl : Loads 100000 Tables.zeroRegs threeMsgs 2 2100 :=
    loads_of_fresh (fun _ => rfl) rfl (by decide) (by decide) (by decide) (by decide) threeMsgs_quiet
  have hagree := copies_agree hl threeMsgs_spread (show 2100 ≤ 2109 by decide) fun t ht hv => by
    have := threeMsgs_valid hv
    omega
  exact ((hagree.1 2 (by decide)).2.1).trans threeMsgs_net.2

end ItchOrderBook.Pipeline
