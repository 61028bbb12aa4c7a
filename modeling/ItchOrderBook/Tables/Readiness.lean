import ItchOrderBook.Lib.Sweep
import ItchOrderBook.Rtl.L2PriceTable
import Mathlib.Data.Nat.Find
import Mathlib.Tactic.Ring

/-!
# When the RTL price table is ready

After reset, two counters sweep the share memories from the top address down, and after the
initialisation pulse a third one fills the lookup tables. The third runs freely from reset on, and
the flag for its end is set whenever it reads `2047`. The table reports that it is ready with its
lookup tables filled exactly if the counter does not read `2047` before the pulse, or if the tables,
which no reset clears, held the right contents from the start (`sound_iff`).
-/

namespace ItchOrderBook.Tables

open Rtl

/-! ### The share memories -/

section Ram

variable {r : ℕ → L2RamRegs} {ri : ℕ → L2RamIn} {q : L2RamRegs}

/-- The counter of the sweep runs down from the top address. -/
theorem ram_countdown (h0 : r 0 = q.reset) (hs : ∀ t, r (t + 1) = (r t).next (ri t)) :
    Countdown (fun t => (r t).rstInProgress) (fun t => (r t).count) where
  busy_zero := by rw [h0]; rfl
  count_zero := by rw [h0]; rfl
  busy_succ t := by rw [hs]; rfl
  count_succ t := by rw [hs]; rfl

theorem ram_rstDone_iff (h0 : r 0 = q.reset) (hs : ∀ t, r (t + 1) = (r t).next (ri t)) (t : ℕ) :
    (r t).rstDone = true ↔ 2048 ≤ t := by
  have hbusy : (r t).rstInProgress = true ↔ t < 2048 := (ram_countdown h0 hs).busy_iff t
  rw [L2RamRegs.rstDone, Bool.not_eq_true', ← Bool.not_eq_true, hbusy, not_lt]

/-- **The sweep clears every word**, whatever is written meanwhile. -/
theorem ram_zero (h0 : r 0 = q.reset) (hs : ∀ t, r (t + 1) = (r t).next (ri t)) {T : ℕ}
    (hquiet : ∀ t < T, (ri t).wea = false) (hT : 2048 ≤ T) (a : BitVec 11) :
    (r T).ram.mem a = 0 := by
  have hdown := ram_countdown h0 hs
  have hswept : (r 2048).ram.mem a = 0 := by
    refine hdown.swept (m := fun t => (r t).ram.mem) (fun t ht => ?_) a
    have hp : (r t).rstInProgress = true := (hdown.running ht).1
    simp only [hs, L2RamRegs.next, Sdpram.next, hp, if_true, Mem.write_true]
  have hhold := hold_eq (m := fun t => (r t).ram.mem) (n := 2048) (N := T)
    (fun t ht hlt => by
      have hp : (r t).rstInProgress = false := (hdown.done ht).1
      simp only [hs, L2RamRegs.next, Sdpram.next, hp, hquiet t hlt, Bool.false_eq_true, if_false,
        Mem.write_false])
    hT le_rfl
  exact (congrFun hhold a).trans hswept

end Ram

/-! ### The lookup tables -/

section Lut

variable {l : ℕ → LutRegs} {li : ℕ → LutIn} {q : LutRegs} {n : ℕ}

/-- Before the pulse the counter runs on from where it was. -/
theorem lut_count_before (h0 : l 0 = q.reset) (hs : ∀ t, l (t + 1) = (l t).next (li t))
    (hinit : ∀ t, (li t).initV = decide (t = n)) {t : ℕ} (ht : t ≤ n) :
    (l t).count = q.count + BitVec.ofNat 11 t ∧ (l t).initialized = false := by
  induction t with
  | zero =>
    rw [h0]
    exact ⟨(BitVec.add_zero _).symm, rfl⟩
  | succ t ih =>
    obtain ⟨hc, hi⟩ := ih (Nat.le_of_succ_le ht)
    have hne : (li t).initV = false := by
      rw [hinit]
      exact decide_eq_false (Nat.ne_of_lt ht)
    rw [hs]
    simp only [LutRegs.next, hne, hc, hi, Bool.or_self, Bool.false_eq_true, if_false, and_true]
    rw [BitVec.add_assoc, BitVec.ofNat_add]
    rfl

/-- From the pulse on the counter and the price run over the orderings and the prices. -/
theorem lut_count_after (hs : ∀ t, l (t + 1) = (l t).next (li t))
    (hinit : ∀ t, (li t).initV = decide (t = n)) (j : ℕ) :
    (l (n + 1 + j)).count = BitVec.ofNat 11 j ∧
      (l (n + 1 + j)).price = (li n).initPriceBase + BitVec.ofNat 32 (50 * j) ∧
      (l (n + 1 + j)).initialized = true := by
  induction j with
  | zero =>
    have hyes : (li n).initV = true := by rw [hinit, decide_eq_true rfl]
    rw [Nat.add_zero, hs]
    simp [LutRegs.next, hyes]
  | succ j ih =>
    obtain ⟨hc, hp, hi⟩ := ih
    have hne : (li (n + 1 + j)).initV = false := by
      rw [hinit]
      exact decide_eq_false (by omega)
    rw [← Nat.add_assoc, hs]
    simp only [LutRegs.next, hne, hc, hp, hi, Bool.true_or, Bool.false_eq_true, if_false, and_true]
    constructor
    · exact (BitVec.ofNat_add j 1).symm
    · rw [Nat.mul_succ, BitVec.ofNat_add, BitVec.add_assoc]
      rfl

/-- The flag for the end is set if the counter has read its top value. -/
theorem lut_initDone_iff (h0 : l 0 = q.reset) (hs : ∀ t, l (t + 1) = (l t).next (li t)) (t : ℕ) :
    (l t).initDone = true ↔ ∃ t' < t, (l t').count = BitVec.allOnes 11 := by
  induction t with
  | zero =>
    rw [h0]
    simp [LutRegs.reset]
  | succ t ih =>
    rw [hs]
    simp only [LutRegs.next, Bool.or_eq_true, ih, decide_eq_true_eq]
    constructor
    · rintro (⟨t', hlt, he⟩ | he)
      · exact ⟨t', Nat.lt_succ_of_lt hlt, he⟩
      · exact ⟨t, Nat.lt_succ_self t, he⟩
    · rintro ⟨t', hlt, he⟩
      rcases Nat.lt_succ_iff_lt_or_eq.1 hlt with hlt | rfl
      · exact .inl ⟨t', hlt, he⟩
      · exact .inr he

/-- The counter does not read its top value up to the pulse. -/
def Fresh (q : LutRegs) (n : ℕ) : Prop := q.count.toNat + n < 2047

instance (q : LutRegs) (n : ℕ) : Decidable (Fresh q n) := inferInstanceAs (Decidable (_ < _))

theorem lut_initDone_pulse (h0 : l 0 = q.reset) (hs : ∀ t, l (t + 1) = (l t).next (li t))
    (hinit : ∀ t, (li t).initV = decide (t = n)) : (l (n + 1)).initDone = false ↔ Fresh q n := by
  have htop : ∀ t ≤ n, ((l t).count = BitVec.allOnes 11 ↔ (q.count.toNat + t) % 2048 = 2047) := by
    intro t ht
    rw [(lut_count_before h0 hs hinit ht).1, ← BitVec.toNat_inj, BitVec.toNat_add,
      BitVec.toNat_ofNat, BitVec.toNat_allOnes]
    omega
  rw [← Bool.not_eq_true, lut_initDone_iff h0 hs, Fresh]
  constructor
  · intro h
    by_contra hge
    refine h ⟨2047 - q.count.toNat, by omega, (htop _ (by omega)).2 ?_⟩
    have := q.count.isLt
    omega
  · rintro h ⟨t, hlt, he⟩
    have := (htop t (Nat.le_of_lt_succ hlt)).1 he
    omega

/-- The tables hold the ordering of each price address and the price of each ordering. -/
def LutHolds (base : ℕ) (l : LutRegs) : Prop :=
  ∀ k < 2048,
    l.priceAddrToOrdering.mem (priceAddr (BitVec.ofNat 32 (base + 50 * k))) = BitVec.ofNat 11 k ∧
    l.orderingToPrice.mem (BitVec.ofNat 11 k) = BitVec.ofNat 32 (base + 50 * k)

/-- The address bits tell the prices of the window apart. -/
theorem priceAddr_inj {base j k : ℕ} (hbase : base % 50 = 0) (hj : j < 2048) (hk : k < 2048)
    (h : priceAddr (BitVec.ofNat 32 (base + 50 * j)) =
      priceAddr (BitVec.ofNat 32 (base + 50 * k))) : j = k := by
  have := congrArg BitVec.toNat h
  simp only [priceAddr, BitVec.extractLsb'_toNat, BitVec.toNat_ofNat] at this
  omega

/-- The tables are not written before the pulse, nor once the flag is set. -/
theorem lut_mem_hold (hs : ∀ t, l (t + 1) = (l t).next (li t)) {T T' : ℕ} (hle : T ≤ T')
    (hwea : ∀ t, T ≤ t → t < T' → (l t).wea = false) :
    (l T').priceAddrToOrdering.mem = (l T).priceAddrToOrdering.mem ∧
      (l T').orderingToPrice.mem = (l T).orderingToPrice.mem := by
  constructor
  · refine hold_eq (m := fun t => (l t).priceAddrToOrdering.mem) (fun t ht hlt => ?_) hle le_rfl
    simp only [hs, LutRegs.next, Tdpram.next, hwea t ht hlt, Mem.write_false]
  · refine hold_eq (m := fun t => (l t).orderingToPrice.mem) (fun t ht hlt => ?_) hle le_rfl
    simp only [hs, LutRegs.next, Sdpram.next, hwea t ht hlt, Mem.write_false]

/-- The flag is set in the cycles after the fill only, if it was not set at the pulse. -/
theorem lut_initDone_after (h0 : l 0 = q.reset) (hs : ∀ t, l (t + 1) = (l t).next (li t))
    (hinit : ∀ t, (li t).initV = decide (t = n)) (hf : Fresh q n) (j : ℕ) :
    (l (n + 1 + j)).initDone = true ↔ 2048 ≤ j := by
  have hpulse := (lut_initDone_pulse h0 hs hinit).2 hf
  rw [← Bool.not_eq_true, lut_initDone_iff h0 hs] at hpulse
  rw [lut_initDone_iff h0 hs]
  have htop : ∀ i, (l (n + 1 + i)).count = BitVec.allOnes 11 ↔ i % 2048 = 2047 := by
    intro i
    rw [(lut_count_after hs hinit i).1, ← BitVec.toNat_inj, BitVec.toNat_ofNat,
      BitVec.toNat_allOnes]
  constructor
  · rintro ⟨t, hlt, he⟩
    have hge : n + 1 ≤ t := by
      by_contra hlt'
      exact hpulse ⟨t, not_le.1 hlt', he⟩
    obtain ⟨i, rfl⟩ := Nat.exists_eq_add_of_le hge
    have := (htop i).1 he
    omega
  · intro hj
    exact ⟨n + 1 + 2047, by omega, (htop 2047).2 rfl⟩

/-- **The fill reaches every address**, if the flag was not set before it began. -/
theorem lut_filled (h0 : l 0 = q.reset) (hs : ∀ t, l (t + 1) = (l t).next (li t))
    (hinit : ∀ t, (li t).initV = decide (t = n)) (hf : Fresh q n)
    (hbase : (li n).initPriceBase.toNat % 50 = 0) {t : ℕ} (ht : n < t)
    (hdone : (l t).initDone = true) : LutHolds (li n).initPriceBase.toNat (l t) := by
  obtain ⟨j, rfl⟩ := Nat.exists_eq_add_of_le (show n + 1 ≤ t from ht)
  have hj := (lut_initDone_after h0 hs hinit hf j).1 hdone
  have hwea : ∀ i, (l (n + 1 + i)).wea = decide (i < 2048) := by
    intro i
    have hd := lut_initDone_after h0 hs hinit hf i
    rw [LutRegs.wea, (lut_count_after hs hinit i).2.2, Bool.true_and]
    cases hi : (l (n + 1 + i)).initDone with
    | true => simpa using hd.1 hi
    | false =>
      have hlt : i < 2048 := by
        by_contra hge
        rw [hd.2 (not_lt.1 hge)] at hi
        cases hi
      simpa using hlt
  have hprice : ∀ i, (l (n + 1 + i)).price =
      BitVec.ofNat 32 ((li n).initPriceBase.toNat + 50 * i) := by
    intro i
    rw [(lut_count_after hs hinit i).2.1, BitVec.ofNat_add, BitVec.ofNat_toNat,
      BitVec.setWidth_eq]
  obtain ⟨hpa, hop⟩ := lut_mem_hold hs (show n + 1 + 2048 ≤ n + 1 + j by omega) (by
    intro t ht' _
    obtain ⟨i, rfl⟩ := Nat.exists_eq_add_of_le (show n + 1 ≤ t by omega)
    rw [hwea, decide_eq_false]
    omega)
  intro k hk
  rw [hpa, hop]
  constructor
  · refine sweep_eq (m := fun i => (l (n + 1 + i)).priceAddrToOrdering.mem)
      (fun i => priceAddr (BitVec.ofNat 32 ((li n).initPriceBase.toNat + 50 * i)))
      (fun i => BitVec.ofNat 11 i) (fun i hi => ?_)
      (fun i hi i' hi' he => priceAddr_inj hbase hi hi' he) le_rfl hk
    have hw : (l (n + 1 + i)).wea = true := by rw [hwea, decide_eq_true hi]
    simp only [← Nat.add_assoc, hs, LutRegs.next, Tdpram.next, hw, if_true, hprice,
      (lut_count_after hs hinit i).1, Mem.write_true, Mem.write_false]
    rfl
  · refine sweep_eq (m := fun i => (l (n + 1 + i)).orderingToPrice.mem)
      (fun i => BitVec.ofNat 11 i)
      (fun i => BitVec.ofNat 32 ((li n).initPriceBase.toNat + 50 * i)) (fun i hi => ?_)
      (fun i hi i' hi' he => ?_) le_rfl hk
    · have hw : (l (n + 1 + i)).wea = true := by rw [hwea, decide_eq_true hi]
      simp only [← Nat.add_assoc, hs, LutRegs.next, Sdpram.next, hw, hprice,
        (lut_count_after hs hinit i).1, Mem.write_true]
    · have := congrArg BitVec.toNat he
      simp only [BitVec.toNat_ofNat, Set.mem_Iio] at this hi hi'
      omega

/-- If the flag was set at the pulse, the tables are never written. -/
theorem lut_unwritten (h0 : l 0 = q.reset) (hs : ∀ t, l (t + 1) = (l t).next (li t))
    (hinit : ∀ t, (li t).initV = decide (t = n)) (hf : ¬ Fresh q n) (t : ℕ) :
    (l t).priceAddrToOrdering.mem = q.priceAddrToOrdering.mem ∧
      (l t).orderingToPrice.mem = q.orderingToPrice.mem := by
  have hdone : (l (n + 1)).initDone = true := by
    rw [← Bool.not_eq_false, lut_initDone_pulse h0 hs hinit]
    exact hf
  have hwea : ∀ t, (l t).wea = false := by
    intro t
    rcases Nat.lt_or_ge n t with hlt | hle
    · have hd : (l t).initDone = true := by
        rw [lut_initDone_iff h0 hs] at hdone ⊢
        obtain ⟨t', ht', he⟩ := hdone
        exact ⟨t', by omega, he⟩
      rw [LutRegs.wea, hd, Bool.not_true, Bool.and_false]
    · rw [LutRegs.wea, (lut_count_before h0 hs hinit hle).2, Bool.false_and]
  have hhold := lut_mem_hold hs (Nat.zero_le t) fun i _ _ => hwea i
  rw [h0] at hhold
  exact hhold

end Lut

/-! ### The price table -/

/-- Both tables and both share memories are ready for the first message. -/
structure Loaded (base : ℕ) (q : L2Regs) : Prop where
  lut : LutHolds base q.lut
  paRam : ∀ a, q.paRam.ram.mem a = 0
  odRam : ∀ a, q.odRam.ram.mem a = 0

/-- **Readiness is sound** in the run that begins with the release of reset at `q` and has the
initialisation pulse in cycle `n`: whenever the table reports that it is ready, after the pulse and
before any message, the tables and the memories are loaded. -/
def Sound (q : L2Regs) (u : ℕ → L2In) (n : ℕ) : Prop :=
  ∀ t, n < t → (∀ t' < t, (u t').decBook.valid = false) →
    (l2PriceTable.out (l2PriceTable.state q.reset u t) (u t)).ready = true →
      Loaded (u n).initPriceBase.toNat (l2PriceTable.state q.reset u t)

section Table

variable {q : L2Regs} {u : ℕ → L2In} {n : ℕ}

/-- No message is in the pipeline while none has arrived. -/
theorem decBook_quiet {t : ℕ} (hquiet : ∀ t' < t, (u t').decBook.valid = false) :
    (l2PriceTable.state q.reset u t).decBook.valid = false := by
  cases t with
  | zero => rfl
  | succ t =>
    have hv := hquiet t (Nat.lt_succ_self t)
    simp [Circuit.state, l2PriceTable, L2Regs.next, L2Regs.decBookNext, hv]

/-- The table is ready once the memories are swept and the flag is set. -/
theorem ready_iff (t : ℕ) :
    (l2PriceTable.out (l2PriceTable.state q.reset u t) (u t)).ready = true ↔
      2048 ≤ t ∧ (l2PriceTable.state q.reset u t).lut.initDone = true := by
  have hpa := ram_rstDone_iff (r := fun t => (l2PriceTable.state q.reset u t).paRam) (q := q.paRam)
    rfl (fun _ => rfl) t
  have hod := ram_rstDone_iff (r := fun t => (l2PriceTable.state q.reset u t).odRam) (q := q.odRam)
    rfl (fun _ => rfl) t
  simp only [l2PriceTable, L2Regs.out, L2Regs.ready, Bool.and_eq_true] at hpa hod ⊢
  rw [hpa, hod, and_self]

/-- A ready table that has seen no message has both share memories clear. -/
theorem loaded_of_ready {base t : ℕ} (hquiet : ∀ t' < t, (u t').decBook.valid = false)
    (hready : (l2PriceTable.out (l2PriceTable.state q.reset u t) (u t)).ready = true)
    (hlut : LutHolds base (l2PriceTable.state q.reset u t).lut) :
    Loaded base (l2PriceTable.state q.reset u t) := by
  have hge := ((ready_iff t).1 hready).1
  have hwea : ∀ t' < t, (l2PriceTable.state q.reset u t').decBook.valid = false :=
    fun t' ht' => decBook_quiet fun i hi => hquiet i (hi.trans ht')
  constructor
  · exact hlut
  · exact ram_zero (r := fun t => (l2PriceTable.state q.reset u t).paRam) (q := q.paRam) rfl
      (fun _ => rfl) hwea hge
  · exact ram_zero (r := fun t => (l2PriceTable.state q.reset u t).odRam) (q := q.odRam) rfl
      (fun _ => rfl) hwea hge

/-- With the flag not set at the pulse, readiness is sound. -/
theorem sound_of_fresh (hinit : ∀ t, (u t).initV = decide (t = n))
    (hbase : (u n).initPriceBase.toNat % 50 = 0) (hf : Fresh q.lut n) : Sound q u n := by
  intro t ht hquiet hready
  have hdone := ((ready_iff t).1 hready).2
  exact loaded_of_ready hquiet hready
    (lut_filled (l := fun t => (l2PriceTable.state q.reset u t).lut) (q := q.lut) rfl
      (fun _ => rfl) hinit hf hbase ht hdone)

/-- With the flag set at the pulse, readiness is sound if the tables were right before. -/
theorem sound_of_lutHolds (hinit : ∀ t, (u t).initV = decide (t = n)) (hf : ¬ Fresh q.lut n)
    (hl : LutHolds (u n).initPriceBase.toNat q.lut) : Sound q u n := by
  intro t _ hquiet hready
  refine loaded_of_ready hquiet hready fun k hk => ?_
  obtain ⟨hpa, hop⟩ := lut_unwritten (l := fun t => (l2PriceTable.state q.reset u t).lut)
    (q := q.lut) rfl (fun _ => rfl) hinit hf t
  rw [hpa, hop]
  exact hl k hk

/-- With the flag set at the pulse, the tables of a ready table are those that were there. -/
theorem lutHolds_of_sound (hinit : ∀ t, (u t).initV = decide (t = n)) (hf : ¬ Fresh q.lut n)
    (hwait : ∀ t, (u t).decBook.valid = true → ∃ t' ≤ t, n < t' ∧
      (l2PriceTable.out (l2PriceTable.state q.reset u t') (u t')).ready = true)
    (hsound : Sound q u n) : LutHolds (u n).initPriceBase.toNat q.lut := by
  have hdone : ∀ t, n < t → (l2PriceTable.state q.reset u t).lut.initDone = true := by
    intro t ht
    have hpulse := lut_initDone_pulse (l := fun t => (l2PriceTable.state q.reset u t).lut)
      (q := q.lut) rfl (fun _ => rfl) hinit
    have hiff := lut_initDone_iff (l := fun t => (l2PriceTable.state q.reset u t).lut)
      (q := q.lut) rfl (fun _ => rfl)
    have hd := mt hpulse.1 hf
    rw [Bool.not_eq_false] at hd
    obtain ⟨t', ht', he⟩ := (hiff _).1 hd
    exact (hiff t).2 ⟨t', by omega, he⟩
  -- the first cycle after the pulse in which the table is ready
  have hex : ∃ t, n < t ∧
      (l2PriceTable.out (l2PriceTable.state q.reset u t) (u t)).ready = true :=
    ⟨max 2048 (n + 1), by omega, (ready_iff _).2 ⟨by omega, hdone _ (by omega)⟩⟩
  classical
  obtain ⟨hlt, hready⟩ := Nat.find_spec hex
  have hquiet : ∀ t' < Nat.find hex, (u t').decBook.valid = false := by
    intro t' ht'
    by_contra hv
    obtain ⟨t'', hle, hn, hr⟩ := hwait t' (by simpa using hv)
    exact Nat.find_min hex (lt_of_le_of_lt hle ht') ⟨hn, hr⟩
  have hload := (hsound _ hlt hquiet hready).lut
  obtain ⟨hpa, hop⟩ := lut_unwritten (l := fun t => (l2PriceTable.state q.reset u t).lut)
    (q := q.lut) rfl (fun _ => rfl) hinit hf (Nat.find hex)
  intro k hk
  have := hload k hk
  rwa [hpa, hop] at this

/-- **When readiness is sound**, in a run with one initialisation pulse, at a price base that is a
multiple of `50`, in which no message comes before the table has reported that it is ready: exactly if
the free-running counter does not read `2047` from the release of reset up to the pulse, or if the
lookup tables held the right contents when reset was released. -/
theorem sound_iff (q : L2Regs) (u : ℕ → L2In) (n : ℕ)
    (hinit : ∀ t, (u t).initV = decide (t = n)) (hbase : (u n).initPriceBase.toNat % 50 = 0)
    (hwait : ∀ t, (u t).decBook.valid = true → ∃ t' ≤ t, n < t' ∧
      (l2PriceTable.out (l2PriceTable.state q.reset u t') (u t')).ready = true) :
    Sound q u n ↔
      q.lut.count.toNat + n < 2047 ∨ LutHolds (u n).initPriceBase.toNat q.lut := by
  constructor
  · intro hsound
    by_cases hf : Fresh q.lut n
    · exact .inl hf
    · exact .inr (lutHolds_of_sound hinit hf hwait hsound)
  · rintro (hf | hl)
    · exact sound_of_fresh hinit hbase hf
    · by_cases hf : Fresh q.lut n
      · exact sound_of_fresh hinit hbase hf
      · exact sound_of_lutHolds hinit hf hl

end Table

/-- Registers that are all zero before reset. -/
def zeroRegs : L2Regs where
  initialized := false
  priceBase := 0
  priceMax := 0
  decBook := .zero
  existWen := false
  existWaddr := 0
  existDin := false
  existArr _ := false
  bid := ⟨false, false, 0, fun _ => ⟨false, 0⟩, 0⟩
  off := ⟨false, false, 0, fun _ => ⟨false, 0⟩, 0⟩
  paRam := ⟨⟨fun _ => 0, 0⟩, false, 0⟩
  odRam := ⟨⟨fun _ => 0, 0⟩, false, 0⟩
  lut := ⟨false, false, 0, 0, ⟨fun _ => 0, 0, 0⟩, ⟨fun _ => 0, 0⟩⟩

/-- The inputs of a run without messages, with the initialisation pulse in cycle `n`. -/
def initAt (n t : ℕ) : L2In := ⟨decide (t = n), 100000, .zero, false, 0, false, 0⟩

/-- The pulse of the testbench, soon after reset. -/
theorem sound_iff_early : Sound zeroRegs (initAt 2) 2 :=
  (sound_iff zeroRegs (initAt 2) 2 (fun _ => rfl) (by decide)
    (fun _ h => absurd h Bool.false_ne_true)).2
    (.inl (by decide))

/-- A pulse `2047` cycles after reset: the tables are never filled, and the table is ready. -/
theorem not_sound_late :
    (∀ t, (initAt 2047 t).initV = decide (t = 2047)) ∧
      (initAt 2047 2047).initPriceBase.toNat % 50 = 0 ∧
      (initAt 2047 2047).initPriceBase.toNat + 50 * 2047 < 2 ^ 32 ∧
      ¬ Sound zeroRegs (initAt 2047) 2047 := by
  refine ⟨fun _ => rfl, by decide, by decide, fun hsound => ?_⟩
  have hl := lutHolds_of_sound (fun _ => rfl) (by decide)
    (fun _ h => absurd h Bool.false_ne_true) hsound
  have hone := (hl 1 (by decide)).1
  exact absurd hone (by decide)

end ItchOrderBook.Tables
