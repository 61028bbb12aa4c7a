import ItchOrderBook.Pipeline.Phases

/-!
# Messages at the book behind the order table

A message that the live orders take, at a price on a tick, finds the halves showing the best levels and
the table settled. The halves show the best levels again, or one of them asks for the next one, which the
search has aimed at (`Phase.message`). The order behind a delete may come while the refill for the delete
is under way; it is then held for a cycle (`Phase.hold`, `Held.idle`). No error is raised.
-/

namespace ItchOrderBook.Pipeline

open Book (OrderMap Orders Placed Positive ladder sharesAt)
open Ref (BBOEntry BookMsg BookResult Params)
open Rtl (Bbo BookIn BookRegs DecBook HalfIn HalfRegs)

/-! ### The message at the halves -/

/-- The orders take the message, at a price on a tick; they then fit the table and the words, and no
level past the window is to be shown. -/
structure Takes (base : ℕ) (om om' : OrderMap) (d : DecBook) : Prop where
  step : ∃ msg : BookMsg, om.step msg = some (orderMsg d, om') ∧ msg.SharesPos
  tick : (orderMsg d).price % 50 = 0
  placed : Placed {} false base om'.live
  fits : Fits om'.live
  inRange : ¬ ((shown base 2 om.live d.isBuy).processMsg {} (orderMsg d)).1.IsErr

section Bbo

variable {base n : ℕ} {om om' : OrderMap} {s : Stage} {q : BookRegs} {i : BookIn} {d : DecBook}
  {c : Bool}

/-- A half raises no error in a cycle without a message, if it waits for a refill word that comes. -/
theorem half_error_idle {h : HalfRegs} {j : HalfIn} (hv : j.decBook.valid = false)
    (hu : j.updt.valid = true → h.initialized = true ∧ h.updting = true) :
    (HalfRegs.out c h j).error = false := by
  cases hw : j.updt.valid with
  | false => simp [HalfRegs.out, HalfRegs.errorState, HalfRegs.errorInit, HalfRegs.errorUpdt, hv, hw]
  | true =>
    obtain ⟨hinit, hupd⟩ := hu hw
    simp [HalfRegs.out, HalfRegs.errorState, HalfRegs.errorInit, HalfRegs.errorUpdt, hv, hw, hinit, hupd]

theorem updt_valid (hs : Signals s q) (c : Bool) : (halfIn q i c).updt.valid = decide (s = .filled c) := by
  rw [halfIn_updt]
  exact hs.filled c

theorem half_error_of_signals (hs : Signals s q)
    (hinit : ∀ c, s = .filled c → (halfOf q c).initialized = true) (c : Bool)
    (hv : (halfIn q i c).decBook.valid = false) :
    (HalfRegs.out c (halfOf q c) (halfIn q i c)).error = false := by
  refine half_error_idle hv fun h => ?_
  rw [updt_valid hs, decide_eq_true_iff] at h
  refine ⟨hinit c h, ?_⟩
  rw [hs.updting, h]
  exact decide_eq_true rfl

theorem bbo_error_idle (hs : Signals s q)
    (hinit : ∀ c, s = .filled c → (halfOf q c).initialized = true) (hb : q.bboDecBook.valid = false) :
    (q.bbo.out (q.bboIn i)).error = false := by
  rw [error_eq, half_error_of_signals hs hinit true (halfIn_idle hb true),
    half_error_of_signals hs hinit false (halfIn_idle hb false)]
  rfl

/-- The half of the other side sees no message. -/
theorem halfIn_other (hb : q.bboDecBook = d) (hc : d.isBuy ≠ c) : (halfIn q i c).decBook.valid = false := by
  rw [halfIn_decBook, hb]
  have : (d.isBuy == c) = false := by simpa using hc
  simp [this]

theorem halfIn_same (hb : q.bboDecBook = d) (hv : d.valid = true) : (halfIn q i d.isBuy).decBook = d := by
  rw [halfIn_decBook, hb, hv, beq_self_eq_true, Bool.true_and, ← hv]

/-- The error of the halves for a message is that of the half of its side. -/
theorem bbo_error_message (hs : Signals .rest q) (hb : q.bboDecBook = d) :
    (q.bbo.out (q.bboIn i)).error =
      (HalfRegs.out d.isBuy (halfOf q d.isBuy) (halfIn q i d.isBuy)).error := by
  have hother : ∀ c, d.isBuy ≠ c → (HalfRegs.out c (halfOf q c) (halfIn q i c)).error = false :=
    fun c hc => half_error_of_signals hs (fun _ h => nomatch h) c (halfIn_other hb hc)
  rw [error_eq]
  cases hside : d.isBuy
  · rw [hother true (by rw [hside]; exact Bool.false_ne_true), Bool.false_or]
  · rw [hother false (by rw [hside]; exact Bool.noConfusion), Bool.or_false]

/-- The message at the half of its side. -/
theorem halves_message (hs : Signals .rest q) (hh : ∀ c, Holds c (halfOf q c) (shown base 2 om.live c))
    (hp : Placed {} false base om.live) (hb : q.bboDecBook = d) (hv : d.valid = true)
    {msg : BookMsg} (h : om.step msg = some (orderMsg d, om')) (hm : msg.SharesPos)
    (hf : Fits om'.live) (hi : i.initV = false)
    (hflags : d.isAdd = false → Flagged (halfOf q d.isBuy) (shown base 2 om.live d.isBuy)) :
    HalfNext base om.live om'.live d.isBuy (halfOf (q.next i) d.isBuy) d.isAdd
        (q.bbo.out (q.bboIn i)).error ∧
      ((q.bbo.out (q.bboIn i)).error = true ↔
        ((shown base 2 om.live d.isBuy).processMsg {} (orderMsg d)).1.IsErr) := by
  have hd := halfIn_same (i := i) hb hv
  have hpos : 1 ≤ d.shares.toNat := by
    have := OrderMap.step_shares_pos h hp.positive hm
    simp only [orderMsg] at this
    omega
  have hmessage : Message (halfIn q i d.isBuy) := by
    refine ⟨(halfIn_initV q i _).trans hi, ?_, updt_valid hs _, ?_⟩
    · rw [hd, hv]
    · rw [hd]
      exact hpos
  have hhalf := message_half (i := halfIn q i d.isBuy) (c := d.isBuy) (hd.symm ▸ h) hp.positive hm hf
    hmessage (by rw [hd]) (hh d.isBuy) (hs.updting d.isBuy) (by rw [hd]; exact hflags)
  rw [hd] at hhalf
  rw [bbo_error_message hs hb, halfOf_next]
  exact hhalf

/-- The half of the other side stays. -/
theorem halves_other (hs : Signals .rest q) (hh : ∀ c, Holds c (halfOf q c) (shown base 2 om.live c))
    (hp : Placed {} false base om.live) (hb : q.bboDecBook = d) {msg : BookMsg}
    (h : om.step msg = some (orderMsg d, om')) (hm : msg.SharesPos) (hi : i.initV = false)
    (hc : d.isBuy ≠ c) : Holds c (halfOf (q.next i) c) (shown base 2 om'.live c) ∧
      (halfOf (q.next i) c).updtReq = false ∧ (halfOf (q.next i) c).updting = false := by
  have hladder : ladder om'.live c = ladder om.live c := Book.ladder_step_other h hp.positive hm hc
  obtain ⟨hh', hupd, hreq, -⟩ := (hh c).next_idle
    ⟨(halfIn_initV q i c).trans hi, halfIn_other hb hc, updt_valid hs c⟩
  rw [halfOf_next, shown_congr hladder]
  exact ⟨hh', hreq, hupd.trans (hs.updting c)⟩

/-- The stage after a message, and what has brought it about. -/
inductive Asks (base : ℕ) (d d' : Orders) (msg : DecBook) : Stage → Prop
  | rest : Asks base d d' msg .rest
  | asked (hr : 0 < (shown base 1 d' msg.isBuy).outsideSharesInRange) (ha : msg.isAdd = false)
    (hnext : (ladder d' msg.isBuy)[1]? = (ladder d msg.isBuy)[2]?) :
    Asks base d d' msg (.asked msg.isBuy)

/-- **A message at the halves**, in a cycle in which no refill is under way. -/
theorem bbo_message (hs : Signals .rest q) (hh : ∀ c, Holds c (halfOf q c) (shown base 2 om.live c))
    (hp : Placed {} false base om.live) (hb : q.bboDecBook = d) (hv : d.valid = true)
    {msg : BookMsg} (h : om.step msg = some (orderMsg d, om')) (hm : msg.SharesPos)
    (hf : Fits om'.live) (hr : ¬ ((shown base 2 om.live d.isBuy).processMsg {} (orderMsg d)).1.IsErr)
    (hi : i.initV = false)
    (hflags : d.isAdd = false → Flagged (halfOf q d.isBuy) (shown base 2 om.live d.isBuy)) :
    (q.bbo.out (q.bboIn i)).error = false ∧ ∃ s, Asks base om.live om'.live d s ∧
      Signals s (q.next i) ∧ ∀ c, Holds c (halfOf (q.next i) c) (shown base (s.depth c) om'.live c) := by
  obtain ⟨hnext, herr⟩ := halves_message hs hh hp hb hv h hm hf hi hflags
  have hother : ∀ c, d.isBuy ≠ c → _ := fun c => halves_other (c := c) hs hh hp hb h hm hi
  have hsought : ∀ c, (searchOf (q.next i).l2 c).updtReq = false := fun c => by
    rw [searchOf_next]
    exact hs.updtReq c
  have hfilled : ∀ c, (searchOf (q.next i).l2 c).updtReq2 = false := fun c => by
    rw [searchOf_next]
    exact hs.sought c
  have hing : (q.next i).updtIng = false := updtIngNext_eq hs
  refine ⟨by rw [← Bool.not_eq_true, herr]; exact hr, ?_⟩
  rcases hnext with ⟨hholds, hupd, hreq, -⟩ | ⟨hholds, hupd, hreq, -, hin, ha, hnext⟩ | herr'
  · refine ⟨.rest, .rest, ⟨fun c => ?_, fun c => ?_, hsought, hfilled, hing⟩, fun c => ?_⟩
    · by_cases hc : d.isBuy = c
      · exact hc ▸ hreq
      · exact (hother c hc).2.1
    · by_cases hc : d.isBuy = c
      · exact hc ▸ hupd
      · exact (hother c hc).2.2
    · by_cases hc : d.isBuy = c
      · exact hc ▸ hholds
      · exact (hother c hc).1
  · refine ⟨.asked d.isBuy, .asked hin ha hnext, ⟨fun c => ?_, fun c => ?_, hsought, hfilled, hing⟩,
      fun c => ?_⟩
    · by_cases hc : d.isBuy = c
      · rw [← hc, hreq]
        exact (decide_eq_true rfl).symm
      · rw [(hother c hc).2.1]
        exact (decide_eq_false fun h => hc (Stage.asked.inj h)).symm
    · by_cases hc : d.isBuy = c
      · rw [← hc, hupd]
        exact (decide_eq_true rfl).symm
      · rw [(hother c hc).2.2]
        exact (decide_eq_false fun h => hc (Option.some.inj h)).symm
    · by_cases hc : d.isBuy = c
      · rw [← hc, Stage.depth_side rfl]
        exact hholds
      · rw [Stage.depth_other rfl hc]
        exact (hother c hc).1
  · rw [herr] at herr'
    exact absurd herr' hr

end Bbo

/-! ### The message at the book -/

/-- No error is raised in a cycle. -/
structure NoError (q : BookRegs) (i : BookIn) : Prop where
  l2 : q.l2.error (q.l2In i) = false
  bbo : (q.bbo.out (q.bboIn i)).error = false
  decUpdt : q.errorDecUpdt = false

/-- No refill is under way and no order is held. -/
structure Calm (q : BookRegs) : Prop where
  signals : Signals .rest q
  held : q.decBookUpdt.valid = false

/-- The order behind a delete is held, as its message has found a refill under way. -/
structure Held (base : ℕ) (om om' : OrderMap) (d : DecBook) (q : BookRegs) : Prop where
  takes : Takes base om om' d
  replace : d.msgType = .replace
  valid : d.valid = true
  placed : Placed {} false base om.live
  table : Settles base (sharesAt om'.live) 2 q.l2
  signals : Signals .rest q
  halves (c : Bool) : Holds c (halfOf q c) (shown base 2 om.live c)
  held : q.decBookUpdt = d

section Book

variable {base n : ℕ} {om om' : OrderMap} {s : Stage} {q : BookRegs} {i : BookIn} {d : DecBook}
  {c : Bool}

theorem l2_error_idle (hv : q.lookup.valid = false) : q.l2.error (q.l2In i) = false := by
  have herr : q.l2.error (q.l2In i) =
      (q.lookup.valid && (!q.l2.initialized || decide (q.lookup.price % 50 ≠ 0))) := rfl
  rw [herr, hv, Bool.false_and]

/-- The table raises its error for a price off the tick. -/
theorem l2_error_iff (hc : Config base q.l2) (hv : q.lookup.valid = true) :
    q.l2.error (q.l2In i) = true ↔ (orderMsg q.lookup).price % 50 ≠ 0 := by
  have herr : q.l2.error (q.l2In i) =
      (q.lookup.valid && (!q.l2.initialized || decide (q.lookup.price % 50 ≠ 0))) := rfl
  have hmod : (q.lookup.price % 50).toNat = q.lookup.price.toNat % 50 := BitVec.toNat_umod
  have hzero : (0 : BitVec 32).toNat = 0 := rfl
  rw [herr, hv, hc.initialized, Bool.not_true, Bool.false_or, Bool.true_and, decide_eq_true_iff, Ne,
    ← BitVec.toNat_inj, hmod, hzero]
  dsimp only [orderMsg]
  omega

theorem decUpdt_of_held (h : q.decBookUpdt.valid = false) : q.release = false ∧ q.errorDecUpdt = false := by
  have hrel : q.release = false := by
    rw [BookRegs.release, h]
    rfl
  exact ⟨hrel, by rw [BookRegs.errorDecUpdt, hrel]; rfl⟩

/-- No error is raised in a cycle without a message. -/
theorem Phase.noError_idle (h : Phase base om.live n s q) (hv : q.lookup.valid = false) :
    NoError q i where
  l2 := l2_error_idle hv
  bbo := bbo_error_idle h.signals (fun c _ => (h.halves c).initialized) (h.bboDecBook hv)
  decUpdt := (decUpdt_of_held h.held).2

theorem Calm.bboDecBook (h : Calm q) : q.bboDecBook = q.lookup := by
  have hing : q.updtIng = false := h.signals.updtIng
  rw [BookRegs.bboDecBook, (decUpdt_of_held h.held).1, hing]
  rfl

theorem Calm.held_next (h : Calm q) : (q.next i).decBookUpdt.valid = false := by
  have hing : q.updtIng = false := h.signals.updtIng
  have hnext : (q.next i).decBookUpdt = q.decBookUpdtNext := rfl
  rw [hnext, BookRegs.decBookUpdtNext, (decUpdt_of_held h.held).1, hing]
  rfl

/-- A cycle without a message. -/
theorem Calm.next (h : Calm q) (hv : q.lookup.valid = false) : Calm (q.next i) :=
  ⟨h.signals.next (h.bboDecBook.symm ▸ hv), h.held_next⟩

theorem Calm.noError (h : Calm q) (hv : q.lookup.valid = false) : NoError q i where
  l2 := l2_error_idle hv
  bbo := bbo_error_idle h.signals (fun _ hf => nomatch hf) (h.bboDecBook.symm ▸ hv)
  decUpdt := (decUpdt_of_held h.held).2

theorem Phase.calm (h : Phase base om.live n .rest q) : Calm q := ⟨h.signals, h.held⟩

/-- The halves see nothing while a refill is under way. -/
theorem Phase.bboDecBook_busy (h : Phase base om.live n (.filled c) q) : q.bboDecBook.valid = false := by
  have hing : q.updtIng = true := h.signals.updtIng
  rw [BookRegs.bboDecBook, (decUpdt_of_held h.held).1, hing]
  rfl

/-- The table takes the message. -/
theorem Phase.table_message (h : Phase base om.live n s q) (hn : 3 ≤ n) (ht : Takes base om om' q.lookup)
    (hv : q.lookup.valid = true) (hi : i.initV = false) : Settles base (sharesAt om'.live) 2 (q.next i).l2 := by
  obtain ⟨msg, hstep, hm⟩ := ht.step
  have htable := h.table
  rw [Nat.sub_eq_zero_of_le hn] at htable
  have hsize : ({} : Params).l2MemSize = 2048 := rfl
  exact Table.step (i := q.l2In i) hsize hstep h.placed.positive hm ht.tick ht.fits.sharesAt htable hv hi

/-- The search has found what a half asks for. -/
theorem Phase.fetch_message (h : Phase base om.live n .rest q) (ht : Takes base om om' d)
    (hready : d.isAdd = false → 5 ≤ n) {s : Stage} (ha : Asks base om.live om'.live d s) :
    Fetch base om'.live (q.next i) s := by
  rcases ha with - | ⟨hr, ha, hnext⟩
  · trivial
  · have hn := hready ha
    have hc := h.table.config
    obtain ⟨x, k, hx, hk, hxk, hcov⟩ := exists_next hc.tick ht.placed hr
    have hx2 := hnext ▸ hx
    obtain ⟨y, j, hy, hj, hyj⟩ := exists_second hc.tick h.placed hx2 hcov
    refine ⟨x, k, ⟨hx, hk, hxk⟩, ?_⟩
    have htable := h.table
    rw [Nat.sub_eq_zero_of_le (by omega)] at htable
    rw [searchOf_next]
    dsimp only
    rw [h.search hn d.isBuy y j ⟨hy, hj, hyj⟩]
    exact search_finds h.placed htable.exist hy hx2 hj hk hyj hxk

/-- **A message**, while no refill is under way: from the third cycle on if it adds shares, and from the
fifth on in any case. -/
theorem Phase.message (h : Phase base om.live n .rest q) (hn : 3 ≤ n)
    (hready : q.lookup.isAdd = false → 5 ≤ n) (ht : Takes base om om' q.lookup)
    (hv : q.lookup.valid = true) (hi : i.initV = false) :
    NoError q i ∧ ∃ s, Phase base om'.live 1 s (q.next i) := by
  obtain ⟨msg, hstep, hm⟩ := ht.step
  obtain ⟨herr, s, ha, hs, hh⟩ := bbo_message h.signals h.halves h.placed h.calm.bboDecBook hv hstep hm
    ht.fits ht.inRange hi fun ha => h.flags (hready ha) _
  refine ⟨⟨?_, herr, (decUpdt_of_held h.held).2⟩, s, ?_⟩
  · rw [← Bool.not_eq_true, l2_error_iff h.table.config hv]
    exact not_not.2 ht.tick
  · refine ⟨ht.placed, h.table_message hn ht hv hi, ?_, hs, hh, h.fetch_message ht hready ha, ?_,
      fun h => absurd h (by omega), fun h => absurd h (by omega), fun h => absurd h (by omega)⟩
    · cases ha <;> trivial
    · exact h.calm.held_next

/-- **The order behind a delete**, in the cycle of the refill word. -/
theorem Phase.hold (h : Phase base om.live 3 (.filled c) q) (ht : Takes base om om' q.lookup)
    (hr : q.lookup.msgType = .replace) (hv : q.lookup.valid = true) (hi : i.initV = false) :
    NoError q i ∧ Held base om om' q.lookup (q.next i) := by
  have hing : q.updtIng = true := h.signals.updtIng
  obtain ⟨hrel, hdec⟩ := decUpdt_of_held h.held
  have hb := h.bboDecBook_busy
  refine ⟨⟨?_, bbo_error_idle h.signals (fun c _ => (h.halves c).initialized) hb, hdec⟩, ?_⟩
  · rw [← Bool.not_eq_true, l2_error_iff h.table.config hv]
    exact not_not.2 ht.tick
  · refine ⟨ht, hr, hv, h.placed, h.table_message le_rfl ht hv hi, h.signals.next hb, ?_, ?_⟩
    · exact halves_next h.fetch h.signals h.placed hb hi h.halves h.table.config.fits
    · have hnext : (q.next i).decBookUpdt = q.decBookUpdtNext := rfl
      rw [hnext, BookRegs.decBookUpdtNext, hrel, hing]
      rfl

/-- **The held order goes to the halves**, in the cycle after its message. -/
theorem Held.idle (h : Held base om om' d q) (hv : q.lookup.valid = false) (hi : i.initV = false) :
    NoError q i ∧ q.bboDecBook = d ∧ Phase base om'.live 2 .rest (q.next i) := by
  have hing : q.updtIng = false := h.signals.updtIng
  have hrel : q.release = true := by
    rw [BookRegs.release, h.held, h.valid, hing]
    rfl
  have hb : q.bboDecBook = d := by
    rw [BookRegs.bboDecBook, hrel, if_pos rfl, h.held]
  have hadd : d.isAdd = true := by
    rw [DecBook.isAdd, h.replace]
    rfl
  obtain ⟨msg, hstep, hm⟩ := h.takes.step
  obtain ⟨herr, s, ha, hs, hh⟩ := bbo_message h.signals h.halves h.placed hb h.valid hstep hm
    h.takes.fits h.takes.inRange hi fun ha => absurd (hadd.symm.trans ha) Bool.noConfusion
  obtain rfl : s = .rest := by
    rcases ha with - | ⟨-, ha, -⟩
    · rfl
    · exact absurd (hadd.symm.trans ha) Bool.noConfusion
  refine ⟨⟨l2_error_idle hv, herr, ?_⟩, hb, h.takes.placed, ?_, trivial, hs, hh, trivial, ?_,
    fun h => absurd h (by omega), fun h => absurd h (by omega), fun h => absurd h (by omega)⟩
  · rw [BookRegs.errorDecUpdt, hrel, hv, h.held, h.replace]
    rfl
  · exact h.table.next (i := q.l2In i) hi hv
  · have hnext : (q.next i).decBookUpdt = q.decBookUpdtNext := rfl
    rw [hnext, BookRegs.decBookUpdtNext, hrel]
    rfl

end Book

end ItchOrderBook.Pipeline
