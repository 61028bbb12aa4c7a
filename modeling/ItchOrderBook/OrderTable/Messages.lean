import ItchOrderBook.OrderTable.Store

/-!
# One message to the order table

What the combinational block does with a message, if it sees the line of the message and the slots as
they are stored: it finds the order where it lives (`found`), raises an error exactly for the messages
that are errors, and otherwise writes the order where it lives or where there is room (`message`).

Two things go wrong in the CAM, and `Safe` leaves them out: a delete writes a word without an id, so
the slot of the order is not found, and an order that spills is written to every slot that carries its
id. The ids of the slots are not reset, so after power-up they may all be 0.
-/

namespace ItchOrderBook.OrderTable

open Rtl (BookMsgType CamRegs DecBook L3Comb L3Regs L3Word)

/-- The message does not delete an order in a slot of the CAM, but for the id 0 and no shares in the
message; and it does not spill a new order whose id more than one slot carries, free or not. -/
def Safe (q : L3Regs) (d : DecBook) : Prop :=
  q.matchWay d.orderId = none →
    (d.msgType = .delete → q.cam.find d.orderId ≠ none → d.orderId = 0 ∧ d.shares = 0) ∧
      (d.msgType = .add ∨ d.msgType = .replace → q.emptyWay = none →
        ∀ s s', (q.cam.memArr s).orderId = d.orderId → (q.cam.memArr s').orderId = d.orderId → s = s')

instance (q : L3Regs) (d : DecBook) : Decidable (Safe q d) :=
  inferInstanceAs (Decidable (_ → (_ → _ → _ ∧ _) ∧ (_ → _ → _)))

/-- An error is raised for the message, in its cycle or in the next one. -/
def raised (q : L3Regs) (d : DecBook) : Bool :=
  q.error d || (CamRegs.mk (q.comb d).camWEn (q.comb d).writeWord q.cam.memArr).error

/-- What is stored after the message has been written. -/
def Store.after (S : Store) (h : BitVec 11) (c : L3Comb) : Store where
  mem :=
    if c.ramWea then Function.update S.mem h (Function.update (S.mem h) c.wordIdx c.writeWord)
    else S.mem
  slots := (CamRegs.mk c.camWEn c.writeWord S.slots).memArrNext

section After

variable {S : Store} {h : BitVec 11} {c : L3Comb}

theorem Store.after_way (hwea : c.ramWea = true) (hwen : c.camWEn = false) :
    S.after h c = { S with
      mem := Function.update S.mem h (Function.update (S.mem h) c.wordIdx c.writeWord) } := by
  rw [Store.after, if_pos hwea, hwen]
  rfl

theorem Store.after_slots (hwea : c.ramWea = false) (hwen : c.camWEn = true) :
    S.after h c = { S with slots := (CamRegs.mk true c.writeWord S.slots).memArrNext } := by
  rw [Store.after, if_neg (ne_true_of_eq_false hwea), hwen]

end After

/-- The table sees what is stored. -/
structure Sees (m : Live) (S : Store) (q : L3Regs) (id : BitVec 64) : Prop where
  line : q.ram.doutb = S.mem (hash id)
  slots : q.cam.memArr = S.slots
  wEn : q.cam.wEn = false
  side : q.prevIsBuy = m.lastSide

section Found

variable {m : Live} {S : Store} {q : L3Regs} {id : BitVec 64}

/-- **The order is found where it lives**: in a way, in a slot, or not at all. -/
theorem found (hS : Stored m S) (hq : Sees m S q id) :
    (∃ w, q.matchWay id = some w ∧ (S.mem (hash id) w).valid = true ∧
        (S.mem (hash id) w).orderId = id ∧ m.order id = some (orderOf (S.mem (hash id) w)) ∧
        ∀ s, (S.slots s).valid = true → (S.slots s).orderId ≠ id) ∨
      (∃ s, q.matchWay id = none ∧ q.cam.find id = some (S.slots s) ∧ (S.slots s).valid = true ∧
        (S.slots s).orderId = id ∧ m.order id = some (orderOf (S.slots s)) ∧
        ∀ w, (S.mem (hash id) w).valid = true → (S.mem (hash id) w).orderId ≠ id) ∨
      (q.matchWay id = none ∧ q.cam.find id = none ∧ m.order id = none ∧
        (∀ w, (S.mem (hash id) w).valid = true → (S.mem (hash id) w).orderId ≠ id) ∧
        ∀ s, (S.slots s).valid = true → (S.slots s).orderId ≠ id) := by
  have hways : q.matchWay id = none →
      ∀ w, (S.mem (hash id) w).valid = true → (S.mem (hash id) w).orderId ≠ id := by
    intro hnone w hv he
    have := lastWay_eq_none.1 hnone w
    rw [hq.line, hv, he] at this
    simp at this
  rcases hm : q.matchWay id with - | w
  · right
    rcases hf : q.cam.find id with - | x
    · right
      have hslots : ∀ s, (S.slots s).valid = true → (S.slots s).orderId ≠ id := by
        intro s hv he
        rw [CamRegs.find, Option.map_eq_none_iff] at hf
        have := lastWay_eq_none.1 hf s
        rw [hq.slots, hv, he] at this
        simp at this
      refine ⟨rfl, rfl, ?_, hways hm, hslots⟩
      by_contra hlive
      rcases hS.live id hlive with ⟨w, hv, he⟩ | ⟨s, hv, he⟩
      · exact hways hm w hv he
      · exact hslots s hv he
    · left
      rw [CamRegs.find, Option.map_eq_some_iff] at hf
      obtain ⟨s, hs, rfl⟩ := hf
      have hs' := lastWay_eq_some hs
      rw [hq.slots, Bool.and_eq_true, decide_eq_true_iff] at hs'
      refine ⟨s, rfl, by rw [hq.slots], hs'.2, hs'.1, ?_, hways hm⟩
      rw [← hs'.1]
      exact (hS.slot s hs'.2).2
  · left
    have hw := lastWay_eq_some hm
    rw [hq.line, Bool.and_eq_true, decide_eq_true_iff] at hw
    refine ⟨w, rfl, hw.1, hw.2, ?_, fun s hv he => ?_⟩
    · have hholds := (hS.way (hash id) w hw.1).2.2
      rwa [hw.2] at hholds
    · exact hS.apart (hash id) w s hw.1 hv (hw.2.trans he.symm)

/-- The id is found exactly if its order is live. -/
theorem hit_iff (hS : Stored m S) (hq : Sees m S q id) : q.hit id = (m.order id).isSome := by
  unfold L3Regs.hit CamRegs.dOut
  rcases found hS hq with ⟨w, hm, -, -, ho, -⟩ | ⟨s, hm, hf, hv, -, ho, -⟩ | ⟨hm, hf, ho, -, -⟩
  · rw [hm, ho]
    rfl
  · rw [hm, hf, ho]
    simp [hv]
  · rw [hm, hf, ho]
    rfl

/-- The other ways of a line have other orders. -/
theorem Stored.other_ways (hS : Stored m S) {w : Fin 8} (hv : (S.mem (hash id) w).valid = true)
    (he : (S.mem (hash id) w).orderId = id) : ∀ w', w' ≠ w →
      (S.mem (hash id) w').valid = true → (S.mem (hash id) w').orderId ≠ id :=
  fun w' hne hv' he' => hne (hS.way_inj _ w' w hv' hv (he'.trans he.symm))

/-- No other slot has the id of an order in a slot. -/
theorem Stored.one_slot (hS : Stored m S) {s : Fin 8} (hv : (S.slots s).valid = true)
    (he : (S.slots s).orderId = id) {s1 s2 : Fin 8} (h1 : (S.slots s1).orderId = id)
    (h2 : (S.slots s2).orderId = id) : s1 = s2 := by
  have heq : ∀ s', (S.slots s').orderId = id → s' = s :=
    fun s' h' => hS.slot_inj s s' hv (h'.trans he.symm)
  rw [heq s1 h1, heq s2 h2]

end Found

/-! ### The cases -/

/-- What a message does, for the values `c` of the combinational block: an error is raised exactly for
the messages that are errors, and otherwise the message is looked up and written. -/
structure Answers (m : Live) (S : Store) (q : L3Regs) (d : DecBook) : Prop where
  error : raised q d = true ↔ m.Fails (S.mem (hash d.orderId)) S.slots d
  lookup : raised q d = false → (q.comb d).lookup = m.lookup d
  side : raised q d = false → (q.comb d).prevIsBuy = (m.after d).lastSide
  stored : raised q d = false → Stored (m.after d) (S.after (hash d.orderId) (q.comb d))

section Cases

variable {m : Live} {S : Store} {q : L3Regs} {d : DecBook}

/-- A message that is an error and for which one is raised. -/
theorem answers_error (hr : raised q d = true)
    (hf : m.Fails (S.mem (hash d.orderId)) S.slots d) : Answers m S q d :=
  ⟨iff_of_true hr hf, fun h => absurd h (by simp [hr]), fun h => absurd h (by simp [hr]),
    fun h => absurd h (by simp [hr])⟩

theorem error_eq (hq : Sees m S q d.orderId) : q.error d =
    ((q.comb d).errorAddId || (q.comb d).errorReduceId || (q.comb d).errorNegShares) := by
  have hcam : q.cam.error = false := by rw [CamRegs.error, hq.wEn]; rfl
  rw [L3Regs.error, hcam, Bool.or_false]

theorem raised_eq (hq : Sees m S q d.orderId) : raised q d =
    ((q.comb d).errorAddId || (q.comb d).errorReduceId || (q.comb d).errorNegShares ||
      (CamRegs.mk (q.comb d).camWEn (q.comb d).writeWord S.slots).error) := by
  rw [raised, error_eq hq, hq.slots]

/-- What an insertion does, apart from where the order goes. -/
theorem onInsert_rest (q : L3Regs) (d : DecBook) (isBuy : Bool) :
    (q.onInsert d isBuy).errorAddId = q.hit d.orderId ∧ (q.onInsert d isBuy).errorReduceId = false ∧
      (q.onInsert d isBuy).errorNegShares = false ∧ (q.onInsert d isBuy).lookup = { d with isBuy } ∧
      (q.onInsert d isBuy).prevIsBuy = q.prevIsBuy := by
  unfold L3Regs.onInsert
  cases q.emptyWay <;> exact ⟨rfl, rfl, rfl, rfl, rfl⟩

/-- No word has the id of an order that is not live. -/
theorem Stored.new_apart (hS : Stored m S) {id : BitVec 64} (ho : m.order id = none) :
    (∀ w, (S.mem (hash id) w).valid = true → (S.mem (hash id) w).orderId ≠ id) ∧
      ∀ s, (S.slots s).valid = true → (S.slots s).orderId ≠ id := by
  constructor
  · intro w hv he
    have := (hS.way _ w hv).2.2
    rw [he, ho] at this
    cases this
  · intro s hv he
    have := (hS.slot s hv).2
    rw [he, ho] at this
    cases this

section Insert

variable {isBuy : Bool}

/-- The word of a new order. -/
theorem content_opened (hside : (m.opened d).isBuy = isBuy) :
    content ⟨true, d.orderId, isBuy, d.shares, d.price⟩ = some (m.opened d) := by
  rw [← hside]
  rfl

/-- For a new order an error is raised only by the CAM. -/
theorem raised_new (hS : Stored m S) (hq : Sees m S q d.orderId) (hcomb : q.comb d = q.onInsert d isBuy)
    (ho : m.order d.orderId = none) : raised q d =
      (CamRegs.mk (q.onInsert d isBuy).camWEn (q.onInsert d isBuy).writeWord S.slots).error := by
  obtain ⟨hadd, hreduce, hneg, -⟩ := onInsert_rest q d isBuy
  rw [raised_eq hq, hcomb, hadd, hreduce, hneg, hit_iff hS hq, ho]
  rfl

/-- A way is free. -/
theorem insert_free (hS : Stored m S) (hq : Sees m S q d.orderId) (hd : d.shares.toNat < 2 ^ 31)
    (hcomb : q.comb d = q.onInsert d isBuy) (hside : (m.opened d).isBuy = isBuy)
    (ho : m.order d.orderId = none) {w : Fin 8} (hempty : q.emptyWay = some w) :
    raised q d = false ∧ (S.mem (hash d.orderId) w).valid = false ∧
      Stored (m.set d.orderId (some (m.opened d))) (S.after (hash d.orderId) (q.comb d)) := by
  obtain ⟨hways, hslots⟩ := hS.new_apart ho
  have hfree : (S.mem (hash d.orderId) w).valid = false := by
    have := lastWay_eq_some hempty
    rw [hq.line] at this
    simpa using this
  have hwrite : q.onInsert d isBuy = { q.idle { d with isBuy } with
      errorAddId := q.hit d.orderId
      writeWord := ⟨true, d.orderId, isBuy, d.shares, d.price⟩
      ramWea := true
      wordIdx := w } := by
    rw [L3Regs.onInsert, hempty]
    rfl
  refine ⟨?_, hfree, ?_⟩
  · rw [raised_new hS hq hcomb ho, hwrite]
    rfl
  · rw [hcomb, hwrite, Store.after_way rfl rfl, ← content_opened hside]
    exact hS.write_way (fun _ => rfl) (fun hv => absurd (hfree.symm.trans hv) Bool.false_ne_true)
      (fun w' _ => hways w') hslots fun _ => hd

/-- The line is full, and the order goes to the CAM, where at most one slot has its id. -/
theorem insert_full (hS : Stored m S) (hq : Sees m S q d.orderId) (hd : d.shares.toNat < 2 ^ 31)
    (hcomb : q.comb d = q.onInsert d isBuy) (hside : (m.opened d).isBuy = isBuy)
    (ho : m.order d.orderId = none) (hempty : q.emptyWay = none)
    (hone : ∀ s s', (S.slots s).orderId = d.orderId → (S.slots s').orderId = d.orderId → s = s') :
    (∀ w, (S.mem (hash d.orderId) w).valid = true) ∧
      (raised q d = true ↔ ∀ s, (S.slots s).valid = true) ∧
      (raised q d = false →
        Stored (m.set d.orderId (some (m.opened d))) (S.after (hash d.orderId) (q.comb d))) := by
  obtain ⟨hways, hslots⟩ := hS.new_apart ho
  have hline : ∀ w, (S.mem (hash d.orderId) w).valid = true := by
    intro w
    have := lastWay_eq_none.1 hempty w
    rw [hq.line] at this
    simpa using this
  have hwrite : q.onInsert d isBuy = { q.idle { d with isBuy } with
      errorAddId := q.hit d.orderId
      writeWord := ⟨true, d.orderId, isBuy, d.shares, d.price⟩
      camWEn := true } := by
    rw [L3Regs.onInsert, hempty]
    rfl
  have hraised : raised q d =
      (CamRegs.mk true ⟨true, d.orderId, isBuy, d.shares, d.price⟩ S.slots).error := by
    rw [raised_new hS hq hcomb ho, hwrite]
  by_cases hslot : ∃ s, (S.slots s).valid = false
  · obtain ⟨herr, s', hnext, hold, hother⟩ :=
      cam_write S.slots ⟨true, d.orderId, isBuy, d.shares, d.price⟩ hone (Or.inr hslot)
    obtain ⟨s, hs⟩ := hslot
    refine ⟨hline, iff_of_false ?_ fun h => ?_, fun _ => ?_⟩
    · rw [hraised, herr]
      exact Bool.false_ne_true
    · exact Bool.false_ne_true (hs.symm.trans (h s))
    · rw [hcomb, hwrite, Store.after_slots rfl rfl, ← content_opened hside]
      dsimp only
      rw [hnext]
      exact hS.write_slot rfl hold hother hways fun _ => hd
  · have hfull : ∀ s, (S.slots s).valid = true := by simpa using hslot
    have htrue : raised q d = true := by
      rw [hraised]
      exact cam_full (fun s => hslots s (hfull s)) hfull
    exact ⟨hline, iff_of_true htrue hfull, fun h => absurd (htrue.symm.trans h) Bool.noConfusion⟩

/-- Where all the words are valid, the line and the CAM are full of live orders. -/
theorem Stored.full_iff (hS : Stored m S) {id : BitVec 64} : m.Full (S.mem (hash id)) S.slots ↔
    (∀ w, (S.mem (hash id) w).valid = true) ∧ ∀ s, (S.slots s).valid = true := by
  constructor
  · exact fun hf => ⟨fun w => (hf.1 (Sum.inl w)).1, fun s => (hf.1 (Sum.inr s)).1⟩
  · rintro ⟨hline, hslots⟩
    refine ⟨Sum.forall.2 ⟨fun w => (hS.way _ w (hline w)).2, fun s => hS.slot s (hslots s)⟩, ?_⟩
    rintro (w | s) (w' | s') he
    · exact congrArg Sum.inl (hS.way_inj _ w w' (hline w) (hline w') he)
    · exact absurd he (hS.apart _ w s' (hline w) (hslots s'))
    · exact absurd he.symm (hS.apart _ w' s (hline w') (hslots s))
    · exact congrArg Sum.inr (hS.slot_inj s' s (hslots s') he)

/-- `MSG_ADD` and `MSG_REPLACE`. -/
theorem insert_answers (hS : Stored m S) (hq : Sees m S q d.orderId) (hd : d.shares.toNat < 2 ^ 31)
    (hcomb : q.comb d = q.onInsert d isBuy) (htype : d.msgType = .add ∨ d.msgType = .replace)
    (hside : (m.opened d).isBuy = isBuy) (hlookup : m.lookup d = { d with isBuy }) (hsafe : Safe q d) :
    Answers m S q d := by
  obtain ⟨hadd, -, -, hlook, hprev⟩ := onInsert_rest q d isBuy
  have hafter : m.after d = m.set d.orderId (some (m.opened d)) := by
    rcases htype with h | h <;> rw [Live.after, h]
  rcases ho : m.order d.orderId with - | o
  · -- the id is new
    have hfails : m.Fails (S.mem (hash d.orderId)) S.slots d ↔
        m.Full (S.mem (hash d.orderId)) S.slots := by
      rcases htype with h | h <;> rw [Live.Fails, h, ho]
    have hmiss : q.matchWay d.orderId = none := by
      rcases found hS hq with ⟨w, -, -, -, ho', -⟩ | ⟨s, hm, -⟩ | ⟨hm, -⟩
      · rw [ho] at ho'
        cases ho'
      · exact hm
      · exact hm
    have hone : q.emptyWay = none → ∀ s s', (S.slots s).orderId = d.orderId →
        (S.slots s').orderId = d.orderId → s = s' := by
      rw [← hq.slots]
      exact (hsafe hmiss).2 htype
    refine ⟨?_, fun _ => ?_, fun _ => ?_, ?_⟩
    · rw [hfails, hS.full_iff]
      rcases hempty : q.emptyWay with - | w
      · obtain ⟨hline, hraised, -⟩ := insert_full hS hq hd hcomb hside ho hempty (hone hempty)
        rw [hraised, and_iff_right hline]
      · obtain ⟨hraised, hfree, -⟩ := insert_free hS hq hd hcomb hside ho hempty
        refine iff_of_false (fun h => Bool.false_ne_true (hraised.symm.trans h)) fun h => ?_
        exact Bool.false_ne_true (hfree.symm.trans (h.1 w))
    · rw [hcomb, hlookup]
      exact hlook
    · rw [hcomb, hafter]
      exact hprev.trans hq.side
    · rw [hafter]
      rcases hempty : q.emptyWay with - | w
      · exact (insert_full hS hq hd hcomb hside ho hempty (hone hempty)).2.2
      · exact fun _ => (insert_free hS hq hd hcomb hside ho hempty).2.2
  · -- the id is live
    refine answers_error ?_ ?_
    · rw [raised_eq hq, hcomb, hadd, hit_iff hS hq, ho]
      rfl
    · rcases htype with h | h <;> rw [Live.Fails, h, ho] <;> trivial

end Insert

/-- The shares that are left, where they are fewer than `2 ^ 31` to begin with. -/
theorem msb_sub {a b : BitVec 32} (ha : a.toNat < 2 ^ 31) (hb : b.toNat < 2 ^ 31) :
    ((a - b).msb = true ↔ a.toNat < b.toNat) ∧
      ((a - b).msb = false → (a - b).toNat < 2 ^ 31) := by
  rw [BitVec.msb_eq_decide]
  constructor
  · rw [decide_eq_true_iff, BitVec.toNat_sub]
    omega
  · intro h
    have := of_decide_eq_false h
    omega

/-- A reduce or a delete of an id that is not live. -/
theorem unknown_answers (hS : Stored m S) (hq : Sees m S q d.orderId)
    (hcomb : (q.comb d).errorReduceId = !q.hit d.orderId) (htype : d.msgType = .reduce ∨
      d.msgType = .delete) (ho : m.order d.orderId = none) : Answers m S q d := by
  refine answers_error ?_ ?_
  · rw [raised_eq hq, hcomb, hit_iff hS hq, ho]
    simp
  · rcases htype with h | h <;> rw [Live.Fails, h, ho] <;> trivial

/-- What a reduce does, wherever the order is: `stored` is the word with the shares that are left. -/
theorem reduced (hS : Stored m S) (hd : d.shares.toNat < 2 ^ 31) (htype : d.msgType = .reduce)
    {o : Order} (ho : m.order d.orderId = some o) (stored : L3Word)
    (hstored : stored = ⟨true, d.orderId, o.isBuy, o.shares - d.shares, o.price⟩) :
    (m.Fails (S.mem (hash d.orderId)) S.slots d ↔ stored.shares.msb = true) ∧
      m.lookup d = { d with isBuy := stored.isBuy, price := stored.price } ∧
      m.after d = m.set d.orderId (content ⟨decide (stored.shares ≠ 0), d.orderId, stored.isBuy,
        stored.shares, stored.price⟩) ∧
      (stored.shares.msb = false → stored.shares.toNat < 2 ^ 31) := by
  subst hstored
  obtain ⟨hmsb, hsmall⟩ := msb_sub (hS.small _ o ho) hd
  refine ⟨?_, ?_, ?_, hsmall⟩
  · rw [Live.Fails, htype, ho]
    exact hmsb.symm
  · rw [Live.lookup, htype, ho]
  · rw [Live.after, htype, ho]
    refine congrArg (m.set d.orderId) ?_
    unfold Order.rest content
    by_cases h0 : o.shares - d.shares = 0 <;> simp [h0, orderOf]

/-- `MSG_REDUCE`. -/
theorem reduce_answers (hS : Stored m S) (hq : Sees m S q d.orderId) (hd : d.shares.toNat < 2 ^ 31)
    (hcomb : q.comb d = q.onReduce d) (htype : d.msgType = .reduce) : Answers m S q d := by
  have hhit := hit_iff hS hq
  rcases found hS hq with ⟨w, hm, hv, he, ho, hslots⟩ | ⟨s, hm, hf, hv, he, ho, hways⟩ | ⟨hm, hf, ho, -⟩
  · -- in a way
    obtain ⟨hfails, hlookup, hafter, hsmall⟩ := reduced hS hd htype ho
      { S.mem (hash d.orderId) w with shares := (S.mem (hash d.orderId) w).shares - d.shares }
      (by simp only [hv, he]; rfl)
    have hwrite : q.onReduce d = { q.idle { d with
          isBuy := (S.mem (hash d.orderId) w).isBuy, price := (S.mem (hash d.orderId) w).price } with
        errorReduceId := !q.hit d.orderId
        errorNegShares := ((S.mem (hash d.orderId) w).shares - d.shares).msb
        writeWord := ⟨decide ((S.mem (hash d.orderId) w).shares - d.shares ≠ 0), d.orderId,
          (S.mem (hash d.orderId) w).isBuy, (S.mem (hash d.orderId) w).shares - d.shares,
          (S.mem (hash d.orderId) w).price⟩
        ramWea := true
        wordIdx := w } := by
      rw [L3Regs.onReduce, hm, hq.line]
      rfl
    have hraised : raised q d = ((S.mem (hash d.orderId) w).shares - d.shares).msb := by
      rw [raised_eq hq, hcomb, hwrite, hhit, ho]
      exact Bool.or_false _
    refine ⟨by rw [hraised, hfails], fun _ => ?_, fun _ => ?_, fun hr => ?_⟩
    · rw [hcomb, hwrite, hlookup]
      rfl
    · rw [hcomb, hwrite, hafter]
      exact hq.side
    · rw [hcomb, hwrite, Store.after_way rfl rfl, hafter]
      exact hS.write_way (fun _ => rfl) (fun _ => he) (hS.other_ways hv he) hslots
        fun _ => hsmall (hraised ▸ hr)
  · -- in a slot
    have hdout : q.cam.dOut d.orderId = S.slots s := by rw [CamRegs.dOut, hf]; rfl
    have hsub : q.cam.subShares d.orderId d.shares = (S.slots s).shares - d.shares := by
      rw [CamRegs.subShares, hf]
    obtain ⟨hfails, hlookup, hafter, hsmall⟩ := reduced hS hd htype ho
      { S.slots s with shares := (S.slots s).shares - d.shares }
      (by simp only [hv, he]; rfl)
    have hwrite : q.onReduce d = { q.idle { d with
          isBuy := (S.slots s).isBuy, price := (S.slots s).price } with
        errorReduceId := !q.hit d.orderId
        errorNegShares := ((S.slots s).shares - d.shares).msb
        writeWord := ⟨decide ((S.slots s).shares - d.shares ≠ 0), d.orderId, (S.slots s).isBuy,
          (S.slots s).shares - d.shares, (S.slots s).price⟩
        camWEn := true } := by
      rw [L3Regs.onReduce, hm, hdout, hsub]
      rfl
    have hid : (q.onReduce d).writeWord.orderId = d.orderId := by rw [hwrite]
    obtain ⟨herr, s', hnext, hold, hother⟩ := cam_write S.slots (q.onReduce d).writeWord
      (by rw [hid]; exact fun s1 s2 => hS.one_slot hv he) (Or.inl ⟨s, he.trans hid.symm⟩)
    have hraised : raised q d = ((S.slots s).shares - d.shares).msb := by
      rw [hwrite] at herr
      rw [raised_eq hq, hcomb, hwrite, hhit, ho]
      dsimp only at herr ⊢
      rw [herr]
      exact Bool.or_false _
    refine ⟨by rw [hraised, hfails], fun _ => ?_, fun _ => ?_, fun hr => ?_⟩
    · rw [hcomb, hwrite, hlookup]
      rfl
    · rw [hcomb, hwrite, hafter]
      exact hq.side
    · rw [hwrite] at hnext hold hother
      rw [hcomb, hwrite, Store.after_slots rfl rfl, hafter]
      dsimp only at hnext ⊢
      rw [hnext]
      exact hS.write_slot rfl hold hother hways fun _ => hsmall (hraised ▸ hr)
  · refine unknown_answers hS hq ?_ (Or.inl htype) ho
    rw [hcomb, L3Regs.onReduce, hm]
    rfl

/-- `MSG_DELETE`. -/
theorem delete_answers (hS : Stored m S) (hq : Sees m S q d.orderId) (hcomb : q.comb d = q.onDelete d)
    (htype : d.msgType = .delete) (hsafe : Safe q d) : Answers m S q d := by
  have hhit := hit_iff hS hq
  rcases found hS hq with ⟨w, hm, hv, he, ho, hslots⟩ | ⟨s, hm, hf, hv, he, ho, hways⟩ | ⟨hm, hf, ho, -⟩
  · -- in a way
    have hwrite : q.onDelete d = { q.idle { d with
          isBuy := (S.mem (hash d.orderId) w).isBuy
          shares := (S.mem (hash d.orderId) w).shares
          price := (S.mem (hash d.orderId) w).price } with
        prevIsBuy := (S.mem (hash d.orderId) w).isBuy
        errorReduceId := !q.hit d.orderId
        writeWord := .zero
        ramWea := true
        wordIdx := w } := by
      rw [L3Regs.onDelete, hm, hq.line]
      rfl
    have hraised : raised q d = false := by
      rw [raised_eq hq, hcomb, hwrite, hhit, ho]
      rfl
    have hafter : m.after d = { m.set d.orderId (content .zero) with
        lastSide := (S.mem (hash d.orderId) w).isBuy } := by
      rw [Live.after, htype, ho]
      rfl
    refine ⟨iff_of_false (by simp [hraised]) ?_, fun _ => ?_, fun _ => ?_, fun _ => ?_⟩
    · rw [Live.Fails, htype, ho]
      exact id
    · rw [hcomb, hwrite, Live.lookup, htype, ho]
      rfl
    · rw [hcomb, hwrite, hafter]
    · rw [hcomb, hwrite, Store.after_way rfl rfl, hafter]
      exact (hS.write_way (fun h => absurd h Bool.false_ne_true) (fun _ => he) (hS.other_ways hv he)
        hslots fun h => absurd h Bool.false_ne_true).congr rfl
  · -- in a slot: the word that is written has the id 0
    obtain ⟨hid, hshares⟩ := (hsafe hm).1 htype (by rw [hf]; simp)
    have hdout : q.cam.dOut d.orderId = S.slots s := by rw [CamRegs.dOut, hf]; rfl
    have hsub : q.cam.subShares d.orderId d.shares = (S.slots s).shares := by
      rw [CamRegs.subShares, hf, hshares]
      exact BitVec.sub_zero _
    have hwrite : q.onDelete d = { q.idle { d with
          isBuy := (S.slots s).isBuy
          shares := (S.slots s).shares
          price := (S.slots s).price } with
        prevIsBuy := (S.slots s).isBuy
        errorReduceId := !q.hit d.orderId
        writeWord := .zero
        camWEn := true } := by
      rw [L3Regs.onDelete, hm, hdout, hsub]
      rfl
    have hzero : (L3Word.zero).orderId = d.orderId := hid.symm
    obtain ⟨herr, s', hnext, hold, hother⟩ := cam_write S.slots .zero
      (by rw [hzero]; exact fun s1 s2 => hS.one_slot hv he) (Or.inl ⟨s, he.trans hzero.symm⟩)
    rw [hzero] at hold hother
    have hraised : raised q d = false := by
      rw [raised_eq hq, hcomb, hwrite, hhit, ho]
      exact herr
    have hafter : m.after d = { m.set d.orderId (content .zero) with
        lastSide := (S.slots s).isBuy } := by
      rw [Live.after, htype, ho]
      rfl
    refine ⟨iff_of_false (by simp [hraised]) ?_, fun _ => ?_, fun _ => ?_, fun _ => ?_⟩
    · rw [Live.Fails, htype, ho]
      exact id
    · rw [hcomb, hwrite, Live.lookup, htype, ho]
      rfl
    · rw [hcomb, hwrite, hafter]
    · rw [hcomb, hwrite, Store.after_slots rfl rfl, hafter]
      dsimp only
      rw [hnext]
      exact (hS.write_slot hzero hold hother hways fun h => absurd h Bool.false_ne_true).congr rfl
  · refine unknown_answers hS hq ?_ (Or.inr htype) ho
    rw [hcomb, L3Regs.onDelete, hm]
    rfl

/-- **One message.** -/
theorem message (hS : Stored m S) (hq : Sees m S q d.orderId) (hv : d.valid = true)
    (hd : d.shares.toNat < 2 ^ 31) (hsafe : Safe q d) : Answers m S q d := by
  have hcomb : q.comb d = _ := if_pos hv
  cases htype : d.msgType with
  | add =>
    rw [htype] at hcomb
    refine insert_answers hS hq hd hcomb (Or.inl htype) ?_ ?_ hsafe
    · rw [Live.opened, htype]
      rfl
    · exact Live.lookup_add htype
  | replace =>
    rw [htype] at hcomb
    refine insert_answers hS hq hd hcomb (Or.inr htype) ?_ ?_ hsafe
    · rw [Live.opened, htype, hq.side]
      rfl
    · rw [hq.side]
      exact Live.lookup_replace htype
  | reduce =>
    rw [htype] at hcomb
    exact reduce_answers hS hq hd hcomb htype
  | delete =>
    rw [htype] at hcomb
    exact delete_answers hS hq hcomb htype hsafe

/-- **The CAM is not written** while no order is in it, if an order that comes finds a free way and an
order that is reduced or deleted is live. -/
theorem camWEn_eq_false (hS : Stored m S) (hq : Sees m S q d.orderId) (hv : d.valid = true)
    (hslots : ∀ s, (S.slots s).valid = false)
    (hroom : d.msgType = .add ∨ d.msgType = .replace → ∃ w, (S.mem (hash d.orderId) w).valid = false)
    (hlive : d.msgType = .reduce ∨ d.msgType = .delete → m.order d.orderId ≠ none) :
    (q.comb d).camWEn = false := by
  have hcomb : q.comb d = _ := if_pos hv
  -- a way is free
  have hinsert : d.msgType = .add ∨ d.msgType = .replace →
      ∀ isBuy, (q.onInsert d isBuy).camWEn = false := by
    intro htype isBuy
    rw [L3Regs.onInsert]
    cases hempty : q.emptyWay with
    | some w => rfl
    | none =>
      obtain ⟨w, hw⟩ := hroom htype
      have := lastWay_eq_none.1 hempty w
      rw [hq.line, hw] at this
      cases this
  -- the order is in a way
  have hmatch : d.msgType = .reduce ∨ d.msgType = .delete → ∃ w, q.matchWay d.orderId = some w := by
    intro htype
    rcases found hS hq with ⟨w, hm, -⟩ | ⟨s, -, -, hvs, -⟩ | ⟨-, -, ho, -⟩
    · exact ⟨w, hm⟩
    · rw [hslots s] at hvs
      cases hvs
    · exact absurd ho (hlive htype)
  cases htype : d.msgType with
  | add =>
    rw [htype] at hcomb
    rw [hcomb]
    exact hinsert (Or.inl htype) _
  | replace =>
    rw [htype] at hcomb
    rw [hcomb]
    exact hinsert (Or.inr htype) _
  | reduce =>
    obtain ⟨w, hw⟩ := hmatch (Or.inl htype)
    rw [htype] at hcomb
    rw [hcomb]
    dsimp only
    rw [L3Regs.onReduce, hw]
    rfl
  | delete =>
    obtain ⟨w, hw⟩ := hmatch (Or.inr htype)
    rw [htype] at hcomb
    rw [hcomb]
    dsimp only
    rw [L3Regs.onDelete, hw]
    rfl

end Cases

end ItchOrderBook.OrderTable
