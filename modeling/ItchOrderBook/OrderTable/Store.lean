import ItchOrderBook.Rtl.L3OrderTable

/-!
# The live orders, and where they are stored

`Live` is what the order table is for: a map from order ids to orders, with the side of the order
deleted last. The table stores each live order in one way of the line that its hash selects, or in one
slot of the CAM (`Stored`). Ways are written by their place, so nothing but `valid` matters in the
free ones; slots are written by the id in them, free or not, so the id of an order in the CAM is in no
other slot, even a free one.
-/

namespace ItchOrderBook.OrderTable

open Rtl (BookMsgType CamRegs DecBook L3Line L3Word lastWay)

/-! ### The live orders -/

/-- An order. -/
structure Order where
  isBuy : Bool
  shares : BitVec 32
  price : BitVec 32
  deriving DecidableEq, Repr

/-- The live orders by their ids, and the side of the order deleted last. -/
structure Live where
  order : BitVec 64 → Option Order
  lastSide : Bool

/-- The line of an order id. -/
def hash (id : BitVec 64) : BitVec 11 := id.extractLsb' 0 11

/-- The order in a word. -/
def orderOf (w : L3Word) : Order := ⟨w.isBuy, w.shares, w.price⟩

/-- What is left of an order. -/
def Order.rest (o : Order) (shares : BitVec 32) : Option Order :=
  if o.shares - shares = 0 then none else some { o with shares := o.shares - shares }

namespace Live

/-- The id is given an order, or none. -/
def set (m : Live) (id : BitVec 64) (o : Option Order) : Live :=
  { m with order := Function.update m.order id o }

@[simp] theorem set_order_self (m : Live) (id : BitVec 64) (o : Option Order) :
    (m.set id o).order id = o := Function.update_self ..

theorem set_order_of_ne {m : Live} {id id' : BitVec 64} (h : id' ≠ id) (o : Option Order) :
    (m.set id o).order id' = m.order id' := Function.update_of_ne h ..

/-- The order that an add or a replace opens. -/
def opened (m : Live) (d : DecBook) : Order :=
  ⟨if d.msgType = .replace then m.lastSide else d.isBuy, d.shares, d.price⟩

/-- The live orders after a message. -/
def after (m : Live) (d : DecBook) : Live :=
  match d.msgType, m.order d.orderId with
  | .add, _ | .replace, _ => m.set d.orderId (some (m.opened d))
  | .reduce, some o => m.set d.orderId (o.rest d.shares)
  | .delete, some o => { m.set d.orderId none with lastSide := o.isBuy }
  | _, none => m

/-- The message with what is stored of its order: for a reduce the side and the price, for a delete
the shares that remain, too; a replace takes the side of the order deleted last. -/
def lookup (m : Live) (d : DecBook) : DecBook :=
  match d.msgType, m.order d.orderId with
  | .add, _ => d
  | .replace, _ => { d with isBuy := m.lastSide }
  | .reduce, some o => { d with isBuy := o.isBuy, price := o.price }
  | .delete, some o => { d with isBuy := o.isBuy, shares := o.shares, price := o.price }
  | _, none => d

theorem lookup_add {m : Live} {d : DecBook} (h : d.msgType = .add) : m.lookup d = d := by
  unfold lookup
  split
  · rfl
  all_goals simp_all

theorem lookup_replace {m : Live} {d : DecBook} (h : d.msgType = .replace) :
    m.lookup d = { d with isBuy := m.lastSide } := by
  unfold lookup
  split
  · simp_all
  · rfl
  all_goals simp_all

/-- The word holds a live order. -/
def Holds (m : Live) (w : L3Word) : Prop := w.valid = true ∧ m.order w.orderId = some (orderOf w)

/-- The ways of the line and the slots of the CAM hold live orders, sixteen different ones. -/
def Full (m : Live) (line : L3Line) (slots : Fin 8 → L3Word) : Prop :=
  (∀ i, m.Holds (Sum.elim line slots i)) ∧
    Function.Injective fun i => (Sum.elim line slots i).orderId

theorem Full.slot_ne {m : Live} {line : L3Line} {slots : Fin 8 → L3Word} (h : m.Full line slots)
    {i j : Fin 8} (hij : i ≠ j) : (slots i).orderId ≠ (slots j).orderId :=
  h.2.ne (Sum.inr_injective.ne hij)

/-- The message is an error: an add or a replace of a live id, or one for which the ways of its line
and the slots of the CAM are full; a reduce or a delete of an id that is not live; a reduce by more
than the remaining shares. -/
def Fails (m : Live) (line : L3Line) (slots : Fin 8 → L3Word) (d : DecBook) : Prop :=
  match d.msgType, m.order d.orderId with
  | .add, some _ | .replace, some _ => True
  | .add, none | .replace, none => m.Full line slots
  | .reduce, some o => o.shares.toNat < d.shares.toNat
  | .delete, some _ => False
  | .reduce, none | .delete, none => True

end Live

/-! ### Where they are stored -/

/-- The lines and the slots. -/
structure Store where
  mem : BitVec 11 → L3Line
  slots : Fin 8 → L3Word

/-- The store holds the live orders, each of them in one way, or else in one slot, and no other slot
has the id of that one. -/
structure Stored (m : Live) (S : Store) : Prop where
  way : ∀ h w, (S.mem h w).valid = true → hash (S.mem h w).orderId = h ∧ m.Holds (S.mem h w)
  slot : ∀ s, (S.slots s).valid = true → m.Holds (S.slots s)
  live : ∀ id, m.order id ≠ none →
    (∃ w, (S.mem (hash id) w).valid = true ∧ (S.mem (hash id) w).orderId = id) ∨
      ∃ s, (S.slots s).valid = true ∧ (S.slots s).orderId = id
  way_inj : ∀ h w w', (S.mem h w).valid = true → (S.mem h w').valid = true →
    (S.mem h w).orderId = (S.mem h w').orderId → w = w'
  slot_inj : ∀ s s', (S.slots s).valid = true → (S.slots s').orderId = (S.slots s).orderId → s' = s
  apart : ∀ h w s, (S.mem h w).valid = true → (S.slots s).valid = true →
    (S.mem h w).orderId ≠ (S.slots s).orderId
  small : ∀ id o, m.order id = some o → o.shares.toNat < 2 ^ 31

/-- Only the orders are stored. -/
theorem Stored.congr {m m' : Live} {S : Store} (hS : Stored m S) (h : m'.order = m.order) :
    Stored m' S := by
  have hholds : ∀ w, m.Holds w → m'.Holds w := fun w hw => ⟨hw.1, by rw [h]; exact hw.2⟩
  exact ⟨fun h' w hv => ⟨(hS.way h' w hv).1, hholds _ (hS.way h' w hv).2⟩,
    fun s hv => hholds _ (hS.slot s hv), by rw [h]; exact hS.live, hS.way_inj, hS.slot_inj, hS.apart,
    by rw [h]; exact hS.small⟩

section Writes

variable {m : Live} {S : Store} {id : BitVec 64} {x : L3Word}

/-- The order that a word gives to its id. -/
def content (x : L3Word) : Option Order := if x.valid then some (orderOf x) else none

/-- The words of the other orders still hold them. -/
theorem Live.Holds.set_of_ne {y : L3Word} (hy : m.Holds y) (hne : y.orderId ≠ id) (o : Option Order) :
    (m.set id o).Holds y :=
  ⟨hy.1, (Live.set_order_of_ne hne _).trans hy.2⟩

theorem Live.holds_set_content (m : Live) (hv : x.valid = true) (hx : x.orderId = id) :
    (m.set id (content x)).Holds x := by
  refine ⟨hv, ?_⟩
  rw [hx, Live.set_order_self, content, if_pos hv]

/-- An order that is live after the write is the one that is written, or was live before. -/
theorem Live.live_set_content {id' : BitVec 64} (h : (m.set id (content x)).order id' ≠ none) :
    (id' = id ∧ x.valid = true) ∨ (id' ≠ id ∧ m.order id' ≠ none) := by
  by_cases hid : id' = id
  · subst hid
    refine Or.inl ⟨rfl, ?_⟩
    by_contra hne
    apply h
    rw [Live.set_order_self, content, if_neg hne]
  · rw [Live.set_order_of_ne hid] at h
    exact Or.inr ⟨hid, h⟩

theorem Stored.small_set_content (hS : Stored m S) (hsmall : x.valid = true → x.shares.toNat < 2 ^ 31) :
    ∀ id' o, (m.set id (content x)).order id' = some o → o.shares.toNat < 2 ^ 31 := by
  intro id' o ho
  by_cases hid : id' = id
  · subst hid
    rw [Live.set_order_self, content] at ho
    split_ifs at ho with hv
    obtain rfl := Option.some.inj ho
    exact hsmall hv
  · rw [Live.set_order_of_ne hid] at ho
    exact hS.small id' o ho

/-- A way of the line is written: it was free or had the order, and no other word has it. -/
theorem Stored.write_way (hS : Stored m S) {w : Fin 8} (hx : x.valid = true → x.orderId = id)
    (hw : (S.mem (hash id) w).valid = true → (S.mem (hash id) w).orderId = id)
    (hways : ∀ w', w' ≠ w → (S.mem (hash id) w').valid = true → (S.mem (hash id) w').orderId ≠ id)
    (hslots : ∀ s, (S.slots s).valid = true → (S.slots s).orderId ≠ id)
    (hsmall : x.valid = true → x.shares.toNat < 2 ^ 31) :
    Stored (m.set id (content x))
      { S with mem := Function.update S.mem (hash id) (Function.update (S.mem (hash id)) w x) } := by
  -- the words but the new one, which have other ids
  have hread : ∀ h w', (h = hash id ∧ w' = w ∧
      (Function.update S.mem (hash id) (Function.update (S.mem (hash id)) w x)) h w' = x) ∨
      ((Function.update S.mem (hash id) (Function.update (S.mem (hash id)) w x)) h w' = S.mem h w' ∧
        ((S.mem h w').valid = true → (S.mem h w').orderId ≠ id)) := by
    intro h w'
    by_cases hh : h = hash id
    · subst hh
      rw [Function.update_self]
      by_cases hw' : w' = w
      · subst hw'
        exact Or.inl ⟨rfl, rfl, Function.update_self ..⟩
      · exact Or.inr ⟨Function.update_of_ne hw' .., hways w' hw'⟩
    · rw [Function.update_of_ne hh]
      refine Or.inr ⟨rfl, fun hv he => hh ?_⟩
      rw [← he]
      exact (hS.way h w' hv).1.symm
  constructor
  · intro h w' hv
    rcases hread h w' with ⟨rfl, rfl, heq⟩ | ⟨heq, hne⟩
    · dsimp only at hv ⊢
      rw [heq] at hv ⊢
      exact ⟨by rw [hx hv], m.holds_set_content hv (hx hv)⟩
    · dsimp only at hv ⊢
      rw [heq] at hv ⊢
      exact ⟨(hS.way h w' hv).1, (hS.way h w' hv).2.set_of_ne (hne hv) _⟩
  · intro s hv
    exact (hS.slot s hv).set_of_ne (hslots s hv) _
  · intro id' hlive
    rcases Live.live_set_content hlive with ⟨rfl, hv⟩ | ⟨hid, hlive'⟩
    · refine Or.inl ⟨w, ?_⟩
      dsimp only
      rw [Function.update_self, Function.update_self]
      exact ⟨hv, hx hv⟩
    · rcases hS.live id' hlive' with ⟨w', hv, he⟩ | h
      · refine Or.inl ⟨w', ?_⟩
        dsimp only
        rcases hread (hash id') w' with ⟨hh, rfl, -⟩ | ⟨heq, -⟩
        · rw [hh] at hv he
          exact absurd (he.symm.trans (hw hv)) hid
        · rw [heq]
          exact ⟨hv, he⟩
      · exact Or.inr h
  · intro h w1 w2 hv1 hv2 he
    dsimp only at hv1 hv2 he
    rcases hread h w1 with ⟨-, e1, heq1⟩ | ⟨heq1, hne1⟩ <;>
      rcases hread h w2 with ⟨-, e2, heq2⟩ | ⟨heq2, hne2⟩ <;>
      rw [heq1] at hv1 he <;> rw [heq2] at hv2 he
    · rw [e1, e2]
    · exact absurd (he.symm.trans (hx hv1)) (hne2 hv2)
    · exact absurd (he.trans (hx hv2)) (hne1 hv1)
    · exact hS.way_inj h w1 w2 hv1 hv2 he
  · exact hS.slot_inj
  · intro h w' s hv hvs
    dsimp only at hv ⊢
    rcases hread h w' with ⟨rfl, rfl, heq⟩ | ⟨heq, -⟩
    · rw [heq] at hv ⊢
      rw [hx hv]
      exact (hslots s hvs).symm
    · rw [heq] at hv ⊢
      exact hS.apart h w' s hv hvs
  · exact hS.small_set_content hsmall

/-- A slot is written: it was free or had the order, no other slot has its id, and no way has the
order. -/
theorem Stored.write_slot (hS : Stored m S) {s : Fin 8} (hx : x.orderId = id)
    (hs : (S.slots s).valid = true → (S.slots s).orderId = id)
    (hslots : ∀ s', s' ≠ s → (S.slots s').orderId ≠ id)
    (hways : ∀ w, (S.mem (hash id) w).valid = true → (S.mem (hash id) w).orderId ≠ id)
    (hsmall : x.valid = true → x.shares.toNat < 2 ^ 31) :
    Stored (m.set id (content x)) { S with slots := Function.update S.slots s x } := by
  have hways' : ∀ h w, (S.mem h w).valid = true → (S.mem h w).orderId ≠ id := by
    intro h w hv he
    have hh := (hS.way h w hv).1
    rw [he] at hh
    subst hh
    exact hways w hv he
  -- the slots but the new one, which have other ids
  have hread : ∀ s', (s' = s ∧ Function.update S.slots s x s' = x) ∨
      (Function.update S.slots s x s' = S.slots s' ∧ (S.slots s').orderId ≠ id) := by
    intro s'
    by_cases hs' : s' = s
    · subst hs'
      exact Or.inl ⟨rfl, Function.update_self ..⟩
    · exact Or.inr ⟨Function.update_of_ne hs' .., hslots s' hs'⟩
  constructor
  · intro h w hv
    exact ⟨(hS.way h w hv).1, (hS.way h w hv).2.set_of_ne (hways' h w hv) _⟩
  · intro s' hv
    dsimp only at hv ⊢
    rcases hread s' with ⟨-, heq⟩ | ⟨heq, hne⟩
    · rw [heq] at hv ⊢
      exact m.holds_set_content hv hx
    · rw [heq] at hv ⊢
      exact (hS.slot s' hv).set_of_ne hne _
  · intro id' hlive
    rcases Live.live_set_content hlive with ⟨rfl, hv⟩ | ⟨hid, hlive'⟩
    · refine Or.inr ⟨s, ?_⟩
      dsimp only
      rw [Function.update_self]
      exact ⟨hv, hx⟩
    · rcases hS.live id' hlive' with h | ⟨s', hv, he⟩
      · exact Or.inl h
      · refine Or.inr ⟨s', ?_⟩
        dsimp only
        rcases hread s' with ⟨rfl, -⟩ | ⟨heq, -⟩
        · exact absurd (he.symm.trans (hs hv)) hid
        · rw [heq]
          exact ⟨hv, he⟩
  · exact hS.way_inj
  · intro s1 s2 hv he
    dsimp only at hv he
    rcases hread s1 with ⟨e1, heq1⟩ | ⟨heq1, hne1⟩ <;>
      rcases hread s2 with ⟨e2, heq2⟩ | ⟨heq2, hne2⟩ <;>
      rw [heq1] at hv he <;> rw [heq2] at he
    · rw [e1, e2]
    · exact absurd (he.trans hx) hne2
    · exact absurd (he.symm.trans hx) hne1
    · exact hS.slot_inj s1 s2 hv he
  · intro h w s' hv hvs
    dsimp only at hvs ⊢
    rcases hread s' with ⟨-, heq⟩ | ⟨heq, -⟩
    · rw [heq, hx]
      exact hways' h w hv
    · rw [heq] at hvs ⊢
      exact hS.apart h w s' hv hvs
  · exact hS.small_set_content hsmall

end Writes

/-! ### Searches -/

theorem lastWay_eq_some {p : Fin 8 → Bool} {i : Fin 8} (h : lastWay p = some i) : p i = true :=
  List.find?_some h

theorem lastWay_eq_none {p : Fin 8 → Bool} : lastWay p = none ↔ ∀ i, p i = false := by
  rw [lastWay, List.find?_eq_none]
  constructor
  · intro h i
    simpa using h i (by simp)
  · intro h i _
    simp [h i]

/-- A word for the CAM goes to the slot that has its id, or else to a free one: one slot is written, if
no two have the id. -/
theorem cam_write (slots : Fin 8 → L3Word) (x : L3Word)
    (hone : ∀ s s', (slots s).orderId = x.orderId → (slots s').orderId = x.orderId → s = s')
    (hroom : (∃ s, (slots s).orderId = x.orderId) ∨ ∃ s, (slots s).valid = false) :
    (CamRegs.mk true x slots).error = false ∧
      ∃ s, (CamRegs.mk true x slots).memArrNext = Function.update slots s x ∧
        ((slots s).valid = true → (slots s).orderId = x.orderId) ∧
        ∀ s', s' ≠ s → (slots s').orderId ≠ x.orderId := by
  by_cases hit : ∃ s, (slots s).orderId = x.orderId
  · have hw : (CamRegs.mk true x slots).writeHit = true := decide_eq_true hit
    obtain ⟨s, hs⟩ := hit
    refine ⟨?_, s, ?_, fun _ => hs, fun s' hne hs' => hne (hone s' s hs' hs)⟩
    · rw [CamRegs.error, hw]
      rfl
    · rw [CamRegs.memArrNext, if_pos rfl, if_pos hw]
      funext s'
      by_cases hs' : s' = s
      · rw [hs', Function.update_self, if_pos hs]
      · rw [Function.update_of_ne hs', if_neg fun h => hs' (hone s' s h hs)]
  · have hw : (CamRegs.mk true x slots).writeHit = false := decide_eq_false hit
    obtain ⟨s0, hs0⟩ := hroom.resolve_left hit
    rcases hempty : (CamRegs.mk true x slots).emptySlot with - | s
    · have := lastWay_eq_none.1 hempty s0
      simp [hs0] at this
    · have hfree : (slots s).valid = false := by simpa using lastWay_eq_some hempty
      refine ⟨?_, s, ?_, fun hv => ?_, fun s' _ hs' => hit ⟨s', hs'⟩⟩
      · rw [CamRegs.error, hempty]
        simp
      · rw [CamRegs.memArrNext, if_pos rfl, hw, if_neg Bool.false_ne_true, hempty]
      · rw [hfree] at hv
        cases hv

/-- The CAM is full where no slot has the id and none is free. -/
theorem cam_full {slots : Fin 8 → L3Word} {x : L3Word} (hid : ∀ s, (slots s).orderId ≠ x.orderId)
    (hfull : ∀ s, (slots s).valid = true) : (CamRegs.mk true x slots).error = true := by
  have hw : (CamRegs.mk true x slots).writeHit = false := decide_eq_false fun ⟨s, hs⟩ => hid s hs
  have hempty : (CamRegs.mk true x slots).emptySlot = none :=
    lastWay_eq_none.2 fun s => by simp [hfull s]
  rw [CamRegs.error, hw, hempty]
  rfl

end ItchOrderBook.OrderTable
