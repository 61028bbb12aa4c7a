import ItchOrderBook.Book.Lifecycle
import ItchOrderBook.Book.OrderMemory
import ItchOrderBook.OrderTable.Schedules
import ItchOrderBook.Pipeline.HalfCases

/-!
# The order table in front of the book

As long as L3 of the reference takes every message, `l3_order_table` raises no error and looks up each
order as L3 passes it downstream (`Scheduled.mirrors`). In such a run neither of them uses its CAM: L3 never
does, as its debug log raises first, and so a new order always finds a free way.
-/

namespace ItchOrderBook.Pipeline

open Book (OrderMap Unspilled l3Calls orderMap)
open OrderTable (Kept Live Order Scheduled hash lives outAt stateAt stored)
open Ref (BookMsg DownstreamOrderMsg L3 L3Entry L3Memory)
open Rtl (DecBook L3In L3Line L3Regs L3Word)

/-! ### The same orders -/

/-- The message that the decoder stands for, at a stock. -/
def bookMsg (stockLocate : ℕ) (d : DecBook) : BookMsg :=
  match d.msgType with
  | .add => .add stockLocate d.orderId.toNat d.isBuy d.shares.toNat d.price.toNat
  | .replace => .replace stockLocate d.orderId.toNat d.shares.toNat d.price.toNat
  | .reduce => .reduce stockLocate d.orderId.toNat d.shares.toNat
  | .delete => .delete stockLocate d.orderId.toNat

/-- The entry of an order. -/
def l3Entry (o : Order) : L3Entry := ⟨o.isBuy, o.shares.toNat, o.price.toNat⟩

/-- The live orders and the side of the order deleted last, once there is one. -/
structure SameOrders (m : Live) (om : OrderMap) : Prop where
  order : ∀ id : BitVec 64, om.live.lookup id.toNat = (m.order id).map l3Entry
  side : ∀ b, om.lastDelIsBuy = some b → m.lastSide = b

section Step

variable {m : Live} {om om' : OrderMap} {d : DecBook} {lk : DownstreamOrderMsg} {l : ℕ}

theorem SameOrders.mem_iff (h : SameOrders m om) (id : BitVec 64) :
    id.toNat ∈ om.live ↔ m.order id ≠ none := by
  rw [← Finmap.lookup_isSome, h.order, Option.isSome_map, Option.isSome_iff_ne_none]

theorem SameOrders.insert (h : SameOrders m om) (id : BitVec 64) (o : Order) :
    SameOrders (m.set id (some o)) { om with live := om.live.insert id.toNat (l3Entry o) } where
  order id' := by
    by_cases hid : id' = id
    · subst hid
      rw [Finmap.lookup_insert, Live.set_order_self, Option.map_some]
    · have hne : id'.toNat ≠ id.toNat := fun he => hid (BitVec.eq_of_toNat_eq he)
      rw [Finmap.lookup_insert_of_ne _ hne, Live.set_order_of_ne hid, h.order]
  side := h.side

theorem SameOrders.erase (h : SameOrders m om) (id : BitVec 64) :
    SameOrders (m.set id none) { om with live := om.live.erase id.toNat } where
  order id' := by
    by_cases hid : id' = id
    · subst hid
      rw [Finmap.lookup_erase, Live.set_order_self, Option.map_none]
    · have hne : id'.toNat ≠ id.toNat := fun he => hid (BitVec.eq_of_toNat_eq he)
      rw [Finmap.lookup_erase_ne hne, Live.set_order_of_ne hid, h.order]
  side := h.side

/-- What is left of an order. -/
theorem SameOrders.leftover (h : SameOrders m om) (id : BitVec 64) (o : Order) {n : BitVec 32}
    (hn : n.toNat ≤ o.shares.toNat) : SameOrders (m.set id (o.rest n))
      { om with live := Book.leftover om.live id.toNat (l3Entry o) n.toNat } := by
  have hsub : (o.shares - n).toNat = o.shares.toNat - n.toNat := BitVec.toNat_sub_of_le hn
  by_cases h0 : o.shares - n = 0
  · have he : (l3Entry o).shares = n.toNat := by
      have := congrArg BitVec.toNat h0
      rw [hsub] at this
      change (o.shares.toNat : ℤ) = n.toNat
      simp only [BitVec.ofNat_eq_ofNat, BitVec.toNat_ofNat, Nat.zero_mod] at this
      omega
    rw [Order.rest, if_pos h0, Book.leftover, if_pos he]
    exact h.erase id
  · have he : (l3Entry o).shares ≠ n.toNat := by
      intro he
      have hnat : o.shares.toNat = n.toNat := Int.ofNat.inj he
      refine h0 (BitVec.eq_of_toNat_eq ?_)
      rw [hsub, hnat, Nat.sub_self]
      rfl
    rw [Order.rest, if_neg h0, Book.leftover, if_neg he]
    have hrest : l3Entry { o with shares := o.shares - n } =
        ⟨(l3Entry o).isBuy, (l3Entry o).shares - n.toNat, (l3Entry o).price⟩ := by
      have hcast : ((o.shares.toNat - n.toNat : ℕ) : ℤ) = (o.shares.toNat : ℤ) - n.toNat := by omega
      simp only [l3Entry, hsub, hcast]
    rw [← hrest]
    exact h.insert id _

/-- **One message at both tables.** -/
theorem SameOrders.step (h : SameOrders m om) (hs : om.step (bookMsg l d) = some (lk, om')) :
    lk = orderMsg (m.lookup d) ∧ SameOrders (m.after d) om' ∧
      (d.msgType = .add ∨ d.msgType = .replace → m.order d.orderId = none) ∧
      (d.msgType = .reduce ∨ d.msgType = .delete → ∃ o, m.order d.orderId = some o ∧
        (d.msgType = .reduce → d.shares.toNat ≤ o.shares.toNat)) := by
  have hlive := h.mem_iff d.orderId
  have horder := h.order d.orderId
  cases htype : d.msgType with
  | add =>
    rw [bookMsg, htype] at hs
    simp only [OrderMap.step] at hs
    split_ifs at hs with hmem
    cases hs
    have hnone : m.order d.orderId = none := not_not.1 fun hne => hmem (hlive.2 hne)
    have hafter : m.after d = m.set d.orderId (some ⟨d.isBuy, d.shares, d.price⟩) := by
      rw [Live.after, Live.opened, htype]
      rfl
    rw [Live.lookup_add htype, hafter]
    refine ⟨?_, h.insert _ _, fun _ => hnone, fun hr => ?_⟩
    · rw [orderMsg, htype]
      rfl
    · rcases hr with hr | hr <;> cases hr
  | replace =>
    rw [bookMsg, htype] at hs
    simp only [OrderMap.step] at hs
    split_ifs at hs with hmem
    obtain ⟨b, hb, he⟩ := Option.map_eq_some_iff.1 hs
    cases he
    have hnone : m.order d.orderId = none := not_not.1 fun hne => hmem (hlive.2 hne)
    obtain rfl := h.side b hb
    have hafter : m.after d = m.set d.orderId (some ⟨m.lastSide, d.shares, d.price⟩) := by
      rw [Live.after, Live.opened, htype]
      rfl
    rw [Live.lookup_replace htype, hafter]
    refine ⟨?_, h.insert _ _, fun _ => hnone, fun hr => ?_⟩
    · rw [orderMsg, htype]
      rfl
    · rcases hr with hr | hr <;> cases hr
  | reduce =>
    rw [bookMsg, htype] at hs
    simp only [OrderMap.step] at hs
    cases ho : m.order d.orderId with
    | none =>
      rw [horder, ho] at hs
      cases hs
    | some o =>
      rw [horder, ho] at hs
      simp only [Option.map_some] at hs
      split_ifs at hs with hneg
      cases hs
      have hle : d.shares.toNat ≤ o.shares.toNat := Int.ofNat_le.1 (not_lt.1 hneg)
      have hafter : m.after d = m.set d.orderId (o.rest d.shares) := by
        rw [Live.after, htype, ho]
      rw [Live.lookup, htype, ho, hafter]
      refine ⟨rfl, h.leftover _ o hle, fun hr => ?_, fun _ => ⟨o, rfl, fun _ => hle⟩⟩
      rcases hr with hr | hr <;> cases hr
  | delete =>
    rw [bookMsg, htype] at hs
    simp only [OrderMap.step] at hs
    cases ho : m.order d.orderId with
    | none =>
      rw [horder, ho] at hs
      cases hs
    | some o =>
      rw [horder, ho] at hs
      cases hs
      have hafter : m.after d = { m.set d.orderId none with lastSide := o.isBuy } := by
        rw [Live.after, htype, ho]
      rw [Live.lookup, htype, ho, hafter]
      refine ⟨rfl, ⟨(h.erase d.orderId).order, fun b hb => Option.some.inj hb⟩, fun hr => ?_,
        fun _ => ⟨o, rfl, fun hr => ?_⟩⟩
      · rcases hr with hr | hr <;> cases hr
      · cases hr

/-- A message is no error if the id is new and a way is free, or else the order has the shares. -/
theorem not_fails {line : L3Line} {slots : Fin 8 → L3Word}
    (hnew : d.msgType = .add ∨ d.msgType = .replace → m.order d.orderId = none)
    (hfree : d.msgType = .add ∨ d.msgType = .replace → ∃ w, (line w).valid = false)
    (hold : d.msgType = .reduce ∨ d.msgType = .delete → ∃ o, m.order d.orderId = some o ∧
      (d.msgType = .reduce → d.shares.toNat ≤ o.shares.toNat)) : ¬ m.Fails line slots d := by
  have hinsert : d.msgType = .add ∨ d.msgType = .replace → ¬ m.Fails line slots d := by
    intro htype hf
    obtain ⟨w, hw⟩ := hfree htype
    have hfull : m.Full line slots := by
      rcases htype with h | h <;> rw [Live.Fails, h, hnew (by simp [h])] at hf <;> exact hf
    exact Bool.false_ne_true (hw.symm.trans (hfull.1 (Sum.inl w)).1)
  cases htype : d.msgType with
  | add => exact hinsert (Or.inl htype)
  | replace => exact hinsert (Or.inr htype)
  | reduce =>
    obtain ⟨o, ho, hle⟩ := hold (Or.inl htype)
    rw [Live.Fails, htype, ho]
    exact not_lt.2 (hle htype)
  | delete =>
    obtain ⟨o, ho, -⟩ := hold (Or.inr htype)
    rw [Live.Fails, htype, ho]
    exact not_false

theorem isAdd_bookMsg (l : ℕ) (d : DecBook) : (bookMsg l d).msgType.isAdd = d.isAdd := by
  cases htype : d.msgType <;> simp [bookMsg, htype, DecBook.isAdd, BookMsg.msgType, Ref.BookMsgType.isAdd]

theorem orderId_bookMsg (l : ℕ) (d : DecBook) : (bookMsg l d).orderId = d.orderId.toNat := by
  cases htype : d.msgType <;> simp [bookMsg, htype, BookMsg.orderId]

end Step

/-! ### One cycle -/

/-- At the start of a cycle the table holds the orders of L3, and the CAMs of both are empty. -/
structure Mirrors (q : L3Regs) (u : ℕ → L3In) (l3 : L3 {}) (t : ℕ) : Prop where
  kept : Kept q u t
  orders : SameOrders (lives q u t) (orderMap l3)
  slots : ∀ s, ((stored (stateAt q u t)).slots s).valid = false
  bounded : Book.isIdeal l3.memory = false
  unspilled : Unspilled l3.memory

section Cycle

variable {q : L3Regs} {u : ℕ → L3In} {l3 l3' : L3 {}} {t l : ℕ} {lk : DownstreamOrderMsg}

/-- The line of a new order is not full. -/
theorem Mirrors.free (h : Mirrors q u l3 t) {id : BitVec 64} (hroom : Book.HasRoom l3.memory id.toNat) :
    ∃ w, ((stored (stateAt q u t)).mem (hash id) w).valid = false := by
  by_contra hfull
  have hways : ∀ w, ((stored (stateAt q u t)).mem (hash id) w).valid = true := by simpa using hfull
  have hway := fun w => h.kept.1.way (hash id) w (hways w)
  have hids : ∀ w, ((stored (stateAt q u t)).mem (hash id) w).orderId.toNat ∈ l3.memory.toDict := by
    intro w
    refine (h.orders.mem_iff _).2 ?_
    rw [(hway w).2.2]
    exact Option.some_ne_none _
  refine h.unspilled.not_hasRoom h.bounded (fun w w' he => ?_) hids (fun w => ?_) (by decide) hroom
  · exact h.kept.1.way_inj _ w w' (hways w) (hways w') (BitVec.eq_of_toNat_eq he)
  · have he := congrArg BitVec.toNat (hway w).1
    rw [OrderTable.hash, OrderTable.hash, BitVec.extractLsb'_toNat, BitVec.extractLsb'_toNat] at he
    rw [Ref.oidHash_eq_mod, Ref.oidHash_eq_mod]
    exact he

/-- An idle cycle. -/
theorem Mirrors.idle (h : Mirrors q u l3 t) (ht : 2048 ≤ t) (hi : (u t).decBook.valid = false) :
    Mirrors q u l3 (t + 1) where
  kept := OrderTable.kept_idle ht hi h.kept
  orders := by
    have hlives : lives q u (t + 1) = lives q u t := by
      rw [lives, OrderTable.livesFrom, hi]
      rfl
    rw [hlives]
    exact h.orders
  slots := by
    have hst : stored (stateAt q u (t + 1)) = stored (stateAt q u t) :=
      OrderTable.stored_idle hi (OrderTable.swept ht)
    rw [hst]
    exact h.slots
  bounded := h.bounded
  unspilled := h.unspilled

/-- **One message at the table and at L3.** If L3 takes it, the table raises no error for it, looks it up
as L3 passes it downstream, and both hold the same orders again. -/
theorem Mirrors.message (h : Mirrors q u l3 t) (hsched : Scheduled q u) (hv : (u t).decBook.valid = true)
    (h3 : l3.processMsg (bookMsg l (u t).decBook) = (.ret lk, l3')) :
    (outAt q u t).error = false ∧ (outAt q u (t + 1)).error = false ∧
      lk = orderMsg (outAt q u (t + 1)).lookup ∧ Mirrors q u l3' (t + 1) := by
  obtain ⟨hstep, hbounded, hroom⟩ := Book.step_of_ret h3
  rw [(OrderMap.step_fields hstep).1, isAdd_bookMsg, orderId_bookMsg] at hroom
  obtain ⟨hlk, hafter, hnew, hold⟩ := h.orders.step hstep
  obtain ⟨hsees, hoid, -⟩ := hsched.sees hv h.kept
  have hfree : (u t).decBook.msgType = .add ∨ (u t).decBook.msgType = .replace →
      ∃ w, ((stored (stateAt q u t)).mem (OrderTable.hash (u t).decBook.orderId) w).valid = false :=
    fun htype => h.free (hroom (by rcases htype with h | h <;> simp [DecBook.isAdd, h]))
  have hsafe : OrderTable.Safe (stateAt q u t) (u t).decBook := by
    refine fun _ => ⟨fun _ hfind => absurd ?_ hfind, fun htype hempty => ?_⟩
    · rw [Rtl.CamRegs.find, Option.map_eq_none_iff, OrderTable.lastWay_eq_none]
      intro s
      rw [hsees.slots, h.slots s]
      exact Bool.and_false _
    · obtain ⟨w, hw⟩ := hfree htype
      have := OrderTable.lastWay_eq_none.1 hempty w
      rw [hsees.line, hw] at this
      cases this
  obtain ⟨hans, hraised, hst, -⟩ := hsched.message hv h.kept hsafe
  have hno : OrderTable.raised (stateAt q u t) (u t).decBook = false := by
    rw [← Bool.not_eq_true, hans.error]
    exact not_fails hnew hfree hold
  rw [hno] at hraised
  obtain ⟨herr, herr'⟩ := not_or.1 fun he => Bool.false_ne_true (hraised.2 he)
  have hlives : lives q u (t + 1) = (lives q u t).after (u t).decBook := by
    rw [lives, OrderTable.livesFrom, hv]
    rfl
  have hcam : ((stateAt q u t).comb (u t).decBook).camWEn = false :=
    OrderTable.camWEn_eq_false h.kept.1 hsees hv h.slots hfree fun htype => by
      obtain ⟨o, ho, -⟩ := hold htype
      rw [ho]
      exact Option.some_ne_none o
  refine ⟨by simpa using herr, by simpa using herr', hlk.trans (congrArg orderMsg (hans.lookup hno).symm),
    hsched.kept_next hv h.kept hsafe hno, hlives ▸ hafter, fun s => ?_, hbounded.trans h.bounded, ?_⟩
  · have hslots : (stored (stateAt q u (t + 1))).slots = (stored (stateAt q u t)).slots := by
      rw [hst, OrderTable.Store.after, hcam]
      rfl
    rw [hslots]
    exact h.slots s
  · have hunspilled := h.unspilled.processMsg (bookMsg l (u t).decBook)
    rw [h3] at hunspilled
    exact hunspilled

end Cycle

/-! ### Runs -/

/-- What a message keeps when its order is looked up. -/
def kind (d : DecBook) : Bool × Rtl.BookMsgType × Bool := (d.valid, d.msgType, d.hasRep)

section Run

variable {q : L3Regs} {u : ℕ → L3In} {l3 : L3 {}} {t m l : ℕ}

theorem kind_comb (q : L3Regs) (d : DecBook) : kind (q.comb d).lookup = kind d := by
  have hwrite : ∀ c w i, kind (L3Regs.write c w i).lookup = kind c.lookup := by
    intro c w i
    cases i <;> rfl
  unfold L3Regs.comb
  split_ifs
  · split
    all_goals exact hwrite _ _ _
  · rfl

/-- The order looked up in the next cycle is one of the same kind. -/
theorem kind_lookup (q : L3Regs) (u : ℕ → L3In) (t : ℕ) :
    kind (outAt q u (t + 1)).lookup = kind (u t).decBook := kind_comb _ _

/-- The messages in `m` cycles from a cycle on. -/
def sentFrom (u : ℕ → L3In) (t m : ℕ) : List DecBook :=
  ((List.range m).map fun j => (u (t + j)).decBook).filter (·.valid)

/-- The orders looked up for the messages in `m` cycles from a cycle on. -/
def lookedUpFrom (q : L3Regs) (u : ℕ → L3In) (t m : ℕ) : List DecBook :=
  ((List.range m).map fun j => (outAt q u (t + j + 1)).lookup).filter (·.valid)

theorem sentFrom_succ (u : ℕ → L3In) (t m : ℕ) : sentFrom u t (m + 1) =
    sentFrom u t m ++ [(u (t + m)).decBook].filter (·.valid) := by
  rw [sentFrom, List.range_succ, List.map_append, List.filter_append]
  rfl

theorem lookedUpFrom_succ (q : L3Regs) (u : ℕ → L3In) (t m : ℕ) : lookedUpFrom q u t (m + 1) =
    lookedUpFrom q u t m ++ [(outAt q u (t + m + 1)).lookup].filter (·.valid) := by
  rw [lookedUpFrom, List.range_succ, List.map_append, List.filter_append]
  rfl

/-- **The table and L3 over a run.** As long as L3 takes every message, the table looks them up as L3
passes them downstream. -/
theorem Mirrors.run (h : Mirrors q u l3 t) (hsched : Scheduled q u) (ht : 2048 ≤ t)
    (hret : ∀ o ∈ (l3Calls {}).trace l3 ((sentFrom u t m).map (bookMsg l)), o.IsRet) :
    Mirrors q u ((l3Calls {}).run l3 ((sentFrom u t m).map (bookMsg l))) (t + m) ∧
      (l3Calls {}).trace l3 ((sentFrom u t m).map (bookMsg l)) =
        (lookedUpFrom q u t m).map fun d => .ret (orderMsg d) := by
  induction m with
  | zero => exact ⟨h, rfl⟩
  | succ m ih =>
    have hvalid : (outAt q u (t + m + 1)).lookup.valid = (u (t + m)).decBook.valid :=
      congrArg Prod.fst (kind_lookup q u (t + m))
    rw [sentFrom_succ, List.map_append, Circuit.trace_append] at hret
    rw [sentFrom_succ, lookedUpFrom_succ, List.map_append, List.map_append, Circuit.trace_append,
      Circuit.run_append]
    obtain ⟨hmirrors, htrace⟩ := ih fun o ho => hret o (List.mem_append_left _ ho)
    rw [htrace]
    cases hv : (u (t + m)).decBook.valid with
    | false =>
      rw [List.filter_cons_of_neg (by simp [hv]), List.filter_cons_of_neg (by simp [hvalid, hv])]
      exact ⟨hmirrors.idle (by omega) hv, rfl⟩
    | true =>
      rw [List.filter_cons_of_pos (by simp [hv])] at hret
      rw [List.filter_cons_of_pos (by simp [hv]), List.filter_cons_of_pos (by simp [hvalid, hv])]
      obtain ⟨lk, hlk⟩ := hret _ (List.mem_append_right _ List.mem_cons_self)
      obtain ⟨-, -, rfl, hnext⟩ := hmirrors.message hsched hv (Prod.ext hlk rfl)
      exact ⟨hnext, congrArg (fun o => _ ++ [o]) hlk⟩

/-- Before the first message both tables are empty. -/
theorem mirrors_start (hsched : Scheduled q u) (ht : 2048 ≤ t)
    (hquiet : ∀ t' < t, (u t').decBook.valid = false) : Mirrors q u (.new {} false) t := by
  induction t, ht using Nat.le_induction with
  | base =>
    obtain ⟨hw, hc, hslots, -, hlives⟩ := hsched.fresh (t := 2048) (by omega)
    have horders : orderMap (.new {} false : L3 {}) = ⟨∅, none⟩ := Book.orderMap_new {} false
    refine ⟨hsched.kept_start, ?_, fun s => ?_, rfl, rfl⟩
    · rw [hlives, horders]
      exact ⟨fun _ => rfl, fun _ h => by cases h⟩
    · rw [OrderTable.stored_eq hw hc]
      exact hslots s
  | succ t ht ih =>
    exact (ih fun t' h => hquiet t' (Nat.lt_succ_of_lt h)).idle ht (hquiet t (Nat.lt_succ_self t))

end Run

end ItchOrderBook.Pipeline
