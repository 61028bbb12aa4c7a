import ItchOrderBook.Decode.Timing
import ItchOrderBook.System.Located

/-!
# What the book is handed

The book runs on what the ITCH parser shows. As long as the parser raises no error, its orders are as far
apart, and their hashes as early, as the order table and the stages behind it need them (`scheduled`,
`spaced`), only a delete has a replace behind it, and as messages of the stock they are those that the
reference book is given (`orders_sent`).
-/

namespace ItchOrderBook.System

open Decode (Decoded LengthOk Timed emitted)
open Gating (Quiescent itchIns view)
open OrderTable (Scheduled)
open Pipeline (SpacedFrom bookMsg l3In sentFrom)
open Rtl (BookIn BookRegs DecBook ItchOut ItchRegs TopIn TopRegs book itchParser top)

/-! ### Cycles of a stream -/

/-- Some cycles of a stream of inputs. -/
def cyclesFrom (u : ℕ → TopIn) (t m : ℕ) : List TopIn := (List.range m).map fun j => u (t + j)

/-- The inputs of the book in a cycle. -/
def bookAt (q : TopRegs) (u : ℕ → TopIn) (t : ℕ) : BookIn := (top.state q u t).bookIn (u t)

section Cycles

variable {q : TopRegs} {u : ℕ → TopIn} {t m : ℕ}

theorem run_cyclesFrom (q : TopRegs) (u : ℕ → TopIn) (t m : ℕ) :
    top.run (top.state q u t) (cyclesFrom u t m) = top.state q u (t + m) :=
  (Circuit.run_range top _ _ m).trans (Circuit.state_add top q u t m).symm

theorem cyclesFrom_add (u : ℕ → TopIn) (t m k : ℕ) :
    cyclesFrom u t (m + k) = cyclesFrom u t m ++ cyclesFrom u (t + m) k := by
  rw [cyclesFrom, List.range_add, List.map_append, List.map_map]
  refine congrArg _ (List.map_congr_left fun j _ => ?_)
  rw [Function.comp_apply, ← Nat.add_assoc]

theorem cyclesFrom_succ (u : ℕ → TopIn) (t m : ℕ) :
    cyclesFrom u t (m + 1) = cyclesFrom u t m ++ [u (t + m)] := cyclesFrom_add u t m 1

theorem cyclesFrom_head (u : ℕ → TopIn) (t k : ℕ) :
    cyclesFrom u t (k + 1) = u t :: cyclesFrom u (t + 1) k := by
  rw [Nat.add_comm, cyclesFrom_add]
  rfl

/-- What holds along some cycles holds in each of them. -/
theorem along_at {P : TopRegs → TopIn → Prop} (h : top.Along P (top.state q u t) (cyclesFrom u t m))
    {j : ℕ} (hj : j < m) : P (top.state q u (t + j)) (u (t + j)) := by
  obtain ⟨k, rfl⟩ := Nat.exists_eq_add_of_lt hj
  rw [Nat.add_assoc, cyclesFrom_add, cyclesFrom_head] at h
  have hat := h _ _ _ rfl
  rw [run_cyclesFrom] at hat
  exact hat

/-- The book in a run of the top level. -/
theorem book_state {qb : BookRegs} (hq : q.book = qb.reset) (t : ℕ) :
    (top.state q u t).book = book.state qb.reset (bookAt q u) t := by
  induction t with
  | zero => exact hq
  | succ t ih =>
    have hnext : (top.state q u (t + 1)).book = (top.state q u t).book.next (bookAt q u t) := rfl
    rw [hnext, ih]
    rfl

/-! ### Timing -/

/-- The parser has the lengths it expects. -/
theorem lengthOk_along {cycles : List TopIn} (h : top.Along FrontQuiet q cycles) :
    itchParser.Along LengthOk q.itch (itchIns q cycles) := by
  induction cycles generalizing q with
  | nil => exact Circuit.along_nil
  | cons i cycles ih =>
    obtain ⟨hi, hrest⟩ := Circuit.along_cons.1 h
    refine Circuit.along_cons.2 ⟨?_, ih hrest⟩
    have herr := hi.itch
    simp only [ItchRegs.Comb.ipError, Bool.or_eq_false_iff] at herr
    exact ⟨herr.1.1.1.1.1.1.2, herr.1.1.1.1.1.1.1⟩

/-- The outputs of the parser, seen at the top level. -/
theorem itch_outs (cycles : List TopIn) :
    itchParser.trace q.itch (itchIns q cycles) = (view fun q => q.itchOut).trace q cycles := by
  induction cycles generalizing q with
  | nil => rfl
  | cons i cycles ih => exact congrArg (List.cons q.itchOut) (@ih (q.next i))

theorem view_state {ο : Type} (f : TopRegs → ο) (q : TopRegs) (u : ℕ → TopIn) (t : ℕ) :
    (view f).state q u t = top.state q u t := by
  induction t with
  | zero => rfl
  | succ t ih =>
    rw [Circuit.state, Circuit.state, ih]
    rfl

/-- The output of the parser in a cycle. -/
theorem itch_outs_getElem (q : TopRegs) (u : ℕ → TopIn) (t : ℕ) {j m : ℕ} (hj : j < m) :
    (itchParser.trace (top.state q u t).itch (itchIns (top.state q u t) (cyclesFrom u t m)))[j]? =
      some (top.state q u (t + j)).itchOut := by
  rw [itch_outs, cyclesFrom, Circuit.trace_range, List.getElem?_map, List.getElem?_range hj, Option.map_some,
    view_state, ← Circuit.state_add]
  rfl

/-- **The orders are timed.** -/
theorem timed {s : Ref.MoldUDP64Parser} (hq : Quiescent s (top.state q u t))
    (h : top.Along FrontQuiet (top.state q u t) (cyclesFrom u t m)) :
    Timed (itchParser.trace (top.state q u t).itch (itchIns (top.state q u t) (cyclesFrom u t m))) :=
  Decode.timed_of_rested hq.settled.state hq.book hq.del (lengthOk_along h)

end Cycles

/-! ### The schedule of the book -/

/-- From cycle `t₀` on the modules in front of the book raise no error, and nothing is shown before. -/
structure Fronted (q : TopRegs) (u : ℕ → TopIn) (t₀ : ℕ) : Prop where
  rest : ∃ s, Quiescent s (top.state q u t₀)
  quiet : ∀ m, top.Along FrontQuiet (top.state q u t₀) (cyclesFrom u t₀ m)
  before : ∀ t < t₀, (bookAt q u t).decBook.valid = false

section Schedule

variable {q : TopRegs} {u : ℕ → TopIn} {t₀ : ℕ}

/-- The hash of an order is given in the two cycles in front of it. -/
theorem Fronted.hashed (h : Fronted q u t₀) {T : ℕ} (hv : (bookAt q u (t₀ + T)).decBook.valid = true) :
    ∃ n, T = n + 2 ∧
      (bookAt q u (t₀ + n)).oidHash = OrderTable.hash (bookAt q u (t₀ + T)).decBook.orderId ∧
      (bookAt q u (t₀ + n + 1)).oidHash = OrderTable.hash (bookAt q u (t₀ + T)).decBook.orderId := by
  obtain ⟨s, hs⟩ := h.rest
  have htimed := timed hs (h.quiet (T + 1))
  obtain ⟨h2, h1, h0⟩ := htimed.hash T _ (itch_outs_getElem q u t₀ (Nat.lt_succ_self T)) hv
  obtain ⟨n, rfl⟩ := Nat.exists_eq_add_of_le' h2
  exact ⟨n, rfl, h0 _ (itch_outs_getElem q u t₀ (by omega)), h1 _ (itch_outs_getElem q u t₀ (by omega))⟩

/-- Consecutive orders are five cycles apart, or three for a replace behind its delete. -/
theorem Fronted.apart (h : Fronted q u t₀) {T d : ℕ} (hv : (bookAt q u (t₀ + T)).decBook.valid = true)
    (hv' : (bookAt q u (t₀ + (T + (d + 1)))).decBook.valid = true)
    (hno : ∀ k < d, (bookAt q u (t₀ + (T + (k + 1)))).decBook.valid = false) :
    5 ≤ d + 1 ∨ 3 ≤ d + 1 ∧ ((bookAt q u (t₀ + T)).decBook.msgType = .delete ∧
      (bookAt q u (t₀ + T)).decBook.hasRep = true) ∧
      (bookAt q u (t₀ + (T + (d + 1)))).decBook.msgType = .replace := by
  obtain ⟨s, hs⟩ := h.rest
  have hget : ∀ j ≤ T + (d + 1), (itchParser.trace (top.state q u t₀).itch
      (itchIns (top.state q u t₀) (cyclesFrom u t₀ (T + (d + 1) + 1))))[j]? =
      some (top.state q u (t₀ + j)).itchOut := fun j hj => itch_outs_getElem q u t₀ (Nat.lt_succ_of_le hj)
  refine (timed hs (h.quiet (T + (d + 1) + 1))).apart T d _ _ (hget T (by omega)) (hget _ le_rfl) hv hv' ?_
  intro k hk x hx
  rw [hget _ (by omega)] at hx
  obtain rfl := Option.some.inj hx
  exact hno k hk

/-- All orders are at least three cycles apart. -/
theorem Fronted.three (h : Fronted q u t₀) {T d : ℕ} (hv : (bookAt q u (t₀ + T)).decBook.valid = true)
    (hv' : (bookAt q u (t₀ + (T + (d + 1)))).decBook.valid = true) : 3 ≤ d + 1 := by
  induction d using Nat.strong_induction_on with
  | _ d ih =>
    by_cases hno : ∀ k < d, (bookAt q u (t₀ + (T + (k + 1)))).decBook.valid = false
    · rcases h.apart hv hv' hno with h5 | ⟨h3, -⟩
      · omega
      · exact h3
    · push Not at hno
      obtain ⟨k, hk, hvk⟩ := hno
      have := ih k hk (by simpa using hvk)
      omega

/-- **The messages come as the order table needs them.** -/
theorem scheduled (h : Fronted q u t₀) (qb : BookRegs) (hswept : 2048 ≤ t₀)
    (hsmall : ∀ t, (bookAt q u t).decBook.valid = true → (bookAt q u t).decBook.shares.toNat < 2 ^ 31) :
    Scheduled qb.l3 (l3In (bookAt q u)) := by
  have hlate : ∀ t, (bookAt q u t).decBook.valid = true → ∃ T, t = t₀ + T := fun t hv =>
    Nat.exists_eq_add_of_le (not_lt.1 fun hlt => Bool.false_ne_true ((h.before t hlt).symm.trans hv))
  refine ⟨fun t t' hv hv' hlt => ?_, fun t hv => ?_, hsmall⟩
  · obtain ⟨T, rfl⟩ := hlate t hv
    obtain ⟨d, rfl⟩ := Nat.exists_eq_add_of_lt hlt
    rw [Nat.add_assoc, Nat.add_assoc] at hv'
    have := h.three hv hv'
    omega
  · obtain ⟨T, rfl⟩ := hlate t hv
    obtain ⟨n, rfl, h0, h1⟩ := h.hashed hv
    exact ⟨t₀ + n, by omega, (OrderTable.ready_iff (t₀ + n)).2 (by omega), h0, h1⟩

/-- Messages that come one after the other at a distance. -/
theorem spacedFrom_of_apart {f : ℕ → DecBook} {m j n : ℕ} {rep : Bool}
    (hstart : ∀ d, (f (j + d)).valid = true → (∀ k < d, (f (j + k)).valid = false) →
      5 ≤ n + d ∨ 3 ≤ n + d ∧ rep = true ∧ (f (j + d)).msgType = .replace)
    (hnext : ∀ T d, (f T).valid = true → (f (T + (d + 1))).valid = true →
      (∀ k < d, (f (T + (k + 1))).valid = false) →
      5 ≤ d + 1 ∨ 3 ≤ d + 1 ∧ (f T).hasRep = true ∧ (f (T + (d + 1))).msgType = .replace) :
    SpacedFrom n rep ((List.range m).map fun i => f (j + i)) := by
  induction m generalizing j n rep with
  | zero => trivial
  | succ m ih =>
    have htail : (List.range (m + 1)).map (fun i => f (j + i)) =
        f j :: (List.range m).map fun i => f (j + 1 + i) := by
      rw [List.range_succ_eq_map, List.map_cons, List.map_map]
      refine congrArg _ (List.map_congr_left fun i _ => ?_)
      rw [Function.comp_apply, Nat.succ_eq_add_one, Nat.add_assoc, Nat.add_comm 1 i]
    rw [htail, SpacedFrom, Pipeline.after]
    refine ⟨fun hv => hstart 0 hv fun k hk => absurd hk (Nat.not_lt_zero k), ih fun d hv hno => ?_⟩
    rw [Nat.add_assoc, Nat.add_comm 1 d] at hv ⊢
    have hno' : ∀ k < d, (f (j + (k + 1))).valid = false := fun k hk => by
      rw [Nat.add_comm k 1, ← Nat.add_assoc]
      exact hno k hk
    split_ifs with hj
    · rw [Nat.add_comm 1 d]
      exact hnext j d hj hv hno'
    · rw [Nat.add_assoc, Nat.add_comm 1 d]
      refine hstart (d + 1) hv fun k hk => ?_
      cases k with
      | zero => simpa using hj
      | succ k => exact hno' k (by omega)

/-- **The messages come as the stages behind it need them.** -/
theorem spaced (h : Fronted q u t₀) (m : ℕ) :
    Pipeline.Spaced ((List.range m).map fun j => (bookAt q u (t₀ + j)).decBook) := by
  have hspaced : SpacedFrom 5 false ((List.range m).map fun i => (bookAt q u (t₀ + (0 + i))).decBook) := by
    refine spacedFrom_of_apart (f := fun i => (bookAt q u (t₀ + i)).decBook)
      (fun d _ _ => Or.inl (Nat.le_add_right 5 d)) fun T d hv hv' hno => ?_
    rcases h.apart hv hv' hno with h5 | ⟨h3, ⟨-, hrep⟩, htype⟩
    · exact Or.inl h5
    · exact Or.inr ⟨h3, hrep, htype⟩
  simp only [Nat.zero_add] at hspaced
  exact hspaced

end Schedule

/-! ### The orders of the stock -/

theorem orderOf_bookMsg (l : ℕ) (d : DecBook) : orderOf l (Decode.bookMsg d) = some (bookMsg l d) := by
  rw [Decode.bookMsg, bookMsg]
  cases d.msgType <;> rfl

theorem orderOf_ctrlMsg (l : ℕ) (d : Rtl.DecCtrl) : orderOf l (Decode.ctrlMsg d) = none := by
  rw [Decode.ctrlMsg]
  cases d.msgType <;> rfl

/-- The orders that a cycle shows. -/
theorem orders_emitted (l : ℕ) (o : ItchOut) :
    (emitted o).filterMap (orderOf l) = ([o.decBook].filter (·.valid)).map (bookMsg l) ∧
      (emitted o).filter isOrder = ([o.decBook].filter (·.valid)).map Decode.bookMsg := by
  have hctrl : (Decode.ofCtrl o.decCtrl).filterMap (orderOf l) = [] ∧
      (Decode.ofCtrl o.decCtrl).filter isOrder = [] := by
    cases hv : o.decCtrl.valid with
    | false =>
      rw [Decode.ofCtrl_of_not_valid hv]
      exact ⟨rfl, rfl⟩
    | true =>
      rw [Decode.ofCtrl_of_valid hv, List.filterMap_cons_none (orderOf_ctrlMsg l _),
        List.filter_cons_of_neg (by rw [isOrder_ctrlMsg]; exact Bool.false_ne_true)]
      exact ⟨rfl, rfl⟩
  rw [emitted, List.filterMap_append, List.filter_append, hctrl.1, hctrl.2, List.nil_append, List.nil_append,
    Decode.ofBook]
  cases hv : o.decBook.valid with
  | false =>
    rw [if_neg Bool.false_ne_true, List.filter_cons_of_neg (by rw [hv]; exact Bool.false_ne_true)]
    exact ⟨rfl, rfl⟩
  | true =>
    rw [if_pos rfl, List.filter_cons_of_pos hv, List.filterMap_cons_some (orderOf_bookMsg l _),
      List.filter_cons_of_pos (isOrder_bookMsg _)]
    exact ⟨rfl, rfl⟩

/-- **The book is handed the orders that are shown.** -/
theorem orders_sent (q : TopRegs) (u : ℕ → TopIn) (t₀ l m : ℕ) :
    (Gating.shown (top.state q u t₀) (cyclesFrom u t₀ m)).filterMap (orderOf l) =
        (sentFrom (l3In (bookAt q u)) t₀ m).map (bookMsg l) ∧
      (Gating.shown (top.state q u t₀) (cyclesFrom u t₀ m)).filter isOrder =
        (sentFrom (l3In (bookAt q u)) t₀ m).map Decode.bookMsg := by
  induction m with
  | zero => exact ⟨rfl, rfl⟩
  | succ m ih =>
    have hone : Gating.shown (top.state q u (t₀ + m)) [u (t₀ + m)] =
        emitted (top.state q u (t₀ + m)).itchOut := List.append_nil _
    have hdec : (l3In (bookAt q u) (t₀ + m)).decBook = (top.state q u (t₀ + m)).itchOut.decBook := rfl
    obtain ⟨h1, h2⟩ := orders_emitted l (top.state q u (t₀ + m)).itchOut
    rw [cyclesFrom_succ, shown_append, run_cyclesFrom, hone, List.filterMap_append, List.filter_append, ih.1,
      ih.2, h1, h2, Pipeline.sentFrom_succ, List.map_append, List.map_append, hdec]
    exact ⟨rfl, rfl⟩

/-- An order that is shown comes from a message of the stock, and only that of a delete has no result. -/
theorem of_mem_views {loc : BitVec 16} {msgs : List Ref.ITCHMsg} {d : Decoded}
    (h : d ∈ Decode.views loc msgs) (hd : isOrder d = true) :
    ∃ o, .book o ∈ msgs ∧ o.stockLocate = loc.toNat ∧ orderOf loc.toNat d = some o ∧
      (Gating.hasResult d = false → ∃ l i, o = .delete l i) := by
  induction msgs with
  | nil => exact absurd h List.not_mem_nil
  | cons m msgs ih =>
    rw [Decode.views, List.mem_append] at h
    rcases h with h | h
    · by_cases hown : ∃ o, m = .book o ∧ o.stockLocate = loc.toNat
      · obtain ⟨o, rfl, hown⟩ := hown
        obtain ⟨e, hview, ho, hres⟩ := view_own hown (msgs.any Decode.isReplace)
        rw [hview] at h
        obtain rfl := List.mem_singleton.1 h
        refine ⟨o, List.mem_cons_self, hown, ho, fun hno => ?_⟩
        rw [hno] at hres
        cases o with
        | delete l i => exact ⟨l, i, rfl⟩
        | add l i b n p => cases hres
        | reduce l i n => cases hres
        | replace l i n p => cases hres
      · have hother := view_other (fun o ho hl => hown ⟨o, ho, hl⟩) _ d h
        rw [hd] at hother
        cases hother
    · obtain ⟨o, hmem, hrest⟩ := ih h
      exact ⟨o, List.mem_cons_of_mem m hmem, hrest⟩

/-- An order that is sent comes from a message of the stock. -/
theorem of_mem_sent {loc : BitVec 16} {packets : List (List (List Ref.Byte))} {d : Decoded}
    (hparse : ∀ m ∈ packets.flatten, (Ref.ITCHParser.parseMsg m).IsRet ∧
      Ref.chr (Decode.byteAt m 2) ≠ 'B') (h : d ∈ Gating.sent loc packets) (hd : isOrder d = true) :
    ∃ m ∈ packets.flatten, ∃ msgs, Ref.ITCHParser.parseMsg m = .ret msgs ∧ ∃ o, .book o ∈ msgs ∧
      o.stockLocate = loc.toNat ∧ orderOf loc.toNat d = some o ∧
      (Gating.hasResult d = false → ∃ l i, o = .delete l i) := by
  obtain ⟨m, hm, hmem⟩ := List.mem_flatMap.1 h
  obtain ⟨hret, hB⟩ := hparse m hm
  rw [decodeMsg_of_isRet loc hret hB, Option.getD_some, Decode.yielded] at hmem
  obtain ⟨msgs, hmsgs⟩ := hret
  rw [hmsgs] at hmem
  exact ⟨m, hm, msgs, hmsgs, of_mem_views hmem hd⟩

/-! ### Deletes carry no shares -/

/-- A delete on its way has no shares. -/
structure DeletesEmpty (q : ItchRegs) : Prop where
  del : q.decBookDel.valid = true → q.decBookDel.shares = 0
  book : q.decBook.valid = true → q.decBook.msgType = .delete → q.decBook.shares = 0

/-- A delete is only sent through its extra stage, whose shares are zero. -/
theorem comb_deletes (q : ItchRegs) (i : Rtl.ItchIn) : (q.comb i).decBookDel.shares = 0 ∧
    ((q.comb i).decBook.valid = true → (q.comb i).decBook.msgType ≠ .delete) := by
  have hcount : (q.count i).decBookDel.shares = 0 ∧ (q.count i).decBook.valid = false := ⟨rfl, rfl⟩
  cases hi : i.ipDataV with
  | false =>
    rw [Decode.comb_idle hi]
    exact ⟨rfl, fun h => absurd h Bool.false_ne_true⟩
  | true =>
    rw [ItchRegs.comb, if_pos hi]
    cases q.state <;> dsimp only
    case idle =>
      rw [ItchRegs.onIdle]
      split <;> exact ⟨rfl, fun h => absurd h Bool.false_ne_true⟩
    case sysEvent =>
      rw [ItchRegs.onSysEvent]
      split_ifs <;> exact ⟨rfl, fun h => absurd h Bool.false_ne_true⟩
    case directory =>
      rw [ItchRegs.onDirectory]
      split_ifs <;> exact ⟨rfl, fun h => absurd h Bool.false_ne_true⟩
    case tradingAction =>
      rw [ItchRegs.onTradingAction]
      split_ifs <;> exact ⟨rfl, fun h => absurd h Bool.false_ne_true⟩
    case opHalt =>
      rw [ItchRegs.onOpHalt]
      split_ifs <;> exact ⟨rfl, fun h => absurd h Bool.false_ne_true⟩
    case add =>
      rw [ItchRegs.onAdd]
      split_ifs
      · exact ⟨rfl, fun h => absurd h Bool.false_ne_true⟩
      · exact ⟨rfl, fun _ h => by cases h⟩
      · exact ⟨rfl, fun h => absurd h Bool.false_ne_true⟩
    case execute =>
      rw [ItchRegs.onExecute]
      split_ifs
      · exact ⟨rfl, fun h => absurd h Bool.false_ne_true⟩
      · exact ⟨rfl, fun _ h => by cases h⟩
      · exact ⟨rfl, fun h => absurd h Bool.false_ne_true⟩
    case executeP =>
      rw [ItchRegs.onExecuteP]
      split_ifs
      · exact ⟨rfl, fun h => absurd h Bool.false_ne_true⟩
      · exact ⟨rfl, fun _ h => by cases h⟩
      · exact ⟨rfl, fun h => absurd h Bool.false_ne_true⟩
    case delete =>
      rw [ItchRegs.onDelete]
      split_ifs <;> exact ⟨rfl, fun h => absurd h Bool.false_ne_true⟩
    case replace =>
      rw [ItchRegs.onReplace]
      split_ifs
      · exact ⟨rfl, fun h => absurd h Bool.false_ne_true⟩
      · exact ⟨rfl, fun h => absurd h Bool.false_ne_true⟩
      · exact ⟨rfl, fun h => absurd h Bool.false_ne_true⟩
      · exact ⟨rfl, fun _ h => by cases h⟩
      · exact ⟨rfl, fun h => absurd h Bool.false_ne_true⟩
    case ignore => exact ⟨rfl, fun h => absurd h Bool.false_ne_true⟩

theorem DeletesEmpty.next {q : ItchRegs} (h : DeletesEmpty q) (i : Rtl.ItchIn) :
    DeletesEmpty (q.next i) := by
  obtain ⟨hdel, hbook⟩ := comb_deletes q i
  refine ⟨fun _ => hdel, fun hv htype => ?_⟩
  rw [Decode.next_decBook] at hv htype ⊢
  cases hq : q.decBookDel.valid with
  | true =>
    rw [if_pos rfl]
    exact h.del hq
  | false =>
    rw [hq, if_neg Bool.false_ne_true] at hv htype
    exact absurd htype (hbook hv)

/-- Behind a rest, deletes carry no shares. -/
theorem deletesEmpty {q : TopRegs} {u : ℕ → TopIn} {t₀ : ℕ} {s : Ref.MoldUDP64Parser}
    (hq : Quiescent s (top.state q u t₀)) (j : ℕ) : DeletesEmpty (top.state q u (t₀ + j)).itch := by
  induction j with
  | zero =>
    exact ⟨fun h => absurd (hq.del.symm.trans h) Bool.false_ne_true,
      fun h => absurd (hq.book.symm.trans h) Bool.false_ne_true⟩
  | succ j ih => exact ih.next _

end ItchOrderBook.System
