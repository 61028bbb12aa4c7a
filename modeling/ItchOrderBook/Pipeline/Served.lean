import ItchOrderBook.Pipeline.Reported

/-!
# The book over a run that the reference answers

If the reference answers every message of a run, then `book_error_o` stays low in every cycle from reset
on, and the answers of the reference are published, but for those to deletes with a replace behind them
(`book_serves`). The errors are taken apart: those of the order table (`l3_silent`), those of the stages
behind it (`backend_silent`), and the one for a message that comes before the tables are ready
(`ready_from`).
-/

namespace ItchOrderBook.Pipeline

open Book (l3Calls)
open OrderTable (Scheduled outAt)
open Ref (BookMsg BookResult L3)
open Rtl (BookIn BookRegs DecBook L3In L3Regs book l2PriceTable)

/-! ### Readiness -/

section Ready

variable {q : BookRegs} {v : ℕ → BookIn}

/-- The inputs of the price table in a cycle of the book. -/
theorem l2_state_book (q : BookRegs) (v : ℕ → BookIn) (t : ℕ) :
    (book.state q.reset v t).l2 = l2PriceTable.state q.l2.reset (l2InAt q (behind q v)) t :=
  (l2_behind q v t).trans (l2_state q (behind q v) t)

theorem ready_book_iff (t : ℕ) : (book.state q.reset v t).ready = true ↔
    2048 ≤ t ∧ (book.state q.reset v t).l2.lut.initDone = true := by
  have hl2 := Tables.ready_iff (q := q.l2) (u := l2InAt q (behind q v)) t
  have hl3 := OrderTable.ready_iff (q := q.l3) (u := l3In v) t
  rw [← l2_state_book] at hl2
  have hl3' : (book.state q.reset v t).l3.ram.rstDone = true ↔ 2048 ≤ t := by
    rw [l3_state]
    exact hl3
  have hl2' : (book.state q.reset v t).l2.ready = true ↔
      2048 ≤ t ∧ (book.state q.reset v t).l2.lut.initDone = true := hl2
  rw [BookRegs.ready, Bool.and_eq_true, hl2', hl3']
  exact ⟨fun h => h.1, fun h => ⟨h, h.1⟩⟩

/-- **Once the book is ready, it stays ready.** -/
theorem ready_from {t₀ t : ℕ} (h : (book.state q.reset v t₀).ready = true) (ht : t₀ ≤ t) :
    (book.state q.reset v t).ready = true := by
  obtain ⟨hswept, hdone⟩ := (ready_book_iff t₀).1 h
  refine (ready_book_iff t).2 ⟨hswept.trans ht, ?_⟩
  induction t, ht using Nat.le_induction with
  | base => exact hdone
  | succ t ht ih =>
    have hnext : (book.state q.reset v (t + 1)).l2.lut.initDone =
        ((book.state q.reset v t).l2.lut.initDone ||
          decide ((book.state q.reset v t).l2.lut.count = BitVec.allOnes 11)) := rfl
    rw [hnext, ih, Bool.true_or]

end Ready

/-! ### The order table -/

section Table

variable {q : L3Regs} {u : ℕ → L3In} {l3 : L3 {}} {t₀ l : ℕ}

/-- Messages that are taken up to any cycle leave the tables in step in it. -/
theorem Mirrors.at (h : Mirrors q u l3 t₀) (hsched : Scheduled q u) (h0 : 2048 ≤ t₀)
    (hret : ∀ m, ∀ o ∈ (l3Calls {}).trace l3 ((sentFrom u t₀ m).map (bookMsg l)), o.IsRet) {t : ℕ}
    (ht : t₀ ≤ t) (hv : (u t).decBook.valid = true) :
    (outAt q u t).error = false ∧ (outAt q u (t + 1)).error = false := by
  obtain ⟨m, rfl⟩ := Nat.exists_eq_add_of_le ht
  obtain ⟨hmirrors, -⟩ := h.run hsched h0 (hret m)
  have hnext := hret (m + 1)
  rw [sentFrom_succ, List.map_append, Circuit.trace_append, List.filter_cons_of_pos (by simp [hv])]
    at hnext
  obtain ⟨lk, hlk⟩ := hnext _ (List.mem_append_right _ List.mem_cons_self)
  obtain ⟨herr, herr', -⟩ := hmirrors.message hsched hv (Prod.ext hlk rfl)
  exact ⟨herr, herr'⟩

/-- **The order table raises no error** as long as L3 takes every message. -/
theorem l3_silent (hsched : Scheduled q u) (h0 : 2048 ≤ t₀)
    (hquiet : ∀ t < t₀, (u t).decBook.valid = false)
    (hret : ∀ m, ∀ o ∈ (l3Calls {}).trace (.new {} false) ((sentFrom u t₀ m).map (bookMsg l)), o.IsRet)
    (t : ℕ) : (outAt q u t).error = false := by
  have hstart := mirrors_start hsched h0 hquiet
  have hlate : ∀ t, (u t).decBook.valid = true → t₀ ≤ t := fun t hv =>
    not_lt.1 fun hlt => Bool.false_ne_true ((hquiet t hlt).symm.trans hv)
  cases hv : (u t).decBook.valid with
  | true => exact (hstart.at hsched h0 hret (hlate t hv) hv).1
  | false =>
    by_cases hprev : ∃ n, t = n + 1 ∧ (u n).decBook.valid = true
    · obtain ⟨n, rfl, hn⟩ := hprev
      exact (hstart.at hsched h0 hret (hlate n hn) hn).2
    · apply OrderTable.silent_of_idle hv
      intro n hn
      by_contra hne
      exact hprev ⟨n, hn, by simpa using hne⟩

end Table

/-! ### The stages behind it -/

section Backend

variable {base n t₀ : ℕ} {q : BookRegs} {v : ℕ → BookIn}

/-- The errors of the stages behind the order table, in a cycle of the book. -/
theorem noError_behind {t : ℕ}
    (h : (backend.out (backend.state q.reset (behind q v) t) (behind q v t)).Quiet) :
    NoError (book.state q.reset v t) (v t) := by
  obtain ⟨hl2, hbbo, hdec⟩ := h
  rw [← withLookup_behind q v t]
  exact ⟨hl2, hbbo, hdec⟩

/-- What the messages of `m` cycles from a cycle on are to the stages behind the order table. -/
theorem behind_lookups (t₀ m : ℕ) :
    ((List.range m).map fun j => behind q v (t₀ + j)).map (·.lookup) =
      (List.range m).map fun j => lookupAt q v (t₀ + j) := by
  rw [List.map_map]
  rfl

/-- **The stages behind the order table** raise no error, and publish the answers. -/
theorem backend_serves (hboot : Boots base q (behind q v) n t₀) (hpulse : ∀ t, t₀ ≤ t → (v t).initV = false)
    {m : ℕ} (hspaced : Spaced ((List.range m).map fun j => lookupAt q v (t₀ + j)))
    (hrep : ∀ d ∈ lookedUp q v t₀ m, d.hasRep = true → d.msgType = .delete) {b₀ b : Ref.Book {}}
    (hinit : (Ref.Book.new {} false).initParams base = .ok b₀) {msgs : List BookMsg} {rs : List BookResult}
    (hrun : Book.run b₀ msgs = some (rs, b)) (hm : ∀ msg ∈ msgs, msg.SharesPos)
    (hlook : (l3Calls {}).trace b₀.l3 msgs = (lookedUp q v t₀ m).map fun d => .ret (orderMsg d)) :
    (∀ j < m, NoError (book.state q.reset v (t₀ + j)) (v (t₀ + j))) ∧
      (3 ≤ (afterAll 5 false ((List.range m).map fun j => lookupAt q v (t₀ + j))).1 →
        publishedFrom q v t₀ m = announced ((lookedUp q v t₀ m).zip rs)) := by
  obtain rfl := Book.initParams_eq hinit
  obtain ⟨hans, hfst⟩ := answered_of_run rfl hrun hm hlook hrep (Book.initialised {} false base).l3
  have horders : Book.orderMap (Book.initialised {} false base).l3 = noOrders := Book.orderMap_new {} false
  rw [horders] at hans
  have hidle : ∀ i ∈ (List.range m).map fun j => behind q v (t₀ + j), i.initV = false := by
    intro i hi
    obtain ⟨j, -, rfl⟩ := List.mem_map.1 hi
    exact hpulse _ (Nat.le_add_right t₀ j)
  obtain ⟨hquiet, -, owed, htracking, hpub⟩ := (hboot.tracking none).run (serves_initParams hinit)
    hboot.tick hidle (by rw [behind_lookups]; exact hspaced) hans
    (by rw [hfst, behind_lookups]; rfl)
  rw [behind_lookups] at htracking
  refine ⟨fun j hj => ?_, fun hlate => ?_⟩
  · apply noError_behind
    rw [Circuit.trace_range] at hquiet
    have hmem := hquiet _ (List.mem_map.2 ⟨j, List.mem_range.2 hj, rfl⟩)
    rwa [← Circuit.state_add] at hmem
  · rw [htracking.owed_nil hlate, List.append_nil, List.nil_append, published_behind] at hpub
    exact hpub.symm

end Backend

/-! ### The book -/

section Served

variable {base n t₀ M l : ℕ} {q : BookRegs} {v : ℕ → BookIn}

theorem sentFrom_add (u : ℕ → L3In) (t m k : ℕ) :
    sentFrom u t (m + k) = sentFrom u t m ++ sentFrom u (t + m) k := by
  induction k with
  | zero => exact (List.append_nil _).symm
  | succ k ih => rw [← Nat.add_assoc, sentFrom_succ, sentFrom_succ, ih, List.append_assoc, Nat.add_assoc]

theorem sentFrom_idle {u : ℕ → L3In} {t m : ℕ} (h : ∀ j < m, (u (t + j)).decBook.valid = false) :
    sentFrom u t m = [] := by
  refine List.filter_eq_nil_iff.2 fun d hd => ?_
  obtain ⟨j, hj, rfl⟩ := List.mem_map.1 hd
  rw [h j (List.mem_range.1 hj)]
  exact Bool.false_ne_true

/-- A run that is answered has its first part answered. -/
theorem run_append {b b' : Ref.Book {}} {ms ms' : List BookMsg} {rs : List BookResult}
    (h : Book.run b (ms ++ ms') = some (rs, b')) : ∃ rs₁ b₁ rs₂, Book.run b ms = some (rs₁, b₁) ∧
      Book.run b₁ ms' = some (rs₂, b') ∧ rs = rs₁ ++ rs₂ := by
  induction ms generalizing b rs with
  | nil => exact ⟨[], b, rs, rfl, h, rfl⟩
  | cons m ms ih =>
    obtain ⟨r, b₁, rs', hp, hrest, rfl⟩ := Book.run_cons h
    obtain ⟨rs₁, b₂, rs₂, h₁, h₂, rfl⟩ := ih hrest
    refine ⟨r :: rs₁, b₂, rs₂, ?_, h₂, rfl⟩
    simp only [Book.run, hp, h₁, Option.map_some]

theorem afterAll_idle {k : ℕ} {rep : Bool} {es : List DecBook} (h : ∀ d ∈ es, d.valid = false) :
    (afterAll k rep es).1 = k + es.length := by
  induction es generalizing k with
  | nil => rfl
  | cons d es ih =>
    have hcons : afterAll k rep (d :: es) = afterAll (after k rep d).1 (after k rep d).2 es := rfl
    rw [hcons, after, h d List.mem_cons_self, if_neg Bool.false_ne_true,
      ih fun e he => h e (List.mem_cons_of_mem d he), List.length_cons]
    omega

/-- **The book serves a run that the reference answers.** Take a run of the book from reset on, with the
price table initialised and both tables ready before the first message, in which the messages come as the
decoder sends them, none of them `M` cycles later, and the reference answers them all. Then no error is
raised in any cycle, and the answers of the reference are published, in order, but for those to deletes
with a replace behind them. -/
theorem book_serves (hsched : Scheduled q.l3 (l3In v)) (hboot : Boots base q (behind q v) n (t₀ + 1))
    (hready : (book.state q.reset v t₀).ready = true) (hpulse : ∀ t, t₀ < t → (v t).initV = false)
    (hspaced : Spaced ((List.range M).map fun j => (v (t₀ + j)).decBook))
    (hrep : ∀ d ∈ sentFrom (l3In v) t₀ M, d.hasRep = true → d.msgType = .delete)
    (hend : ∀ t, t₀ + M ≤ t → (v t).decBook.valid = false) {b₀ b : Ref.Book {}}
    (hinit : (Ref.Book.new {} false).initParams base = .ok b₀) {rs : List BookResult}
    (hrun : Book.run b₀ ((sentFrom (l3In v) t₀ M).map (bookMsg l)) = some (rs, b))
    (hm : ∀ d ∈ sentFrom (l3In v) t₀ M, (bookMsg l d).SharesPos) :
    (∀ t, (book.out (book.state q.reset v t) (v t)).error = false) ∧
      ∀ k, publishedFrom q v (t₀ + 1) (M + 2 + k) = announced ((sentFrom (l3In v) t₀ M).zip rs) := by
  have ht : 2048 ≤ t₀ := ((ready_book_iff t₀).1 hready).1
  have hquiet : ∀ t < t₀, (l3In v t).decBook.valid = false := by
    intro t hlt
    have hidle : (lookupAt q v (t + 1)).valid = false := hboot.quiet (t + 1) (by omega)
    rw [lookupAt_eq] at hidle
    exact (congrArg Prod.fst (kind_lookup q.l3 (l3In v) t)).symm.trans hidle
  obtain rfl := Book.initParams_eq hinit
  -- nothing is sent behind the run, and a part of it is answered too
  have hall : ∀ k, sentFrom (l3In v) t₀ (M + k) = sentFrom (l3In v) t₀ M := by
    intro k
    rw [sentFrom_add, sentFrom_idle (t := t₀ + M) fun j _ => hend (t₀ + M + j) (Nat.le_add_right _ _),
      List.append_nil]
  have hret : ∀ m, ∀ o ∈ (l3Calls {}).trace (.new {} false)
      ((sentFrom (l3In v) t₀ m).map (bookMsg l)), o.IsRet := by
    intro m
    rcases le_total m M with hle | hle
    · obtain ⟨k, rfl⟩ := Nat.exists_eq_add_of_le hle
      rw [sentFrom_add, List.map_append] at hrun
      obtain ⟨rs₁, b₁, -, h₁, -, -⟩ := run_append hrun
      exact (l3_run h₁).1
    · obtain ⟨k, rfl⟩ := Nat.exists_eq_add_of_le hle
      rw [hall]
      exact (l3_run hrun).1
  have hkinds : ∀ m, ((List.range m).map fun j => lookupAt q v (t₀ + 1 + j)).map kind =
      ((List.range m).map fun j => (v (t₀ + j)).decBook).map kind := by
    intro m
    rw [List.map_map, List.map_map]
    refine List.map_congr_left fun j _ => ?_
    rw [Function.comp_apply, lookupAt_eq, Nat.add_right_comm]
    exact kind_lookup q.l3 (l3In v) (t₀ + j)
  have hspaced' : ∀ k, Spaced ((List.range (M + k)).map fun j => lookupAt q v (t₀ + 1 + j)) := by
    intro k
    refine (spacedFrom_congr (hkinds (M + k))).2 ?_
    rw [List.range_add, List.map_append]
    refine spacedFrom_idle hspaced fun d hd => ?_
    rw [List.map_map] at hd
    obtain ⟨j, -, rfl⟩ := List.mem_map.1 hd
    exact hend (t₀ + (M + j)) (by omega)
  have hserves := fun k => backend_serves (m := M + k) hboot hpulse (hspaced' k)
    (fun d hd hr => by
      have hmem : kind d ∈ (sentFrom (l3In v) t₀ M).map kind := by
        rw [← hall k, ← kinds_lookedUp]
        exact List.mem_map_of_mem hd
      obtain ⟨e, he, hkind⟩ := List.mem_map.1 hmem
      have htype : e.msgType = d.msgType := congrArg (fun k => k.2.1) hkind
      exact htype.symm.trans (hrep e he ((congrArg (fun k => k.2.2) hkind).trans hr)))
    hinit hrun (List.forall_mem_map.2 hm) (by
      rw [← hall k, lookedUp_eq]
      exact ((mirrors_start hsched ht hquiet).run hsched ht (by rw [hall]; exact (l3_run hrun).1)).2)
  refine ⟨fun t => ?_, fun k => ?_⟩
  · have hl3 : (book.state q.reset v t).l3.error (v t).decBook = false := by
      rw [l3_state]
      exact l3_silent hsched ht hquiet hret t
    have hback : NoError (book.state q.reset v t) (v t) := by
      rcases lt_or_ge t (t₀ + 1) with hlt | hge
      · exact noError_behind (hboot.quiet_before hlt)
      · obtain ⟨j, rfl⟩ := Nat.exists_eq_add_of_le hge
        exact (hserves (j + 1)).1 j (by omega)
    have hearly : (book.state q.reset v t).errorReady (v t) = false := by
      rw [BookRegs.errorReady]
      cases hv : (v t).decBook.valid with
      | false => rfl
      | true =>
        have hlate : t₀ ≤ t := not_lt.1 fun hlt => Bool.false_ne_true ((hquiet t hlt).symm.trans hv)
        rw [ready_from hready hlate]
        rfl
    have hout : (book.out (book.state q.reset v t) (v t)).error =
        (book.state q.reset v t).error (v t) := rfl
    rw [hout, BookRegs.error, hl3, hback.l2, hback.bbo, hback.decUpdt, hearly]
    rfl
  · have hlate : 3 ≤ (afterAll 5 false
        ((List.range (M + (2 + k))).map fun j => lookupAt q v (t₀ + 1 + j))).1 := by
      have hpos : 1 ≤ (afterAll 5 false
          ((List.range M).map fun j => lookupAt q v (t₀ + 1 + j))).1 := afterAll_pos (by decide)
      rw [List.range_add, List.map_append, afterAll_append, List.map_map]
      rw [afterAll_idle fun d hd => by
        obtain ⟨j, -, rfl⟩ := List.mem_map.1 hd
        have hcycle : t₀ + 1 + (M + j) = t₀ + M + j + 1 := by omega
        rw [Function.comp_apply, hcycle]
        exact lookupAt_idle q v (hend _ (by omega))]
      rw [List.length_map, List.length_range]
      omega
    have hpub := (hserves (2 + k)).2 hlate
    rw [← Nat.add_assoc] at hpub
    rw [hpub, announced_congr ((kinds_lookedUp q v t₀ (M + 2 + k)).trans ?_)]
    rw [Nat.add_assoc, hall]

end Served

end ItchOrderBook.Pipeline
