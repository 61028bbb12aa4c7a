import ItchOrderBook.Pipeline.Served
import ItchOrderBook.System.Admission
import ItchOrderBook.System.Loops

/-!
# Sessions that the reference takes

While the reference takes the messages without an error, what the RTL shows of them is admitted by its
control module, and the results of its book are the answers of the reference book with the same
`stock_active` (`Served`). This is kept from message to message (`Follows.served`) and so over the payload
of a packet (`Follows.payload`).
-/

namespace ItchOrderBook.System

open Decode (Decoded symbolBits view views)
open Gating (after gates hasResult)
open Ref (BookMsg BookResult Control ControlResult ITCHMsg Outcome Top TopResult)
open Rtl (ControlRegs)
open Session (Agree Configured)

/-! ### One message at the control modules -/

section Control

variable {mkt : Rtl.Market} {sym : String} {loc : BitVec 16} {q : ControlRegs} {s s' : Control} {m : ITCHMsg}
  {res : ControlResult} {hr : Bool}

/-- What a message that both take leaves behind. -/
structure Stepped (mkt : Rtl.Market) (sym : String) (q q' : ControlRegs) (s s' : Control) (m : ITCHMsg)
    (res : ControlResult) : Prop where
  agree : Agree q' s'
  hours : q.msgHours = true ∨ ∃ l, m = .systemEvent l .msgBegin
  active : res.stockActive = s'.stockActive

theorem event_stepped (hc : Configured mkt sym q s) (ha : Agree q s) {l : ℕ} {e : Ref.SystemEventCode}
    (h : s.processMsg (.systemEvent l e) = (.ret res, s')) :
    Stepped mkt sym q (after q (.event e)) s s' (.systemEvent l e) res := by
  rw [Session.processMsg_of_initialized hc.ref] at h
  obtain ⟨h1, h2, h3, h4, h5, h6⟩ := ha
  -- an assertion that holds leaves the branch that sets the flag
  cases e <;> simp only [Control.onEvent] at h <;> split_ifs at h <;> first
    | cases h; done
    | obtain ⟨he, rfl, rfl⟩ := finish_ret h
      refine ⟨by constructor <;> simp [after, *], ?_, rfl⟩
      first
        | exact Or.inr ⟨l, rfl⟩
        | exact Or.inl (h1.trans he)

theorem directory_stepped (hc : Configured mkt sym q s) (hsym : sym.toByteArray.size = 8) (ha : Agree q s)
    {l : ℕ} {t : String} (hf : Fields (.directory l t))
    (h : s.processMsg (.directory l t) = (.ret res, s')) :
    Stepped mkt sym q (after q (.directory l (symbolBits t))) s s' (.directory l t) res := by
  rw [Session.processMsg_of_initialized hc.ref] at h
  obtain ⟨hl, ht⟩ := hf
  have hiff := Session.symbol_iff hc hsym ht
  obtain ⟨h1, h2, h3, h4, h5, h6⟩ := ha
  simp only [Control.onDirectory] at h
  by_cases hsame : some t = s.stockSymbol
  · rw [if_pos hsame] at h
    split_ifs at h with hmis
    · cases h
    obtain ⟨he, rfl, rfl⟩ := finish_ret h
    refine ⟨?_, Or.inl (h1.trans he), rfl⟩
    rw [after, if_pos (hiff.2 hsame)]
    have hnat : (BitVec.ofNat 16 l).toNat = l := by rw [BitVec.toNat_ofNat, Nat.mod_eq_of_lt hl]
    exact ⟨h1, h2, h3, h4, h5, (congrArg some hnat).symm⟩
  · rw [if_neg hsame] at h
    obtain ⟨he, rfl, rfl⟩ := finish_ret h
    refine ⟨?_, Or.inl (h1.trans he), rfl⟩
    rw [after, if_neg (mt hiff.1 hsame)]
    exact ⟨h1, h2, h3, h4, h5, h6⟩

theorem action_stepped (hc : Configured mkt sym q s) (hsym : sym.toByteArray.size = 8) (ha : Agree q s)
    {l : ℕ} {t : String} {a : Ref.TradeActionCode} (hf : Fields (.tradeAction l t a))
    (h : s.processMsg (.tradeAction l t a) = (.ret res, s')) :
    Stepped mkt sym q (after q (.action l (symbolBits t) a)) s s' (.tradeAction l t a) res := by
  rw [Session.processMsg_of_initialized hc.ref] at h
  have hiff := Session.symbol_iff hc hsym hf
  obtain ⟨h1, h2, h3, h4, h5, h6⟩ := ha
  simp only [Control.onAction] at h
  by_cases hsame : some t = s.stockSymbol
  · rw [if_pos hsame] at h
    cases a <;> obtain ⟨he, rfl, rfl⟩ := finish_ret h <;>
      refine ⟨?_, Or.inl (h1.trans he), rfl⟩ <;> rw [after, if_pos (hiff.2 hsame)] <;>
      exact ⟨h1, h2, h3, by simp, h5, h6⟩
  · rw [if_neg hsame] at h
    obtain ⟨he, rfl, rfl⟩ := finish_ret h
    refine ⟨?_, Or.inl (h1.trans he), rfl⟩
    rw [after, if_neg (mt hiff.1 hsame)]
    exact ⟨h1, h2, h3, h4, h5, h6⟩

theorem halt_stepped (hc : Configured mkt sym q s) (hsym : sym.toByteArray.size = 8) (ha : Agree q s)
    {l : ℕ} {t : String} {c : Char} {b : Bool} (hf : Fields (.opHalt l t c b))
    (h : s.processMsg (.opHalt l t c b) = (.ret res, s')) :
    Stepped mkt sym q (after q (.halt l (symbolBits t) c b)) s s' (.opHalt l t c b) res := by
  rw [Session.processMsg_of_initialized hc.ref] at h
  have hiff := Session.symbol_iff hc hsym hf
  have hmarket : c = Decode.market q.initMarket ↔ some c = s.marketCode := by
    rw [hc.rtlMarket, hc.refMarket, Option.some.injEq]
  obtain ⟨h1, h2, h3, h4, h5, h6⟩ := ha
  simp only [Control.onHalt] at h
  by_cases hsame : some t = s.stockSymbol ∧ some c = s.marketCode
  · rw [if_pos hsame] at h
    split_ifs at h
    · cases h
    obtain ⟨he, rfl, rfl⟩ := finish_ret h
    refine ⟨?_, Or.inl (h1.trans he), rfl⟩
    rw [after, if_pos ⟨hiff.2 hsame.1, hmarket.2 hsame.2⟩]
    exact ⟨h1, h2, h3, h4, rfl, h6⟩
  · rw [if_neg hsame] at h
    obtain ⟨he, rfl, rfl⟩ := finish_ret h
    refine ⟨?_, Or.inl (h1.trans he), rfl⟩
    rw [after, if_neg fun hn => hsame ⟨hiff.1 hn.1, hmarket.1 hn.2⟩]
    exact ⟨h1, h2, h3, h4, h5, h6⟩

/-- What the signals show of an order message is one order, or nothing. -/
theorem view_book (loc : BitVec 16) (hr : Bool) (o : BookMsg) :
    view loc hr (.book o) = [] ∨ ∃ d, view loc hr (.book o) = [d] ∧ isOrder d = true := by
  cases o <;> rw [view] <;> split_ifs <;> first
    | exact Or.inl rfl
    | exact Or.inr ⟨_, rfl, rfl⟩

theorem after_of_isOrder {d : Decoded} (h : isOrder d = true) : after q d = q := by
  cases d <;> first | rfl | cases h

theorem foldl_after_book (loc : BitVec 16) (hr : Bool) (o : BookMsg) :
    (view loc hr (.book o)).foldl after q = q := by
  rcases view_book loc hr o with h | ⟨d, h, hd⟩
  · rw [h]
    rfl
  · rw [h]
    exact after_of_isOrder hd

/-- **One message at both control modules**, if that of the reference takes it. -/
theorem control_stepped (hc : Configured mkt sym q s) (hsym : sym.toByteArray.size = 8) (ha : Agree q s)
    (hf : Fields m) (h : s.processMsg m = (.ret res, s')) :
    Stepped mkt sym q ((view loc hr m).foldl after q) s s' m res := by
  cases m with
  | systemEvent l e => exact event_stepped hc ha h
  | directory l t => exact directory_stepped hc hsym ha hf h
  | tradeAction l t a => exact action_stepped hc hsym ha hf h
  | opHalt l t c b => exact halt_stepped hc hsym ha hf h
  | book o =>
    rw [Session.processMsg_of_initialized hc.ref] at h
    obtain ⟨he, rfl, rfl⟩ := finish_ret h
    rw [foldl_after_book]
    exact ⟨ha, Or.inl (ha.msgHours.trans he), rfl⟩
  | other l =>
    rw [Session.processMsg_of_initialized hc.ref] at h
    obtain ⟨he, rfl, rfl⟩ := finish_ret h
    exact ⟨ha, Or.inl (ha.msgHours.trans he), rfl⟩

theorem config_foldl (ds : List Decoded) (q : ControlRegs) :
    (ds.foldl after q).initialized = q.initialized ∧ (ds.foldl after q).initMarket = q.initMarket ∧
      (ds.foldl after q).initStockSymbol = q.initStockSymbol := by
  induction ds generalizing q with
  | nil => exact ⟨rfl, rfl, rfl⟩
  | cons d ds ih =>
    obtain ⟨h1, h2, h3⟩ := ih (after q d)
    obtain ⟨h1', h2', h3'⟩ := config_after q d
    exact ⟨h1.trans h1', h2.trans h2', h3.trans h3'⟩

theorem configured_foldl (hc : Configured mkt sym q s) (ds : List Decoded)
    (h : s.processMsg m = (.ret res, s')) : Configured mkt sym (ds.foldl after q) s' := by
  obtain ⟨h1, h2, h3⟩ := config_foldl ds q
  obtain ⟨h1', h2', h3'⟩ := Session.processMsg_config s m
  rw [h] at h1' h2' h3'
  exact ⟨h1.trans hc.rtl, h2.trans hc.rtlMarket, h3.trans hc.rtlSymbol, h1'.trans hc.ref,
    h2'.trans hc.refMarket, h3'.trans hc.refSymbol⟩

end Control

/-! ### One message at the pipelines -/

/-- The control module of the RTL is in step with the reference pipeline, whose stock locate is `loc` once
it is known. -/
structure Follows (mkt : Rtl.Market) (sym : String) (loc : BitVec 16) (q : ControlRegs) (s : Top {}) :
    Prop where
  config : Configured mkt sym q s.ctrl
  agree : Agree q s.ctrl
  synced : Session.Synced s
  active : s.stockActive = s.ctrl.stockActive
  known : ∀ l, s.stockLocate = some l → l = loc.toNat

/-- What the book does with the message: it answers those of the stock, and sees no others. -/
def Booked (loc : BitVec 16) (s : Top {}) (m : ITCHMsg) (r : Option BookResult) (s' : Top {}) : Prop :=
  (∃ o res, m = .book o ∧ o.stockLocate = loc.toNat ∧ s.book.processMsg o = (.ret res, s'.book) ∧
    r = some res) ∨
  (∀ o, m = .book o → o.stockLocate ≠ loc.toNat) ∧ r = none ∧ s'.book = s.book

section Pipeline

variable {mkt : Rtl.Market} {sym : String} {loc : BitVec 16} {q : ControlRegs} {s s' : Top {}} {m : ITCHMsg}
  {r : Option BookResult}

/-- The stock locate of the pipeline is known exactly if that of the registers is. -/
theorem Follows.locateV (h : Follows mkt sym loc q s) : q.stockLocateV = true ↔ s.stockLocate ≠ none := by
  have hs : s.stockLocate = s.ctrl.stockLocate := h.synced
  rw [hs, h.agree.stockLocate]
  cases q.stockLocateV <;> simp

/-- The book stage, for a message that is taken. -/
theorem toBook_ok (hknown : ∀ l, s.stockLocate = some l → l = loc.toNat)
    (hp : s.toBook m = (.ok r, s')) :
    (∃ book, s' = { s with book }) ∧ Booked loc s m r s' ∧
      ∀ o, m = .book o → s.stockLocate ≠ none := by
  cases m with
  | book o =>
    simp only [Top.toBook] at hp
    cases hl : s.stockLocate with
    | none =>
      rw [hl] at hp
      cases hp
    | some l =>
      obtain rfl := hknown l hl
      rw [hl] at hp
      dsimp only at hp
      split_ifs at hp with hsame
      · rcases hb : s.book.processMsg o with ⟨res | c | e, book⟩
        · rw [hb] at hp
          cases hp
          exact ⟨⟨book, rfl⟩, Or.inl ⟨o, res, rfl, hsame, hb, rfl⟩, fun _ _ => Option.some_ne_none _⟩
        · rw [hb] at hp
          cases hp
        · rw [hb] at hp
          cases hp
      · cases hp
        refine ⟨⟨s.book, by rw [← hl]⟩, Or.inr ⟨fun o' ho => ?_, rfl, rfl⟩,
          fun _ _ => Option.some_ne_none _⟩
        cases ho
        exact hsame
  | systemEvent l e =>
    cases hp
    exact ⟨⟨s.book, rfl⟩, Or.inr ⟨fun _ ho => (by cases ho), rfl, rfl⟩, fun _ ho => (by cases ho)⟩
  | directory l t =>
    cases hp
    exact ⟨⟨s.book, rfl⟩, Or.inr ⟨fun _ ho => (by cases ho), rfl, rfl⟩, fun _ ho => (by cases ho)⟩
  | tradeAction l t a =>
    cases hp
    exact ⟨⟨s.book, rfl⟩, Or.inr ⟨fun _ ho => (by cases ho), rfl, rfl⟩, fun _ ho => (by cases ho)⟩
  | opHalt l t c b =>
    cases hp
    exact ⟨⟨s.book, rfl⟩, Or.inr ⟨fun _ ho => (by cases ho), rfl, rfl⟩, fun _ ho => (by cases ho)⟩
  | other l =>
    cases hp
    exact ⟨⟨s.book, rfl⟩, Or.inr ⟨fun _ ho => (by cases ho), rfl, rfl⟩, fun _ ho => (by cases ho)⟩

/-- What is shown of a message that is taken is admitted. -/
theorem admitsAll_view (hc : q.initialized = true)
    (hhours : q.msgHours = true ∨ ∃ l, m = .systemEvent l .msgBegin)
    (hdir : ∀ l t, m = .directory l t → symbolBits t = q.initStockSymbol →
      q.stockLocateV = false ∧ BitVec.ofNat 16 l = loc)
    (horder : ∀ o, m = .book o → q.stockLocateV = true) (loc' : BitVec 16) (hr : Bool) :
    AdmitsAll loc q (view loc' hr m) := by
  cases m with
  | systemEvent l e =>
    refine ⟨⟨hc, hhours.imp_right fun ⟨l', hl⟩ => ?_, fun l' hl => (by cases hl), fun hd => (by cases hd)⟩,
      trivial⟩
    cases hl
    rfl
  | directory l t =>
    refine ⟨⟨hc, hhours.imp_right fun ⟨l', hl⟩ => (by cases hl), fun l' hl => ?_, fun hd => (by cases hd)⟩,
      trivial⟩
    obtain ⟨rfl, hs⟩ := Decoded.directory.inj hl
    exact hdir l t rfl hs
  | tradeAction l t a =>
    exact ⟨⟨hc, hhours.imp_right fun ⟨l', hl⟩ => (by cases hl), fun l' hl => (by cases hl),
      fun hd => (by cases hd)⟩, trivial⟩
  | opHalt l t c b =>
    exact ⟨⟨hc, hhours.imp_right fun ⟨l', hl⟩ => (by cases hl), fun l' hl => (by cases hl),
      fun hd => (by cases hd)⟩, trivial⟩
  | book o =>
    rcases view_book loc' hr o with h | ⟨d, h, hd⟩
    · rw [h]
      trivial
    · rw [h]
      refine ⟨⟨hc, hhours.imp_right fun ⟨l', hl⟩ => (by cases hl), fun l' hl => ?_, fun _ => horder o rfl⟩,
        trivial⟩
      rw [hl] at hd
      cases hd
  | other l => trivial

/-- **One message that the reference takes.** -/
theorem Follows.step (h : Follows mkt sym loc q s) (hsym : sym.toByteArray.size = 8) (hf : Fields m)
    (hp : s.processMsg m = (.ok r, s')) (hknown : ∀ l, s'.stockLocate = some l → l = loc.toNat)
    (loc' : BitVec 16) (hr : Bool) :
    Follows mkt sym loc ((view loc' hr m).foldl after q) s' ∧ AdmitsAll loc q (view loc' hr m) ∧
      Booked loc s m r s' := by
  rw [Top.processMsg] at hp
  rcases hctrl : s.ctrl.processMsg m with ⟨res | c | e, ctrl⟩
  · rw [hctrl] at hp
    dsimp only at hp
    have hstep : Stepped mkt sym q ((view loc' hr m).foldl after q) s.ctrl ctrl m res :=
      control_stepped h.config hsym h.agree hf hctrl
    have hconf := configured_foldl h.config (view loc' hr m) hctrl
    rcases Session.control_locate hctrl with ⟨l, t, rfl, ht, hl, hl', -⟩ | ⟨hno, hl, hl'⟩
    · -- the directory message of the stock
      rw [hl, Top.takeLocate] at hp
      dsimp only at hp
      split_ifs at hp with hset
      · cases hp
      · cases hp
        refine ⟨⟨hconf, hstep.agree, hl'.symm, hstep.active, hknown⟩, ?_,
          Or.inr ⟨fun o ho => (by cases ho), rfl, rfl⟩⟩
        refine admitsAll_view h.config.rtl hstep.hours (fun l' t' hm _ => ?_) (fun o ho => (by cases ho)) _ _
        cases hm
        refine ⟨?_, ?_⟩
        · rw [← Bool.not_eq_true, h.locateV]
          exact hset
        · rw [hknown l rfl]
          exact BitVec.ofNat_toNat ..
    · rw [hl, Top.takeLocate] at hp
      have hs' : ∀ l, ({ s with ctrl, stockActive := res.stockActive } : Top {}).stockLocate = some l →
          l = loc.toNat := h.known
      obtain ⟨⟨book, rfl⟩, hbook, hsome⟩ := toBook_ok hs' hp
      have hsynced : s.stockLocate = s.ctrl.stockLocate := h.synced
      refine ⟨⟨hconf, hstep.agree, hsynced.trans hl'.symm, hstep.active, hknown⟩, ?_, hbook⟩
      refine admitsAll_view h.config.rtl hstep.hours (fun l t hm ht => ?_)
        (fun o ho => h.locateV.2 (hsome o ho)) _ _
      subst hm
      refine absurd ?_ (hno l t rfl)
      exact ((Session.symbol_iff h.config hsym hf.2).1 ht).symm
  · rw [hctrl] at hp
    cases hp
  · rw [hctrl] at hp
    cases hp

end Pipeline

/-! ### What is published for what is shown -/

/-- The order message that is shown, at a stock. -/
def orderOf (l : ℕ) : Decoded → Option BookMsg
  | .add _ orderId isBuy shares price => some (.add l orderId isBuy shares price)
  | .reduce _ orderId shares => some (.reduce l orderId shares)
  | .delete _ orderId => some (.delete l orderId)
  | .replace _ orderId shares price => some (.replace l orderId shares price)
  | _ => none

/-- The answers that have a result, of those to the orders that are shown. -/
def answers (ds : List Decoded) (rs : List BookResult) : List BookResult :=
  (((ds.filter isOrder).zip rs).filter fun p => hasResult p.1).map Prod.snd

/-- An answer as it is published. -/
def maskResult (stockActive : Bool) (r : BookResult) : TopResult :=
  if stockActive then ⟨r.bidEntry, r.offEntry, r.spread⟩ else ⟨none, none, none⟩

/-- From one state of the pipeline to another one, the book answers the orders that are shown, and their
results are published, each as the stock state in front of it says. -/
def Serves (loc : BitVec 16) (q : ControlRegs) (s : Top {}) (ds : List Decoded) (out : List TopResult)
    (s' : Top {}) : Prop :=
  ∃ rs, Book.run s.book (ds.filterMap (orderOf loc.toNat)) = some (rs, s'.book) ∧
    rs.length = (ds.filter isOrder).length ∧ (answers ds rs).length = (gates q ds).length ∧
    out = List.zipWith maskResult (gates q ds) (answers ds rs)

section Serves

variable {loc : BitVec 16} {q : ControlRegs} {s s' s'' : Top {}} {ds ds' : List Decoded}
  {out out' : List TopResult}

theorem run_append' {b b' b'' : Ref.Book {}} {ms ms' : List BookMsg} {rs rs' : List BookResult}
    (h : Book.run b ms = some (rs, b')) (h' : Book.run b' ms' = some (rs', b'')) :
    Book.run b (ms ++ ms') = some (rs ++ rs', b'') := by
  induction ms generalizing b rs with
  | nil =>
    cases h
    exact h'
  | cons m ms ih =>
    obtain ⟨r, b₁, rs₁, hp, hrest, rfl⟩ := Book.run_cons h
    have ih := ih hrest
    simp only [List.cons_append, Book.run, hp, ih, Option.map_some]

theorem answers_append {rs rs' : List BookResult} (h : rs.length = (ds.filter isOrder).length) :
    answers (ds ++ ds') (rs ++ rs') = answers ds rs ++ answers ds' rs' := by
  rw [answers, List.filter_append, List.zip_append h.symm, List.filter_append, List.map_append]
  rfl

theorem Serves.append (h : Serves loc q s ds out s') (h' : Serves loc (ds.foldl after q) s' ds' out' s'') :
    Serves loc q s (ds ++ ds') (out ++ out') s'' := by
  obtain ⟨rs, hrun, hlen, hgate, rfl⟩ := h
  obtain ⟨rs', hrun', hlen', hgate', rfl⟩ := h'
  refine ⟨rs ++ rs', ?_, ?_, ?_, ?_⟩
  · rw [List.filterMap_append]
    exact run_append' hrun hrun'
  · rw [List.length_append, List.filter_append, List.length_append, hlen, hlen']
  · rw [answers_append hlen, Gating.gates_append, List.length_append, List.length_append, hgate, hgate']
  · rw [answers_append hlen, Gating.gates_append, List.zipWith_append hgate.symm]

theorem serves_nil (h : s'.book = s.book) (hds : ∀ d ∈ ds, isOrder d = false) : Serves loc q s ds [] s' := by
  have horders : ds.filterMap (orderOf loc.toNat) = [] := by
    refine List.filterMap_eq_nil_iff.2 fun d hd => ?_
    have := hds d hd
    cases d <;> first | rfl | cases this
  have hfilter : ds.filter isOrder = [] := by
    refine List.filter_eq_nil_iff.2 fun d hd => ?_
    rw [hds d hd]
    exact Bool.false_ne_true
  have hgates : gates q ds = [] := by
    clear horders hfilter
    induction ds generalizing q with
    | nil => rfl
    | cons d ds ih =>
      have hd := hds d List.mem_cons_self
      have hresult : hasResult d = false := by cases d <;> first | rfl | cases hd
      rw [gates, hresult, if_neg Bool.false_ne_true, List.nil_append]
      exact ih fun e he => hds e (List.mem_cons_of_mem d he)
  refine ⟨[], ?_, ?_, ?_, ?_⟩
  · rw [horders, h]
    rfl
  · rw [hfilter]
    rfl
  · rw [answers, hfilter, hgates]
    rfl
  · rw [hgates]
    rfl

/-- An order that the book answers. -/
theorem serves_order {d : Decoded} {o : BookMsg} {r : BookResult} (ho : orderOf loc.toNat d = some o)
    (hp : s.book.processMsg o = (.ret r, s'.book)) :
    Serves loc q s [d] (if hasResult d then [maskResult q.stockActive r] else []) s' := by
  have hd : isOrder d = true := by cases d <;> first | rfl | cases ho
  have hfilter : [d].filter isOrder = [d] := List.filter_cons_of_pos hd
  have hans : answers [d] [r] = if hasResult d then [r] else [] := by
    rw [answers, hfilter, List.zip_cons_cons, List.zip_nil_left, List.filter_cons]
    cases hasResult d <;> rfl
  have hgates : gates q [d] = if hasResult d then [q.stockActive] else [] := by
    rw [gates, gates, List.append_nil]
  refine ⟨[r], ?_, by rw [hfilter]; rfl, ?_, ?_⟩
  · rw [List.filterMap_cons_some ho, List.filterMap_nil]
    simp only [Book.run, hp, Option.map_some]
  · rw [hans, hgates]
    cases hasResult d <;> rfl
  · rw [hans, hgates]
    cases hasResult d <;> rfl

end Serves

/-! ### Chunks and payloads -/

/-- From one state of the pipeline to another one, what is shown at the locate `loc'` is admitted, and
served if this is the locate of the stock. -/
structure Served (mkt : Rtl.Market) (sym : String) (loc loc' : BitVec 16) (q : ControlRegs) (s : Top {})
    (ds : List Decoded) (out : List TopResult) (s' : Top {}) : Prop where
  follows : Follows mkt sym loc (ds.foldl after q) s'
  admits : AdmitsAll loc q ds
  serves : loc' = loc → Serves loc q s ds out s'

section Chunks

variable {mkt : Rtl.Market} {sym : String} {loc loc' : BitVec 16} {q : ControlRegs} {s s' s'' : Top {}}
  {m : ITCHMsg} {r : Option BookResult} {ds ds' : List Decoded} {out out' : List TopResult}

theorem Served.append (h : Served mkt sym loc loc' q s ds out s')
    (h' : Served mkt sym loc loc' (ds.foldl after q) s' ds' out' s'') :
    Served mkt sym loc loc' q s (ds ++ ds') (out ++ out') s'' where
  follows := by
    rw [List.foldl_append]
    exact h'.follows
  admits := admitsAll_append.2 ⟨h.admits, h'.admits⟩
  serves hloc := (h.serves hloc).append (h'.serves hloc)

theorem Follows.served_nil (h : Follows mkt sym loc q s) : Served mkt sym loc loc' q s [] [] s :=
  ⟨h, trivial, fun _ => serves_nil rfl fun _ hd => absurd hd List.not_mem_nil⟩

/-- The stock state of both. -/
theorem Follows.stockActive (h : Follows mkt sym loc q s) : q.stockActive = s.stockActive := by
  rw [h.active]
  exact Session.stockActive_eq h.config h.agree

/-- The message is the delete of a replace, whose answer is not published. -/
def withheld (hr : Bool) : ITCHMsg → Bool
  | .book (.delete ..) => hr
  | _ => false

/-- An order of the stock is shown. -/
theorem view_own {o : BookMsg} (h : o.stockLocate = loc.toNat) (hr : Bool) :
    ∃ d, view loc hr (.book o) = [d] ∧ orderOf loc.toNat d = some o ∧
      hasResult d = !withheld hr (.book o) := by
  cases o with
  | add l i b n p =>
    obtain rfl : l = loc.toNat := h
    rw [view, if_pos rfl]
    exact ⟨_, rfl, rfl, rfl⟩
  | reduce l i n =>
    obtain rfl : l = loc.toNat := h
    rw [view, if_pos rfl]
    exact ⟨_, rfl, rfl, rfl⟩
  | delete l i =>
    obtain rfl : l = loc.toNat := h
    rw [view, if_pos rfl]
    exact ⟨_, rfl, rfl, rfl⟩
  | replace l i n p =>
    obtain rfl : l = loc.toNat := h
    rw [view, if_pos rfl]
    exact ⟨_, rfl, rfl, rfl⟩

/-- No order of another stock is shown. -/
theorem view_other (h : ∀ o, m = .book o → o.stockLocate ≠ loc.toNat) (hr : Bool) :
    ∀ d ∈ view loc hr m, isOrder d = false := by
  intro d hd
  cases m with
  | book o =>
    have hne := h o rfl
    have hnil : view loc hr (.book o) = [] := by cases o <;> exact if_neg hne
    rw [hnil] at hd
    exact absurd hd List.not_mem_nil
  | other l => exact absurd hd List.not_mem_nil
  | systemEvent l e =>
    rw [List.mem_singleton.1 hd]
    rfl
  | directory l t =>
    rw [List.mem_singleton.1 hd]
    rfl
  | tradeAction l t a =>
    rw [List.mem_singleton.1 hd]
    rfl
  | opHalt l t c b =>
    rw [List.mem_singleton.1 hd]
    rfl

/-- **One message that the reference takes, served.** -/
theorem Follows.served (h : Follows mkt sym loc q s) (hsym : sym.toByteArray.size = 8) (hf : Fields m)
    (hp : s.processMsg m = (.ok r, s')) (hknown : ∀ l, s'.stockLocate = some l → l = loc.toNat)
    (loc' : BitVec 16) (hr : Bool) :
    Served mkt sym loc loc' q s (view loc' hr m)
      (if withheld hr m then [] else (r.map s'.mask).toList) s' := by
  obtain ⟨hfollows, hadmits, hbooked⟩ := h.step hsym hf hp hknown loc' hr
  refine ⟨hfollows, hadmits, fun hloc => ?_⟩
  subst hloc
  rcases hbooked with ⟨o, res, rfl, hown, hproc, rfl⟩ | ⟨hother, rfl, hbook⟩
  · obtain ⟨d, hview, ho, hres⟩ := view_own hown hr
    rw [foldl_after_book] at hfollows
    have hmask : maskResult q.stockActive res = s'.mask res := by
      rw [maskResult, Top.mask, hfollows.stockActive]
    have hserve := serves_order (q := q) ho hproc
    rw [← hview, hres, hmask] at hserve
    cases hw : withheld hr (.book o) with
    | true =>
      rw [hw] at hserve
      exact hserve
    | false =>
      rw [hw] at hserve
      exact hserve
  · rw [Option.map_none, Option.toList_none, ite_self]
    exact serves_nil hbook (view_other hother hr)

/-- **One chunk.** -/
theorem Follows.chunk (h : Follows mkt sym loc q s) (hsym : sym.toByteArray.size = 8)
    {l : ℕ} {msgs : List ITCHMsg} (hmsgs : Chunked l msgs) (hp : s.processResults msgs none = (.ok r, s'))
    (hknown : ∀ l, s'.stockLocate = some l → l = loc.toNat) (loc' : BitVec 16) :
    Served mkt sym loc loc' q s (views loc' msgs) (r.map s'.mask).toList s' := by
  cases hmsgs with
  | @single m hf _ =>
    have hview : views loc' [m] = view loc' false m := List.append_nil _
    rw [Top.processResults] at hp
    rcases hm : s.processMsg m with ⟨out | res, s₁⟩
    · rw [hm] at hp
      cases hp
    · rw [hm] at hp
      obtain ⟨hres, rfl⟩ := Prod.mk.inj hp
      have hnone : (res <|> none) = res := by cases res <;> rfl
      obtain rfl : res = r := hnone.symm.trans (Except.ok.inj hres)
      have hserved := h.served hsym hf hm hknown loc' false
      have hkept : withheld false m = false := by
        cases m with
        | book o => cases o <;> rfl
        | systemEvent l e => rfl
        | directory l t => rfl
        | tradeAction l t a => rfl
        | opHalt l t c b => rfl
        | other l => rfl
      rw [hkept] at hserved
      rw [hview]
      exact hserved
  | replace old new shares price =>
    have hview : views loc' [.book (.delete l old), .book (.replace l new shares price)] =
        view loc' true (.book (.delete l old)) ++ view loc' false (.book (.replace l new shares price)) := by
      rw [views, views, views, List.append_nil]
      rfl
    rw [Top.processResults] at hp
    rcases hm : s.processMsg (.book (.delete l old)) with ⟨out | res, s₁⟩
    · rw [hm] at hp
      cases hp
    · rw [hm] at hp
      dsimp only at hp
      rw [Top.processResults] at hp
      rcases hm' : s₁.processMsg (.book (.replace l new shares price)) with ⟨out | res', s₂⟩
      · rw [hm'] at hp
        cases hp
      · rw [hm'] at hp
        obtain ⟨hres, rfl⟩ := Prod.mk.inj hp
        have hf : Fields (.book (.delete l old)) := trivial
        have hf' : Fields (.book (.replace l new shares price)) := trivial
        have hknown₁ : ∀ l, s₁.stockLocate = some l → l = loc.toNat := fun l' hl => by
          have hkept := (kept_locate l').message s₁ (.book (.replace l new shares price)) hf' hl
          rw [hm'] at hkept
          exact hknown l' hkept
        have h₁ := h.served hsym hf hm hknown₁ loc' true
        have h₂ := h₁.follows.served hsym hf' hm' hknown loc' false
        -- the book is asked for both or for none
        have hboth : (res' <|> (res <|> none)) = res' := by
          rcases (h.step hsym hf hm hknown₁ loc' true).2.2 with ⟨o, a, ho, hown, -⟩ | ⟨-, rfl, -⟩
          · cases ho
            rcases (h₁.follows.step hsym hf' hm' hknown loc' false).2.2 with
              ⟨o', a', -, -, -, rfl⟩ | ⟨hother, -⟩
            · rfl
            · exact absurd hown (hother (.replace l new shares price) rfl)
          · cases res' <;> rfl
        obtain rfl : res' = r := hboth.symm.trans (Except.ok.inj hres)
        rw [hview]
        exact h₁.append h₂

/-- **The messages of a packet.** -/
theorem Follows.payload (h : Follows mkt sym loc q s) (hsym : sym.toByteArray.size = 8)
    {payload : List (List Ref.Byte)} (hclean : Session.Clean (s.processPayload payload).1)
    (hknown : ∀ l, (s.processPayload payload).2.stockLocate = some l → l = loc.toNat)
    (loc' : BitVec 16) : (∀ m ∈ payload, (Ref.ITCHParser.parseMsg m).IsRet) ∧
      ∃ results, (s.processPayload payload).1 = results.map .result ∧
        Served mkt sym loc loc' q s (payload.flatMap (Decode.yielded loc')) results
          (s.processPayload payload).2 := by
  induction payload generalizing q s with
  | nil => exact ⟨fun _ hm => absurd hm List.not_mem_nil, [], rfl, h.served_nil⟩
  | cons m payload ih =>
    rw [Top.processPayload] at hclean hknown ⊢
    rcases hp : s.processUnparsed m with ⟨out | res, s₁⟩
    · rw [hp] at hclean
      exact absurd hclean (Session.not_clean_error hp)
    · rw [hp] at hclean hknown
      dsimp only at hclean hknown ⊢
      have hknown₁ : ∀ l, s₁.stockLocate = some l → l = loc.toNat := fun l hl =>
        hknown l ((kept_locate l).payload hl payload)
      rw [Top.processUnparsed] at hp
      cases hparse : Ref.ITCHParser.parseMsg m with
      | raise e =>
        rw [hparse] at hp
        cases hp
      | err c =>
        rw [hparse] at hp
        cases hp
      | ret msgs =>
        rw [hparse] at hp
        dsimp only at hp
        rcases hr : s.processResults msgs none with ⟨out | r, s₂⟩
        · rw [hr] at hp
          cases hp
        · rw [hr] at hp
          cases hp
          have hchunk := h.chunk hsym (shaped_parseMsg m msgs hparse) hr hknown₁ loc'
          obtain ⟨hret, results, hout, hrest⟩ :=
            ih hchunk.follows (Session.clean_append.1 hclean).2 hknown
          refine ⟨List.forall_mem_cons.2 ⟨⟨msgs, hparse⟩, hret⟩, (r.map s₁.mask).toList ++ results, ?_, ?_⟩
          · rw [hout, List.map_append]
          · have hyield : Decode.yielded loc' m = views loc' msgs := by
              rw [Decode.yielded, hparse]
            rw [List.flatMap_cons, hyield]
            exact hchunk.append hrest

end Chunks

end ItchOrderBook.System
