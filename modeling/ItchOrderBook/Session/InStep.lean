import ItchOrderBook.Decode.Reference
import ItchOrderBook.Ref.Control
import ItchOrderBook.Rtl.Control

/-!
# The two control modules in step

Both control modules see the same control messages, the RTL with idle cycles in between. They
stay in step, flag by flag and error by error, exactly as long as no directory message for the
configured symbol carries another locate than the one in force (`inStep_iff`): the reference
refuses such a message and keeps its locate, the RTL raises its error and takes the new one.
-/

namespace ItchOrderBook.Session

open Ref (Control ITCHMsg Exn)
open Rtl (ControlRegs ControlIn DecCtrl control)
open Decode (Decoded ctrlMsg view symbolBits eventCode tradeAction market market_inj)

/-! ### Messages on the control-side signals -/

/-- The stock symbol of the message, if it has one, takes eight bytes. -/
def SymbolOk : ITCHMsg → Prop
  | .directory _ s | .tradeAction _ s _ | .opHalt _ s _ _ => s.toByteArray.size = 8
  | _ => True

/-- A cycle of the RTL, and the message for the reference, if there is one. -/
structure Cycle where
  rtl : ControlIn
  msg : Option ITCHMsg

/-- The control-side signals show the message, if there is one. -/
structure Cycle.Fits (c : Cycle) : Prop where
  initV : c.rtl.initV = false
  idle : c.msg = none → c.rtl.decCtrl.valid = false
  valid : ∀ m, c.msg = some m → c.rtl.decCtrl.valid = true
  shown : ∀ m, c.msg = some m → view 0 false m = [ctrlMsg c.rtl.decCtrl]
  symbol : ∀ m, c.msg = some m → SymbolOk m

/-- Symbols of eight bytes are told apart by their bits. -/
theorem symbolBits_inj {s t : String} (hs : s.toByteArray.size = 8) (ht : t.toByteArray.size = 8) :
    symbolBits s = symbolBits t ↔ s = t := by
  constructor
  · intro h
    have hlen : ∀ u : String, u.toByteArray.size = 8 →
        (u.toByteArray.data.toList.map UInt8.toBitVec).length = 8 := fun u hu => by
      rw [List.length_map, Array.length_toList]
      exact hu
    have hmap := (bits_inj (n := 64) (by rw [hlen s hs]) ((hlen s hs).trans (hlen t ht).symm)).1 h
    have hlist := List.map_injective_iff.2 (fun a b hab => UInt8.toBitVec_inj.1 hab) hmap
    exact String.toByteArray_inj.1 (ByteArray.ext (Array.toList_inj.1 hlist))
  · intro h
    rw [h]

theorem ctrlMsg_event {d : DecCtrl} {e : Ref.SystemEventCode} (h : Decoded.event e = ctrlMsg d) :
    d.msgType = .event ∧ eventCode d.eventCode = e := by
  unfold ctrlMsg at h
  split at h <;> cases h
  exact ⟨‹_›, rfl⟩

theorem ctrlMsg_directory {d : DecCtrl} {l : ℕ} {s : BitVec 64}
    (h : Decoded.directory l s = ctrlMsg d) :
    d.msgType = .directory ∧ d.stockLocate.toNat = l ∧ d.stockSymbol = s := by
  unfold ctrlMsg at h
  split at h <;> cases h
  exact ⟨‹_›, rfl, rfl⟩

theorem ctrlMsg_action {d : DecCtrl} {l : ℕ} {s : BitVec 64} {a : Ref.TradeActionCode}
    (h : Decoded.action l s a = ctrlMsg d) :
    d.msgType = .action ∧ d.stockSymbol = s ∧ tradeAction d.tradeAction = a := by
  unfold ctrlMsg at h
  split at h <;> cases h
  exact ⟨‹_›, rfl, rfl⟩

theorem ctrlMsg_halt {d : DecCtrl} {l : ℕ} {s : BitVec 64} {m : Char} {b : Bool}
    (h : Decoded.halt l s m b = ctrlMsg d) :
    d.msgType = .halt ∧ d.stockSymbol = s ∧ market d.market = m ∧ d.isHalt = b := by
  unfold ctrlMsg at h
  split at h <;> cases h
  exact ⟨‹_›, rfl, rfl, rfl⟩

/-- Order messages are not on the control-side signals. -/
theorem view_book_ne (m : Ref.BookMsg) (d : DecCtrl) : view 0 false (.book m) ≠ [ctrlMsg d] := by
  intro h
  have hctrl : ∀ x, [x] = [ctrlMsg d] → (∃ e, x = .event e) ∨ (∃ l s, x = .directory l s) ∨
      (∃ l s a, x = .action l s a) ∨ ∃ l s m b, x = .halt l s m b := by
    intro x hx
    rw [List.singleton_inj.1 hx]
    unfold ctrlMsg
    split <;> simp
  cases m <;> simp only [view] at h <;> split_ifs at h <;> have := hctrl _ h <;> simp at this

/-! ### Both modules -/

/-- Both control modules on the same cycles. -/
def both : Circuit (ControlRegs × Control) Cycle
    (Rtl.ControlOut × Option (Ref.Outcome Ref.ControlResult)) where
  next s c := (control.next s.1 c.rtl, match c.msg with
    | none => s.2
    | some m => (s.2.processMsg m).2)
  out s c := (control.out s.1 c.rtl, c.msg.map fun m => (s.2.processMsg m).1)

/-- Both modules are initialised with the market `m` and the symbol `sym`. -/
structure Configured (m : Rtl.Market) (sym : String) (q : ControlRegs) (s : Control) : Prop where
  rtl : q.initialized = true
  rtlMarket : q.initMarket = m
  rtlSymbol : q.initStockSymbol = symbolBits sym
  ref : s.initialized = true
  refMarket : s.marketCode = some (market m)
  refSymbol : s.stockSymbol = some sym

/-- The flags and the stock locate are the same in both. -/
structure Agree (q : ControlRegs) (s : Control) : Prop where
  msgHours : q.msgHours = s.msgHours
  sysHours : q.systemHours = s.sysHours
  mktHours : q.marketHours = s.mktHours
  stockHalt : q.stockHalt = s.stockHalt
  marketHalt : q.marketHalt = s.marketHalt
  stockLocate : s.stockLocate = if q.stockLocateV then some q.stockLocate.toNat else none

/-- The RTL raises its error for the message exactly when the reference returns one. -/
def SameVerdict (q : ControlRegs) (s : Control) (c : Cycle) : Prop :=
  ∀ m, c.msg = some m → (q.ctrlError c.rtl = true ↔ (s.processMsg m).1.IsErr)

/-- The message meets no assertion of the reference. -/
def Asserted (s : Control) (c : Cycle) : Prop :=
  ∀ m, c.msg = some m → ∀ e, (s.processMsg m).1 ≠ .raise e

/-- A directory message for the configured symbol carries the locate in force, if there is one. -/
def KeepsLocate (s : Control) (c : Cycle) : Prop :=
  ∀ l sym, c.msg = some (.directory l sym) → s.stockSymbol = some sym →
    ∀ l', s.stockLocate = some l' → l = l'

/-! ### One message -/

@[simp] theorem finish_isErr {s : Control} {e : Bool} {l : Option ℕ} :
    (s.finish e l).1.IsErr ↔ e = false := by
  unfold Control.finish
  cases e <;> simp

@[simp] theorem finish_snd (s : Control) (e : Bool) (l : Option ℕ) : (s.finish e l).2 = s := by
  unfold Control.finish
  cases e <;> rfl

/-- A message does not change what the module was initialised with. -/
theorem processMsg_config (s : Control) (m : ITCHMsg) :
    (s.processMsg m).2.initialized = s.initialized ∧
      (s.processMsg m).2.marketCode = s.marketCode ∧
      (s.processMsg m).2.stockSymbol = s.stockSymbol := by
  unfold Control.processMsg
  split_ifs
  · exact ⟨rfl, rfl, rfl⟩
  · cases m with
    | systemEvent l e => cases e <;> simp only [Control.onEvent] <;> split_ifs <;> simp
    | directory l t => simp only [Control.onDirectory]; split_ifs <;> simp
    | tradeAction l t a => cases a <;> simp only [Control.onAction] <;> split_ifs <;> simp
    | opHalt l t m b => simp only [Control.onHalt]; split_ifs <;> simp
    | book m => simp
    | other l => simp

section Step

variable {mkt : Rtl.Market} {sym : String} {q : ControlRegs} {s : Control} {c : Cycle}

theorem ctrlError_of_valid (hq : q.initialized = true) (hv : c.rtl.decCtrl.valid = true) :
    q.ctrlError c.rtl = (!q.msgExpected c.rtl || q.errorStockLocate c.rtl) := by
  simp [ControlRegs.ctrlError, hq, hv]

theorem msgExpected_of_ne (h : c.rtl.decCtrl.msgType ≠ .event) :
    q.msgExpected c.rtl = q.msgHours :=
  if_neg fun h' => h h'.2.1

theorem errorStockLocate_of_ne (h : c.rtl.decCtrl.msgType ≠ .directory) :
    q.errorStockLocate c.rtl = false := by
  simp [ControlRegs.errorStockLocate, h]

/-- The registers that follow the message are those of the case distinction. -/
theorem next_eq (hf : c.Fits) : control.next q c.rtl = q.comb c.rtl := q.next_eq_comb hf.initV

theorem sameVerdict_of {m : ITCHMsg} (hm : c.msg = some m)
    (h : q.ctrlError c.rtl = true ↔ (s.processMsg m).1.IsErr) : SameVerdict q s c := by
  intro m' hm'
  rw [hm] at hm'
  cases hm'
  exact h

theorem processMsg_of_initialized (hs : s.initialized = true) (m : ITCHMsg) :
    s.processMsg m = match m with
      | .systemEvent _ eventCode => s.onEvent eventCode
      | .directory stockLocate stockSymbol => s.onDirectory stockLocate stockSymbol
      | .tradeAction _ stockSymbol tradeAction => s.onAction stockSymbol tradeAction
      | .opHalt _ stockSymbol marketCode isHalt => s.onHalt stockSymbol marketCode isHalt
      | .book _ | .other _ => s.finish s.msgHours none := by
  have hready : ¬ (!s.initialized) = true := by
    rw [hs]
    exact Bool.false_ne_true
  unfold Control.processMsg
  exact (if_neg hready).trans (by cases m <;> rfl)

theorem event_step (hc : Configured mkt sym q s) (ha : Agree q s) (hf : c.Fits)
    (hassert : Asserted s c) {l : ℕ} {e : Ref.SystemEventCode} (hm : c.msg = some (.systemEvent l e)) :
    SameVerdict q s c ∧ Agree (q.comb c.rtl) (s.processMsg (.systemEvent l e)).2 := by
  have hv := hf.valid _ hm
  obtain ⟨ht, he⟩ := ctrlMsg_event (List.singleton_inj.1 (hf.shown _ hm))
  have hexp : q.msgExpected c.rtl = (decide (e = .msgBegin) || q.msgHours) := by
    rw [ControlRegs.msgExpected, hv, ht, ← he]
    cases c.rtl.decCtrl.eventCode <;> simp [eventCode]
  have hcomb : q.comb c.rtl = q.onEvent c.rtl.decCtrl.eventCode := by
    rw [ControlRegs.comb, hv, ht, if_pos rfl]
  have hraise := hassert _ hm
  have herr : q.ctrlError c.rtl = (!(decide (e = .msgBegin) || q.msgHours)) := by
    rw [ctrlError_of_valid hc.rtl hv, errorStockLocate_of_ne (by rw [ht]; decide), Bool.or_false,
      hexp]
  rw [processMsg_of_initialized hc.ref] at hraise ⊢
  have key : (q.ctrlError c.rtl = true ↔ (s.onEvent e).1.IsErr) ∧
      Agree (q.comb c.rtl) (s.onEvent e).2 := by
    rw [herr, hcomb]
    obtain ⟨h1, h2, h3, h4, h5, h6⟩ := ha
    -- an assertion that holds leaves the branch that sets the flag
    cases hcode : c.rtl.decCtrl.eventCode <;> rw [hcode] at he <;> subst he <;>
      simp only [Control.onEvent, eventCode] at hraise ⊢ <;> split_ifs at hraise ⊢ with hflag <;>
      first
      | exact absurd rfl (hraise _)
      | exact ⟨by simp [h1], by constructor <;> simp [ControlRegs.onEvent, *]⟩
  exact ⟨sameVerdict_of hm (by rw [processMsg_of_initialized hc.ref]; exact key.1), key.2⟩

/-- The symbol on the signals is the configured one exactly when that of the message is. -/
theorem symbol_iff (hc : Configured mkt sym q s) (hsym : sym.toByteArray.size = 8) {t : String}
    (ht : t.toByteArray.size = 8) : symbolBits t = q.initStockSymbol ↔ some t = s.stockSymbol := by
  rw [hc.rtlSymbol, hc.refSymbol, symbolBits_inj ht hsym, Option.some.injEq]

theorem directory_comb {l : ℕ} {t : String} (hf : c.Fits) (hm : c.msg = some (.directory l t)) :
    q.comb c.rtl = (if symbolBits t = q.initStockSymbol then
      { q with stockLocateV := true, stockLocate := c.rtl.decCtrl.stockLocate } else q) ∧
    c.rtl.decCtrl.stockLocate.toNat = l := by
  obtain ⟨ht, hl, hs⟩ := ctrlMsg_directory (List.singleton_inj.1 (hf.shown _ hm))
  rw [ControlRegs.comb, hf.valid _ hm, ht, if_pos rfl, ControlRegs.onDirectory, hs]
  exact ⟨rfl, hl⟩

theorem directory_error (hc : Configured mkt sym q s) {l : ℕ} {t : String} (hf : c.Fits)
    (hm : c.msg = some (.directory l t)) :
    q.ctrlError c.rtl = true ↔ q.msgHours = false ∨ (symbolBits t = q.initStockSymbol ∧
      q.stockLocateV = true ∧ q.stockLocate ≠ c.rtl.decCtrl.stockLocate) := by
  obtain ⟨ht, hl, hs⟩ := ctrlMsg_directory (List.singleton_inj.1 (hf.shown _ hm))
  have hv := hf.valid _ hm
  rw [ctrlError_of_valid hc.rtl hv, msgExpected_of_ne (by rw [ht]; decide),
    ControlRegs.errorStockLocate, hv, ht, hs]
  simp [and_assoc]

theorem directory_step (hc : Configured mkt sym q s) (hsym : sym.toByteArray.size = 8)
    (ha : Agree q s) (hf : c.Fits) (hkeep : KeepsLocate s c) {l : ℕ} {t : String}
    (hm : c.msg = some (.directory l t)) :
    SameVerdict q s c ∧ Agree (q.comb c.rtl) (s.processMsg (.directory l t)).2 := by
  obtain ⟨hcomb, hl⟩ := directory_comb (q := q) hf hm
  have hiff := symbol_iff hc hsym (hf.symbol _ hm)
  have herr := directory_error hc hf hm
  have hproc : s.processMsg (.directory l t) = s.onDirectory l t := processMsg_of_initialized hc.ref _
  obtain ⟨h1, h2, h3, h4, h5, h6⟩ := ha
  by_cases hsame : some t = s.stockSymbol
  · -- the locate in force is the one of the message
    have hlocate : q.stockLocateV = true → q.stockLocate = c.rtl.decCtrl.stockLocate := by
      intro hloc
      rw [if_pos hloc] at h6
      exact BitVec.eq_of_toNat_eq ((hkeep l t hm hsame.symm _ h6).symm.trans hl.symm)
    have hno : ¬ (s.stockLocate ≠ none ∧ some l ≠ s.stockLocate) := by
      rintro ⟨hsome, hne⟩
      obtain ⟨l', hl'⟩ := Option.ne_none_iff_exists'.1 hsome
      exact hne (by rw [hl', hkeep l t hm hsame.symm l' hl'])
    refine ⟨sameVerdict_of hm ?_, ?_⟩
    · rw [herr, hproc, Control.onDirectory, if_pos hsame, if_neg hno, finish_isErr, h1]
      exact ⟨fun h => h.resolve_right fun h' => h'.2.2 (hlocate h'.2.1), Or.inl⟩
    · rw [hproc, Control.onDirectory, if_pos hsame, if_neg hno, finish_snd, hcomb,
        if_pos (hiff.2 hsame)]
      exact ⟨h1, h2, h3, h4, h5, by simp [hl]⟩
  · have hne := mt hiff.1 hsame
    refine ⟨sameVerdict_of hm ?_, ?_⟩
    · rw [herr, hproc, Control.onDirectory, if_neg hsame, finish_isErr, h1]
      exact ⟨fun h => h.resolve_right fun h' => hne h'.1, Or.inl⟩
    · rw [hproc, Control.onDirectory, if_neg hsame, finish_snd, hcomb, if_neg hne]
      exact ⟨h1, h2, h3, h4, h5, h6⟩

/-- After a directory message with another locate the two disagree. -/
theorem directory_disagree (hc : Configured mkt sym q s) (hf : c.Fits) (hkeep : ¬ KeepsLocate s c) :
    ¬ Agree (both.next (q, s) c).1 (both.next (q, s) c).2 := by
  unfold KeepsLocate at hkeep
  push Not at hkeep
  obtain ⟨l, t, hm, ht, l', hl', hne⟩ := hkeep
  obtain ⟨hcomb, hl⟩ := directory_comb (q := q) hf hm
  have hsame : symbolBits t = q.initStockSymbol := by
    rw [hc.refSymbol, Option.some.injEq] at ht
    rw [hc.rtlSymbol, ht]
  intro h
  have hloc := h.stockLocate
  change (match c.msg with | none => s | some m => (s.processMsg m).2).stockLocate = _ at hloc
  simp only [both, hm] at hloc
  rw [next_eq hf, hcomb, if_pos hsame, processMsg_of_initialized hc.ref] at hloc
  have hmis : s.stockLocate ≠ none ∧ some l ≠ s.stockLocate := by
    rw [hl']
    exact ⟨Option.some_ne_none _, fun h => hne (Option.some.inj h)⟩
  simp only [Control.onDirectory, ht, hmis, if_true, and_self, not_false_eq_true, ne_eq] at hloc
  rw [hl', hl, Option.some.injEq] at hloc
  exact hne hloc.symm

theorem action_step (hc : Configured mkt sym q s) (hsym : sym.toByteArray.size = 8)
    (ha : Agree q s) (hf : c.Fits) {l : ℕ} {t : String} {a : Ref.TradeActionCode}
    (hm : c.msg = some (.tradeAction l t a)) :
    SameVerdict q s c ∧ Agree (q.comb c.rtl) (s.processMsg (.tradeAction l t a)).2 := by
  have hv := hf.valid _ hm
  obtain ⟨ht, hs, hact⟩ := ctrlMsg_action (List.singleton_inj.1 (hf.shown _ hm))
  have hiff := symbol_iff hc hsym (hf.symbol _ hm)
  have hcomb : q.comb c.rtl = q.onAction c.rtl.decCtrl := by
    rw [ControlRegs.comb, hv, ht, if_pos rfl]
  have herr : q.ctrlError c.rtl = (!q.msgHours) := by
    rw [ctrlError_of_valid hc.rtl hv, errorStockLocate_of_ne (by rw [ht]; decide), Bool.or_false,
      msgExpected_of_ne (by rw [ht]; decide)]
  have hproc : s.processMsg (.tradeAction l t a) = s.onAction t a :=
    processMsg_of_initialized hc.ref _
  obtain ⟨h1, h2, h3, h4, h5, h6⟩ := ha
  have key : ((!q.msgHours) = true ↔ (s.onAction t a).1.IsErr) ∧
      Agree (q.onAction c.rtl.decCtrl) (s.onAction t a).2 := by
    unfold ControlRegs.onAction Control.onAction
    rw [hs]
    by_cases hsame : some t = s.stockSymbol
    · rw [if_pos (hiff.2 hsame), if_pos hsame]
      cases hcode : c.rtl.decCtrl.tradeAction <;> rw [hcode] at hact <;> subst hact <;>
        exact ⟨by simp [tradeAction, h1], by constructor <;> simp [tradeAction, *]⟩
    · rw [if_neg (mt hiff.1 hsame), if_neg hsame]
      exact ⟨by simp [h1], by rw [finish_snd]; exact ⟨h1, h2, h3, h4, h5, h6⟩⟩
  exact ⟨sameVerdict_of hm (by rw [herr, hproc]; exact key.1), by rw [hcomb, hproc]; exact key.2⟩

theorem halt_step (hc : Configured mkt sym q s) (hsym : sym.toByteArray.size = 8)
    (ha : Agree q s) (hf : c.Fits) (hassert : Asserted s c) {l : ℕ} {t : String} {m : Char} {b : Bool}
    (hm : c.msg = some (.opHalt l t m b)) :
    SameVerdict q s c ∧ Agree (q.comb c.rtl) (s.processMsg (.opHalt l t m b)).2 := by
  have hv := hf.valid _ hm
  obtain ⟨ht, hs, hmkt, hb⟩ := ctrlMsg_halt (List.singleton_inj.1 (hf.shown _ hm))
  have hiff := symbol_iff hc hsym (hf.symbol _ hm)
  have hcomb : q.comb c.rtl = q.onHalt c.rtl.decCtrl := by
    rw [ControlRegs.comb, hv, ht, if_pos rfl]
  have herr : q.ctrlError c.rtl = (!q.msgHours) := by
    rw [ctrlError_of_valid hc.rtl hv, errorStockLocate_of_ne (by rw [ht]; decide), Bool.or_false,
      msgExpected_of_ne (by rw [ht]; decide)]
  have hproc : s.processMsg (.opHalt l t m b) = s.onHalt t m b := processMsg_of_initialized hc.ref _
  have hmarket : c.rtl.decCtrl.market = q.initMarket ↔ some m = s.marketCode := by
    rw [hc.rtlMarket, hc.refMarket, ← hmkt, Option.some.injEq, market_inj]
  have hraise := hassert _ hm
  rw [hproc] at hraise
  obtain ⟨h1, h2, h3, h4, h5, h6⟩ := ha
  have key : ((!q.msgHours) = true ↔ (s.onHalt t m b).1.IsErr) ∧
      Agree (q.onHalt c.rtl.decCtrl) (s.onHalt t m b).2 := by
    rw [ControlRegs.onHalt, hs, hb]
    unfold Control.onHalt at hraise ⊢
    by_cases hsame : some t = s.stockSymbol ∧ some m = s.marketCode
    · rw [if_pos hsame] at hraise ⊢
      rw [if_pos (hiff.2 hsame.1), if_pos (hmarket.2 hsame.2)]
      split_ifs at hraise ⊢ with hflag
      · exact absurd rfl (hraise _)
      · exact ⟨by simp [h1], by constructor <;> simp [*]⟩
    · rw [if_neg hsame, ← ite_and, if_neg fun h => hsame ⟨hiff.1 h.1, hmarket.1 h.2⟩]
      exact ⟨by simp [h1], by rw [finish_snd]; exact ⟨h1, h2, h3, h4, h5, h6⟩⟩
  exact ⟨sameVerdict_of hm (by rw [herr, hproc]; exact key.1), by rw [hcomb, hproc]; exact key.2⟩

/-- **One cycle.** -/
theorem step (hc : Configured mkt sym q s) (hsym : sym.toByteArray.size = 8) (ha : Agree q s)
    (hf : c.Fits) (hassert : Asserted s c) (hkeep : KeepsLocate s c) :
    SameVerdict q s c ∧ Agree (both.next (q, s) c).1 (both.next (q, s) c).2 := by
  simp only [both, next_eq hf]
  cases hm : c.msg with
  | none =>
    refine ⟨fun m h => absurd (hm.symm.trans h) (by simp), ?_⟩
    rw [ControlRegs.comb, hf.idle hm, if_neg Bool.false_ne_true]
    exact ha
  | some m =>
    have hshown := hf.shown m hm
    cases m with
    | systemEvent l e => exact event_step hc ha hf hassert hm
    | directory l t => exact directory_step hc hsym ha hf hkeep hm
    | tradeAction l t a => exact action_step hc hsym ha hf hm
    | opHalt l t m b => exact halt_step hc hsym ha hf hassert hm
    | book m => exact absurd hshown (view_book_ne m _)
    | other l => cases hshown

theorem configured_next (hc : Configured mkt sym q s) (hf : c.Fits) :
    Configured mkt sym (both.next (q, s) c).1 (both.next (q, s) c).2 := by
  have hrtl : ∀ q' : ControlRegs, (if c.rtl.initV then true else q'.initialized) = q'.initialized ∧
      (if c.rtl.initV then c.rtl.initMarket else q'.initMarket) = q'.initMarket ∧
      (if c.rtl.initV then c.rtl.initStockSymbol else q'.initStockSymbol) = q'.initStockSymbol := by
    intro q'
    rw [hf.initV]
    exact ⟨rfl, rfl, rfl⟩
  obtain ⟨h1, h2, h3⟩ := hrtl q
  refine ⟨h1.trans hc.rtl, h2.trans hc.rtlMarket, h3.trans hc.rtlSymbol, ?_, ?_, ?_⟩ <;>
    simp only [both] <;> cases c.msg
  · exact hc.ref
  · exact (processMsg_config s _).1.trans hc.ref
  · exact hc.refMarket
  · exact (processMsg_config s _).2.1.trans hc.refMarket
  · exact hc.refSymbol
  · exact (processMsg_config s _).2.2.trans hc.refSymbol

end Step

/-! ### Runs -/

/-- The verdicts of a cycle are the same, and so are the states and `stock_active` behind it. -/
def InStep (st : ControlRegs × Control) (c : Cycle) : Prop :=
  SameVerdict st.1 st.2 c ∧ Agree (both.next st c).1 (both.next st c).2 ∧
    (both.next st c).1.stockActive = (both.next st c).2.stockActive

theorem stockActive_eq {mkt : Rtl.Market} {sym : String} {q : ControlRegs} {s : Control}
    (hc : Configured mkt sym q s) (ha : Agree q s) : q.stockActive = s.stockActive := by
  simp [ControlRegs.stockActive, Control.stockActive, hc.rtl, ha.msgHours, ha.sysHours,
    ha.stockHalt, ha.marketHalt]

/-- Reset and initialisation. -/
theorem start_agree (q₀ : ControlRegs) {pulse : ControlIn} (hinitV : pulse.initV = true)
    (hquiet : pulse.decCtrl.valid = false) {sym : String}
    (hsymbol : pulse.initStockSymbol = symbolBits sym) {s : Control}
    (hinit : Control.new.initParams (market pulse.initMarket) sym = .ok s) :
    Configured pulse.initMarket sym (control.next q₀.reset pulse) s ∧
      Agree (control.next q₀.reset pulse) s := by
  cases hinit
  change Configured _ _ (q₀.reset.next pulse) _ ∧ Agree (q₀.reset.next pulse) _
  rw [ControlRegs.next, ControlRegs.comb, hquiet, hinitV, hsymbol]
  exact ⟨⟨rfl, rfl, rfl, rfl, rfl, rfl⟩, ⟨rfl, rfl, rfl, rfl, rfl, rfl⟩⟩

/-- **The two control modules.** On every run of control messages that meets no assertion, both
stay in step if and only if every directory message for the configured symbol carries the locate
in force. -/
theorem inStep_iff (q₀ : ControlRegs) {pulse : ControlIn} (hinitV : pulse.initV = true)
    (hquiet : pulse.decCtrl.valid = false) {sym : String} (hsym : sym.toByteArray.size = 8)
    (hsymbol : pulse.initStockSymbol = symbolBits sym) {s : Control}
    (hinit : Control.new.initParams (market pulse.initMarket) sym = .ok s) {cycles : List Cycle}
    (hfit : ∀ c ∈ cycles, c.Fits)
    (hassert : both.Along (fun st c => Asserted st.2 c) (control.next q₀.reset pulse, s) cycles) :
    both.Along InStep (control.next q₀.reset pulse, s) cycles ↔
      both.Along (fun st c => KeepsLocate st.2 c) (control.next q₀.reset pulse, s) cycles := by
  obtain ⟨hc, ha⟩ := start_agree q₀ hinitV hquiet hsymbol hinit
  have hfit' : both.Along (fun _ c => c.Fits) (control.next q₀.reset pulse, s) cycles :=
    Circuit.along_of_forall fun c hmem _ => hfit c hmem
  refine Circuit.along_iff (fun st => Configured pulse.initMarket sym st.1 st.2 ∧
    Agree st.1 st.2) ?_ ?_ ⟨hc, ha⟩ (hassert.and hfit')
  · intro st c hinv hac hkeep
    obtain ⟨hverdict, hagree⟩ := step hinv.1 hsym hinv.2 hac.2 hac.1 hkeep
    have hconf := configured_next hinv.1 hac.2
    exact ⟨⟨hverdict, hagree, stockActive_eq hconf hagree⟩, hconf, hagree⟩
  · intro st c hinv hac hkeep hstep
    exact directory_disagree hinv.1 hac.2 hkeep hstep.2.1

/-- The signals of a directory message. -/
def directoryCycle (locate : BitVec 16) : Cycle where
  rtl := ⟨⟨true, .directory, locate, .o, symbolBits "EXAMPLE1", .h, .q, false⟩, false, false, .q, 0⟩
  msg := some (.directory locate.toNat "EXAMPLE1")

/-- The signals of the event that opens the message hours. -/
def openCycle : Cycle where
  rtl := ⟨⟨true, .event, 0, .o, 0, .h, .q, false⟩, false, false, .q, 0⟩
  msg := some (.systemEvent 0 .msgBegin)

/-- An initialisation pulse. -/
def examplePulse : ControlIn := ⟨DecCtrl.zero, false, true, .b, symbolBits "EXAMPLE1"⟩

/-- The registers before reset. -/
def exampleRegs : ControlRegs := ⟨false, .q, 0, true, true, true, 9, true, false, true⟩

theorem openCycle_fits : openCycle.Fits :=
  ⟨rfl, fun h => (by cases h), fun m h => (by cases h; rfl), fun m h => (by cases h; rfl),
    fun m h => (by cases h; trivial)⟩

theorem directoryCycle_fits (locate : BitVec 16) : (directoryCycle locate).Fits :=
  ⟨rfl, fun h => (by cases h), fun m h => (by cases h; rfl), fun m h => (by cases h; rfl),
    fun m h => (by cases h; exact (show "EXAMPLE1".toByteArray.size = 8 by decide))⟩

/-- The reference after the same initialisation. -/
def exampleControl : Control :=
  ⟨true, some 'B', some "EXAMPLE1", false, false, false, true, false, none⟩

/-- Both modules after it. -/
def exampleStart : ControlRegs × Control :=
  (control.next exampleRegs.reset examplePulse, exampleControl)

theorem asserted_open : Asserted exampleControl openCycle := by
  intro m h e
  cases h
  exact fun h => nomatch h

/-- A directory message meets no assertion. -/
theorem asserted_directory (s : Control) (locate : BitVec 16) :
    Asserted s (directoryCycle locate) := by
  intro m h e
  cases h
  unfold Control.processMsg
  dsimp only
  unfold Control.onDirectory Control.finish
  split_ifs <;> simp

/-- The message hours are opened, and two directory messages follow. -/
def directoryRun (locate : BitVec 16) : List Cycle := [openCycle, directoryCycle 7, directoryCycle locate]

theorem directoryRun_fits (locate : BitVec 16) : ∀ c ∈ directoryRun locate, c.Fits := by
  intro c hc
  rcases List.mem_cons.1 hc with rfl | hc
  · exact openCycle_fits
  · rcases List.mem_cons.1 hc with rfl | hc
    · exact directoryCycle_fits 7
    · rw [List.mem_singleton.1 hc]
      exact directoryCycle_fits locate

theorem asserted_directoryRun (locate : BitVec 16) :
    both.Along (fun st c => Asserted st.2 c) exampleStart (directoryRun locate) :=
  Circuit.along_cons.2 ⟨asserted_open, Circuit.along_cons.2
    ⟨asserted_directory _ 7, Circuit.along_cons.2 ⟨asserted_directory _ locate, Circuit.along_nil⟩⟩⟩

/-- The second directory message carries the locate in force. -/
theorem inStep_iff_directoryRun : both.Along InStep exampleStart (directoryRun 7) ∧
    (both.run exampleStart (directoryRun 7)).1.stockLocate = 7 ∧
    (both.run exampleStart (directoryRun 7)).2.stockLocate = some 7 := by
  refine ⟨?_, by decide, by decide⟩
  refine (inStep_iff exampleRegs rfl rfl (by decide) rfl rfl (directoryRun_fits 7)
    (asserted_directoryRun 7)).2 (Circuit.along_cons.2 ⟨fun l sym h => (by cases h), Circuit.along_cons.2
      ⟨fun l sym h _ l' hl => ?_, Circuit.along_cons.2 ⟨fun l sym h _ l' hl => ?_, Circuit.along_nil⟩⟩⟩)
  · cases hl
  · cases h
    cases hl
    rfl

/-- A second directory message with another locate: the RTL takes it, the reference does not. -/
theorem otherLocate_diverges :
    (∀ c ∈ directoryRun 8, c.Fits) ∧
      both.Along (fun st c => Asserted st.2 c) exampleStart (directoryRun 8) ∧
      (both.run exampleStart (directoryRun 8)).1.stockLocate = 8 ∧
      (both.run exampleStart (directoryRun 8)).2.stockLocate = some 7 ∧
      ¬ both.Along InStep exampleStart (directoryRun 8) := by
  have hrtl : (both.run exampleStart (directoryRun 8)).1.stockLocate = 8 := by decide
  have href : (both.run exampleStart (directoryRun 8)).2.stockLocate = some 7 := by decide
  refine ⟨directoryRun_fits 8, asserted_directoryRun 8, hrtl, href, fun h => ?_⟩
  have hloc := (h [openCycle, directoryCycle 7] (directoryCycle 8) [] rfl).2.1.stockLocate
  change (both.run exampleStart (directoryRun 8)).2.stockLocate = _ at hloc
  rw [href] at hloc
  revert hloc
  decide

end ItchOrderBook.Session
