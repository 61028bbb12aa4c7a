import ItchOrderBook.Book.Consistency
import ItchOrderBook.Framing.Transport
import ItchOrderBook.System.Sessions

/-!
# Two pipelines in lockstep

A relation between books that messages keep, with the same answers, is kept by the pipelines around them,
with the same outputs (`Simulates.processPkt`). The size-limited and the ideal book are so related
(`Paired`, `simulates_paired`), as long as the first one answers.
-/

namespace ItchOrderBook.System

open Book (Good HasLut liveOrders orderMap)
open Ref (BookMsg BookResult Byte ITCHMsg Params Top TopOut TopResult)
open Session (Clean)

variable {cfg : Params}

/-- The pipeline with another book. -/
def withBook (s : Top cfg) (b : Ref.Book cfg) : Top cfg := { s with book := b }

/-- What the first book answers, the second answers in the same way. -/
structure Simulates (R : Ref.Book cfg → Ref.Book cfg → Prop) : Prop where
  message : ∀ {b b' c : Ref.Book cfg} {msg : BookMsg} {r : BookResult}, R b c → msg.SharesPos →
    b.processMsg msg = (.ret r, b') → ∃ c', c.processMsg msg = (.ret r, c') ∧ R b' c'

/-- The orders of the chunk have positive share counts. -/
def PositiveOrders (m : List Byte) : Prop :=
  ∀ msgs, Ref.ITCHParser.parseMsg m = .ret msgs → ∀ o, .book o ∈ msgs → o.SharesPos

/-- The orders of the packets have positive share counts. -/
def PacketsPositive (pkts : List (List Byte)) : Prop :=
  ∀ pkt ∈ pkts, ∀ m, HasChunk pkt m → PositiveOrders m

/-- The messages of a packet that is accepted are its chunks. -/
theorem hasChunk_of_ret {np np' : Ref.MoldUDP64Parser} {pkt : List Byte} {ms : List (List Byte)}
    (h : np.processPkt pkt = (.ret ms, np')) {m : List Byte} (hm : m ∈ ms) : HasChunk pkt m := by
  rcases Framing.processPkt_spec np pkt with ⟨-, code, hp⟩ | ⟨-, -, code, hp⟩ | ⟨-, -, -, code, hp⟩ |
    ⟨-, -, ms', hfr, hp⟩
  · rw [h] at hp
    cases hp
  · rw [h] at hp
    cases hp
  · rw [h] at hp
    cases hp
  · rw [h] at hp
    cases hp
    exact ⟨ms, hfr, hm⟩

namespace Simulates

variable {R : Ref.Book cfg → Ref.Book cfg → Prop} {s s' : Top cfg} {c : Ref.Book cfg}

theorem toBook (h : Simulates R) (hR : R s.book c) {m : ITCHMsg} (hm : ∀ o, m = .book o → o.SharesPos)
    {res : Option BookResult} (hs : s.toBook m = (.ok res, s')) :
    ∃ c', (withBook s c).toBook m = (.ok res, withBook s' c') ∧ R s'.book c' := by
  cases m with
  | book o =>
    unfold Top.toBook at hs ⊢
    dsimp only [withBook] at hs ⊢
    cases hl : s.stockLocate with
    | none =>
      rw [hl] at hs
      cases hs
    | some l =>
      rw [hl] at hs
      dsimp only at hs ⊢
      by_cases ho : o.stockLocate = l
      · rw [if_pos ho] at hs ⊢
        rcases hp : s.book.processMsg o with ⟨r | code | e, b'⟩
        · rw [hp] at hs
          cases hs
          obtain ⟨c', hc, hR'⟩ := h.message hR (hm o rfl) hp
          refine ⟨c', ?_, hR'⟩
          simp only [hc]
        · rw [hp] at hs
          cases hs
        · rw [hp] at hs
          cases hs
      · rw [if_neg ho] at hs ⊢
        cases hs
        refine ⟨c, ?_, hR⟩
        simp only [hl]
  | systemEvent => cases hs; exact ⟨c, rfl, hR⟩
  | directory => cases hs; exact ⟨c, rfl, hR⟩
  | tradeAction => cases hs; exact ⟨c, rfl, hR⟩
  | opHalt => cases hs; exact ⟨c, rfl, hR⟩
  | other => cases hs; exact ⟨c, rfl, hR⟩

theorem processMsg (h : Simulates R) (hR : R s.book c) {m : ITCHMsg} (hm : ∀ o, m = .book o → o.SharesPos)
    {res : Option BookResult} (hs : s.processMsg m = (.ok res, s')) :
    ∃ c', (withBook s c).processMsg m = (.ok res, withBook s' c') ∧ R s'.book c' := by
  unfold Top.processMsg at hs ⊢
  dsimp only [withBook] at hs ⊢
  rcases hc : s.ctrl.processMsg m with ⟨ctrlRes | code | e, ctrl⟩
  · rw [hc] at hs
    dsimp only at hs ⊢
    unfold Top.takeLocate at hs ⊢
    cases hl : ctrlRes.stockLocate with
    | none =>
      rw [hl] at hs
      exact toBook (s := { s with ctrl, stockActive := ctrlRes.stockActive }) h hR hm hs
    | some l =>
      rw [hl] at hs
      dsimp only at hs ⊢
      split_ifs at hs ⊢
      · cases hs
      · exact toBook (s := { s with ctrl, stockActive := ctrlRes.stockActive, stockLocate := some l })
          h hR hm hs
  · rw [hc] at hs
    cases hs
  · rw [hc] at hs
    cases hs

theorem processResults (h : Simulates R) (hR : R s.book c) {ms : List ITCHMsg}
    (hms : ∀ o, .book o ∈ ms → o.SharesPos) {last res : Option BookResult}
    (hs : s.processResults ms last = (.ok res, s')) :
    ∃ c', (withBook s c).processResults ms last = (.ok res, withBook s' c') ∧ R s'.book c' := by
  induction ms generalizing s c last with
  | nil =>
    cases hs
    exact ⟨c, rfl, hR⟩
  | cons m ms ih =>
    rw [Top.processResults] at hs ⊢
    rcases hp : s.processMsg m with ⟨out | r, s₁⟩
    · rw [hp] at hs
      cases hs
    · rw [hp] at hs
      obtain ⟨c₁, hc₁, hR₁⟩ := h.processMsg hR (fun o ho => hms o (ho ▸ List.mem_cons_self)) hp
      rw [hc₁]
      exact ih hR₁ (fun o ho => hms o (List.mem_cons_of_mem _ ho)) hs

theorem processUnparsed (h : Simulates R) (hR : R s.book c) {m : List Byte} (hm : PositiveOrders m)
    {res : Option TopResult} (hs : s.processUnparsed m = (.ok res, s')) :
    ∃ c', (withBook s c).processUnparsed m = (.ok res, withBook s' c') ∧ R s'.book c' := by
  rw [Top.processUnparsed] at hs ⊢
  cases hp : Ref.ITCHParser.parseMsg m with
  | raise e =>
    rw [hp] at hs
    cases hs
  | err code =>
    rw [hp] at hs
    cases hs
  | ret msgs =>
    rw [hp] at hs
    dsimp only at hs ⊢
    rcases hr : s.processResults msgs none with ⟨out | r, s₁⟩
    · rw [hr] at hs
      cases hs
    · rw [hr] at hs
      cases hs
      obtain ⟨c₁, hc₁, hR₁⟩ := h.processResults hR (hm msgs hp) hr
      rw [hc₁]
      exact ⟨c₁, rfl, hR₁⟩

theorem processPayload (h : Simulates R) (hR : R s.book c) {ms : List (List Byte)}
    (hms : ∀ m ∈ ms, PositiveOrders m) (hclean : Clean (s.processPayload ms).1) :
    ∃ c', (withBook s c).processPayload ms =
        ((s.processPayload ms).1, withBook (s.processPayload ms).2 c') ∧
      R (s.processPayload ms).2.book c' := by
  induction ms generalizing s c with
  | nil => exact ⟨c, rfl, hR⟩
  | cons m ms ih =>
    obtain ⟨hm, hms⟩ := List.forall_mem_cons.1 hms
    rcases hp : s.processUnparsed m with ⟨out | r, s₁⟩
    · rw [Top.processPayload, hp] at hclean
      exact absurd hclean (Session.not_clean_error hp)
    · rw [payload_cons hp] at hclean ⊢
      obtain ⟨c₁, hc₁, hR₁⟩ := h.processUnparsed hR hm hp
      obtain ⟨c₂, hc₂, hR₂⟩ := ih hR₁ hms (Session.clean_append.1 hclean).2
      rw [payload_cons hc₁, hc₂]
      exact ⟨c₂, rfl, hR₂⟩

/-- **One packet**: the two pipelines do the same with it. -/
theorem processPkt (h : Simulates R) (hR : R s.book c) {pkt : List Byte}
    (hpkt : ∀ m, HasChunk pkt m → PositiveOrders m) (hclean : Clean (s.processPkt pkt).1) :
    ∃ c', (withBook s c).processPkt pkt = ((s.processPkt pkt).1, withBook (s.processPkt pkt).2 c') ∧
      R (s.processPkt pkt).2.book c' := by
  unfold Top.processPkt at hclean ⊢
  have hnp : (withBook s c).np = s.np := rfl
  rw [hnp]
  rcases hp : s.np.processPkt pkt with ⟨ms | code | e, np⟩
  · rw [hp] at hclean
    exact processPayload (s := { s with np }) h hR (fun m hm => hpkt m (hasChunk_of_ret hp hm)) hclean
  · rw [hp] at hclean
    obtain ⟨r, hr⟩ := hclean _ List.mem_cons_self
    cases hr
  · rw [hp] at hclean
    obtain ⟨r, hr⟩ := hclean _ List.mem_cons_self
    cases hr

end Simulates

/-! ### The size-limited and the ideal book -/

/-- Two good books with the same orders, the first size-limited and the second ideal. -/
structure Paired (base : ℤ) (b bi : Ref.Book cfg) : Prop where
  limited : Good false base b
  ideal : Good true base bi
  orders : orderMap b.l3 = orderMap bi.l3
  lut : HasLut base b.l2.memory
  lutIdeal : HasLut base bi.l2.memory

/-- **The ideal book answers what the size-limited one answers.** -/
theorem simulates_paired {base : ℤ} (hbase : base % 50 = 0) (hn : 2 ≤ cfg.bboDepth) :
    Simulates (@Paired cfg base) where
  message {b b' c msg r} h hm hp := by
    obtain ⟨hr, hg, lk, hstep, htick⟩ := Book.good_step hbase hn h.limited hm hp
    have hacc : Book.Accepts (orderMap c.l3) msg := ⟨lk, _, h.orders ▸ hstep, htick, hg.placed.uncrossed⟩
    rcases Book.book_processMsg hbase hn h.ideal hm with ⟨c', lk', hc, hgc, hstepc, -⟩ | ⟨-, hno⟩
    · rw [← h.orders, hstep] at hstepc
      have horders : orderMap b'.l3 = orderMap c'.l3 := (Prod.mk.inj (Option.some.inj hstepc)).2
      have hlive : liveOrders b' = (orderMap c'.l3).live := congrArg Book.OrderMap.live horders
      refine ⟨c', ?_, hg, hgc, horders, ?_, ?_⟩
      · rw [hc, hr, hlive]
      · have hlut := h.lut.book msg
        rw [hp] at hlut
        exact hlut
      · have hlut := h.lutIdeal.book msg
        rw [hc] at hlut
        exact hlut
    · exact absurd hacc (hno rfl)

theorem paired_initialised (cfg : Params) (base : ℤ) :
    Paired base (Book.initialised cfg false base) (Book.initialised cfg true base) where
  limited := Book.good_initialised cfg false base
  ideal := Book.good_initialised cfg true base
  orders := (Book.orderMap_new cfg false).trans (Book.orderMap_new cfg true).symm
  lut := rfl
  lutIdeal := trivial

/-- The check passes for both. -/
theorem Paired.consistent {base : ℤ} (hbase : base % 50 = 0) {b c : Ref.Book cfg} (h : Paired base b c) :
    b.assertConsistentState = .ok () ∧ c.assertConsistentState = .ok () :=
  ⟨Book.assertConsistentState_ok hbase h.limited h.lut, Book.assertConsistentState_ok hbase h.ideal h.lutIdeal⟩

/-! ### Packets on the bus -/

/-- The pipeline does with bus cycles what it does with the packet that the interpreter hands on. -/
theorem onBus_packet {s : Top cfg} {cycles : List Ref.BusCycle} {n : ℕ} {pkt : List Byte}
    (htrace : Framing.axisInterpreter.trace s.axis cycles = List.replicate n none ++ [some pkt])
    (hrun : Framing.axisInterpreter.run s.axis cycles = []) :
    Session.outputs s cycles = ({ s with axis := [] }.processPkt pkt).1 ∧
      (Top.onBus cfg).run s cycles = ({ s with axis := [] }.processPkt pkt).2 := by
  induction cycles generalizing s n with
  | nil => simp at htrace
  | cons c cycles ih =>
    rw [Circuit.trace_cons] at htrace
    rw [Circuit.run_cons] at hrun
    rw [Session.outputs_cons, Circuit.run_cons]
    change _ ∧ (Top.onBus cfg).run (s.processBusCycle c).2 cycles = _
    cases n with
    | zero =>
      -- the cycle that hands the packet on is the last one
      rw [List.replicate_zero, List.nil_append, List.cons.injEq] at htrace
      obtain ⟨hout, hrest⟩ := htrace
      have hnil : cycles = [] := by
        rw [← List.length_eq_zero_iff, ← Circuit.length_trace Framing.axisInterpreter, hrest, List.length_nil]
      subst hnil
      have hbus : s.processBusCycle c = { s with axis := [] }.processPkt pkt := by
        have hpair : Ref.AxisInterpreter.processBusCycle s.axis c true = (some pkt, []) := Prod.ext hout hrun
        rw [Top.processBusCycle, hpair]
      rw [hbus]
      exact ⟨List.append_nil _, rfl⟩
    | succ n =>
      rw [List.replicate_succ, List.cons_append, List.cons.injEq] at htrace
      obtain ⟨hout, hrest⟩ := htrace
      have hbus : s.processBusCycle c =
          ([], { s with axis := (Ref.AxisInterpreter.processBusCycle s.axis c true).2 }) := by
        have hpair : Ref.AxisInterpreter.processBusCycle s.axis c true =
            (none, (Ref.AxisInterpreter.processBusCycle s.axis c true).2) := Prod.ext hout rfl
        rw [Top.processBusCycle]
        generalize Ref.AxisInterpreter.processBusCycle s.axis c true = r at hpair ⊢
        rw [hpair]
      rw [hbus]
      exact ih hrest hrun

/-- A packet that the driver sends is given to `process_pkt`, whatever cycles are dropped. -/
theorem sendPacket_run {s : Top cfg} (haxis : s.axis = []) {pkt : List Byte} (hpkt : pkt ≠ [])
    (drops : ℕ → ℕ) : Session.outputs s (Ref.refAxisSendPacket pkt drops) = (s.processPkt pkt).1 ∧
      (Top.onBus cfg).run s (Ref.refAxisSendPacket pkt drops) = (s.processPkt pkt).2 := by
  obtain ⟨hrun, htrace⟩ := Framing.run_packet hpkt drops
  rw [← haxis] at hrun htrace
  have h := onBus_packet htrace (hrun.trans haxis)
  have hs : ({ s with axis := [] } : Top cfg) = s := by rw [← haxis]
  rwa [hs] at h

end ItchOrderBook.System
