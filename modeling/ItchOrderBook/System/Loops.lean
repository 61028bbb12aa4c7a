import ItchOrderBook.Framing.Generator
import ItchOrderBook.Session.Packets
import ItchOrderBook.System.Messages

/-!
# What the pipeline keeps

The loops of the reference pipeline, over parsed messages, over the chunks of a packet and over packets,
do nothing to its state but hand on messages and count packets. What a message keeps (`Kept`) is kept by
every run, with or without errors (`Kept.packets`). What a run yields for packets is what it yields for
their messages, if the parser takes all of them (`payloads_run`).
-/

namespace ItchOrderBook.System

open Ref (BookResult Byte Control ControlResult ITCHMsg Outcome Params Top TopOut TopResult)
open Session (Clean SameStock onLine)

/-- A message that can come from the parser keeps `I`, which is not about the framing registers. -/
structure Kept {cfg : Params} (I : Top cfg → Prop) : Prop where
  message : ∀ s m, Fields m → I s → I (s.processMsg m).2
  line : ∀ s axis np, I s → I (onLine s axis np)

/-- The messages of a chunk fit the signals. -/
theorem Chunked.fields {l : ℕ} {msgs : List ITCHMsg} (h : Chunked l msgs) : ∀ m ∈ msgs, Fields m := by
  cases h with
  | single hm _ =>
    intro m' hm'
    rw [List.mem_singleton.1 hm']
    exact hm
  | replace old new shares price =>
    intro m hm
    rcases List.mem_cons.1 hm with rfl | hm
    · trivial
    · rw [List.mem_singleton.1 hm]
      trivial

namespace Kept

variable {cfg : Params} {I : Top cfg → Prop} {s : Top cfg}

theorem results (h : Kept I) (hs : I s) {msgs : List ITCHMsg} (hmsgs : ∀ m ∈ msgs, Fields m)
    (last : Option BookResult) : I (s.processResults msgs last).2 := by
  induction msgs generalizing s last with
  | nil => exact hs
  | cons m msgs ih =>
    have hm := h.message s m (hmsgs m List.mem_cons_self) hs
    rw [Top.processResults]
    rcases hp : s.processMsg m with ⟨out | res, s'⟩
    · rw [hp] at hm
      exact hm
    · rw [hp] at hm
      exact ih hm (fun m hm => hmsgs m (List.mem_cons_of_mem _ hm)) _

theorem unparsed (h : Kept I) (hs : I s) (m : List Byte) : I (s.processUnparsed m).2 := by
  rw [Top.processUnparsed]
  cases hm : Ref.ITCHParser.parseMsg m with
  | raise e => exact hs
  | err c => exact hs
  | ret msgs =>
    have hr := h.results hs (shaped_parseMsg m msgs hm).fields none
    dsimp only
    rcases hp : s.processResults msgs none with ⟨out | res, s'⟩
    · rw [hp] at hr
      exact hr
    · rw [hp] at hr
      exact hr

theorem payload (h : Kept I) (hs : I s) (payload : List (List Byte)) : I (s.processPayload payload).2 := by
  induction payload generalizing s with
  | nil => exact hs
  | cons m payload ih =>
    have hm := h.unparsed hs m
    rw [Top.processPayload]
    rcases hp : s.processUnparsed m with ⟨out | res, s'⟩
    · rw [hp] at hm
      exact hm
    · rw [hp] at hm
      exact ih hm

theorem packet (h : Kept I) (hs : I s) (pkt : List Byte) : I (s.processPkt pkt).2 := by
  rw [Top.processPkt]
  rcases s.np.processPkt pkt with ⟨payload | c | e, np⟩
  · exact h.payload (h.line s s.axis np hs) payload
  · exact h.line s s.axis np hs
  · exact h.line s s.axis np hs

/-- **What a message keeps is kept by every run.** -/
theorem packets (h : Kept I) (hs : I s) (pkts : List (List Byte)) : I ((Top.onPkts cfg).run s pkts) := by
  induction pkts generalizing s with
  | nil => exact hs
  | cons pkt pkts ih => exact ih (h.packet hs pkt)

end Kept

/-! ### The pipeline after its initialisation -/

/-- An initialised pipeline has an initialised control module and an initialised book. -/
theorem initParams_new {cfg : Params} {ideal b : Bool} {marketCode : Char} {stockSymbol : String} {base : ℤ}
    {s : Top cfg} (h : (Top.new cfg ideal).initParams marketCode stockSymbol base = .ok (b, s)) :
    ∃ book, (Ref.Book.new cfg ideal).initParams base = .ok book ∧ b = false ∧
      s = { Top.new cfg ideal with
        ctrl := { Control.new with initialized := true, marketCode, stockSymbol }, book, initialized := true } := by
  rw [Top.initParams] at h
  split at h
  · cases h
  · rename_i ctrl hctrl
    cases hctrl
    split at h
    · cases h
    · rename_i book hbook
      cases h
      exact ⟨book, hbook, rfl, rfl⟩

/-! ### The stock locate -/

section Locate

variable {cfg : Params}

/-- A message leaves the stock locate, or takes it from a directory message if there is none. -/
theorem locate_message (s : Top cfg) (m : ITCHMsg) : (s.processMsg m).2.stockLocate = s.stockLocate ∨
    s.stockLocate = none ∧ ∃ l sym, m = .directory l sym ∧ (s.processMsg m).2.stockLocate = some l := by
  rw [Top.processMsg]
  rcases hc : s.ctrl.processMsg m with ⟨res | c | e, ctrl⟩
  · dsimp only
    unfold Top.takeLocate
    rcases Session.control_locate hc with ⟨l, sym, rfl, -, hl, -⟩ | ⟨-, hl, -⟩
    · rw [hl]
      dsimp only
      split_ifs with hset
      · exact Or.inl rfl
      · exact Or.inr ⟨not_not.1 hset, l, sym, rfl, rfl⟩
    · rw [hl]
      exact Or.inl (Session.toBook_keeps _ m).1
  · exact Or.inl rfl
  · exact Or.inl rfl

/-- A stock locate that is there stays. -/
theorem kept_locate (l : ℕ) : Kept fun s : Top cfg => s.stockLocate = some l where
  message s m _ hs := by
    rcases locate_message s m with h | ⟨h, -⟩
    · exact h.trans hs
    · rw [hs] at h
      cases h
  line _ _ _ hs := hs

/-- A stock locate has 16 bits. -/
theorem kept_locate_lt : Kept fun s : Top cfg => ∀ l, s.stockLocate = some l → l < 2 ^ 16 where
  message s m hm hs l hl := by
    rcases locate_message s m with h | ⟨-, l', sym, rfl, h⟩
    · exact hs l (h.symm.trans hl)
    · obtain rfl := Option.some.inj (h.symm.trans hl)
      exact hm.1
  line _ _ _ hs := hs

end Locate

/-! ### The control module -/

section Control

variable {s s' : Control} {res : ControlResult} {m : ITCHMsg}

theorem finish_ret {e : Bool} {l : Option ℕ} (h : s.finish e l = (.ret res, s')) :
    e = true ∧ res = ⟨s.stockActive, l⟩ ∧ s' = s := by
  rw [Control.finish] at h
  split_ifs at h with he
  · cases h
  obtain ⟨hres, rfl⟩ := Prod.mk.inj h
  exact ⟨by simpa using he, (Outcome.ret.inj hres).symm, rfl⟩

/-- What a message that is taken leaves as it was, and what it returns. -/
theorem control_ret (h : s.processMsg m = (.ret res, s')) : s'.initialized = s.initialized ∧
    s'.stockSymbol = s.stockSymbol ∧ res.stockActive = s'.stockActive := by
  unfold Control.processMsg at h
  split_ifs at h
  · cases h
  · cases m with
    | systemEvent l e =>
      cases e <;> simp only [Control.onEvent] at h <;> split_ifs at h <;> first
        | cases h; done
        | obtain ⟨-, rfl, rfl⟩ := finish_ret h
          exact ⟨rfl, rfl, rfl⟩
    | directory l t =>
      simp only [Control.onDirectory] at h
      split_ifs at h <;> first
        | cases h
        | obtain ⟨-, rfl, rfl⟩ := finish_ret h
          exact ⟨rfl, rfl, rfl⟩
    | tradeAction l t a =>
      cases a <;> simp only [Control.onAction] at h <;> split_ifs at h <;>
        obtain ⟨-, rfl, rfl⟩ := finish_ret h <;> exact ⟨rfl, rfl, rfl⟩
    | opHalt l t c b =>
      simp only [Control.onHalt] at h
      split_ifs at h <;> first
        | cases h
        | obtain ⟨-, rfl, rfl⟩ := finish_ret h
          exact ⟨rfl, rfl, rfl⟩
    | book o =>
      obtain ⟨-, rfl, rfl⟩ := finish_ret h
      exact ⟨rfl, rfl, rfl⟩
    | other l =>
      obtain ⟨-, rfl, rfl⟩ := finish_ret h
      exact ⟨rfl, rfl, rfl⟩

end Control

/-! ### Packets and their messages -/

section Packets

variable {cfg : Params}

theorem payload_cons {s s' : Top cfg} {m : List Byte} {ms : List (List Byte)} {res : Option TopResult}
    (h : s.processUnparsed m = (.ok res, s')) : s.processPayload (m :: ms) =
      (res.toList.map .result ++ (s'.processPayload ms).1, (s'.processPayload ms).2) := by
  rw [Top.processPayload, h]

/-- A result without `error_flag`. -/
def isResult : TopOut → Bool
  | .result _ => true
  | _ => false

theorem all_isResult_iff {outs : List TopOut} : outs.all isResult = true ↔ Clean outs := by
  rw [List.all_eq_true]
  apply forall_congr'
  intro out
  apply forall_congr'
  intro _
  cases out with
  | result r => exact iff_of_true rfl ⟨r, rfl⟩
  | error origin code =>
    apply iff_of_false Bool.false_ne_true
    rintro ⟨r, hr⟩
    cases hr
  | raised origin e =>
    apply iff_of_false Bool.false_ne_true
    rintro ⟨r, hr⟩
    cases hr

/-- What the reference yields for the packets. -/
def outputs (s : Top cfg) (pkts : List (List Byte)) : List TopOut := ((Top.onPkts cfg).trace s pkts).flatten

theorem outputs_cons (s : Top cfg) (pkt : List Byte) (pkts : List (List Byte)) :
    outputs s (pkt :: pkts) = (s.processPkt pkt).1 ++ outputs (s.processPkt pkt).2 pkts := rfl

/-- **A run on packets that the parser takes is the loop over their messages.** -/
theorem payloads_run {s : Top cfg} {pkts ms : List (List Byte)} (h : Framing.payloads s.np pkts = some ms) :
    (Clean (outputs s pkts) ↔ Clean (s.processPayload ms).1) ∧
      (Clean (s.processPayload ms).1 → outputs s pkts = (s.processPayload ms).1 ∧
        SameStock ((Top.onPkts cfg).run s pkts) (s.processPayload ms).2) := by
  induction pkts generalizing s ms with
  | nil =>
    obtain rfl := Option.some.inj h
    exact ⟨Iff.rfl, fun _ => ⟨rfl, rfl, rfl, rfl, rfl⟩⟩
  | cons pkt pkts ih =>
    rw [Framing.payloads] at h
    rcases hp : s.np.processPkt pkt with ⟨payload | c | e, np⟩
    · rw [hp] at h
      obtain ⟨rest, hrest, rfl⟩ := Option.map_eq_some_iff.1 h
      have hpkt : s.processPkt pkt =
          ((s.processPayload payload).1, onLine (s.processPayload payload).2 s.axis np) := by
        rw [Top.processPkt, hp]
        exact Session.processPayload_onLine s s.axis np payload
      obtain ⟨happ, hrun⟩ := Session.processPayload_append s payload rest
      have hih := @ih (onLine (s.processPayload payload).2 s.axis np) rest hrest
      rw [Session.processPayload_onLine] at hih
      dsimp only at hih
      rw [outputs_cons, hpkt, Session.clean_append, happ, Circuit.run_cons]
      change _ ∧ (_ → _ ∧ SameStock ((Top.onPkts cfg).run (s.processPkt pkt).2 pkts) _)
      rw [hpkt]
      refine ⟨and_congr_right fun _ => hih.1, fun hclean => ?_⟩
      obtain ⟨hout, hstock⟩ := hih.2 hclean.2
      rw [hrun hclean.1, hout]
      exact ⟨rfl, hstock.trans (Session.sameStock_onLine _ _ _)⟩
    · rw [hp] at h
      cases h
    · rw [hp] at h
      cases h

end Packets

end ItchOrderBook.System
