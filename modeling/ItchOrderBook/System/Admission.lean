import ItchOrderBook.Gating.Gates
import ItchOrderBook.Session.Packets
import ItchOrderBook.System.Messages

/-!
# Messages that both control modules admit

When the reference pipeline takes a message, the control module of the RTL raises no error for what is
shown of it, and both stay in step (`Follows.step`). The reference asks for more than its control module
does: the directory message of the stock may come once only, and no order message may come before it. So
in what is shown of a session that the reference takes, the stock locate is assigned once, and in front of
all orders (`Admits`).
-/

namespace ItchOrderBook.System

open Decode (Decoded ctrlMsg emitted ofBook ofCtrl symbolBits view)
open Gating (after)
open Ref (BookMsg BookResult Control ControlResult ITCHMsg Outcome Top)
open Rtl (ControlIn ControlRegs DecBook DecCtrl TopIn TopRegs)
open Session (Agree Configured SymbolOk)

/-! ### What is admitted -/

/-- The message is one of the order messages. -/
def isOrder : Decoded → Bool
  | .add .. | .reduce .. | .delete .. | .replace .. => true
  | _ => false

/-- The registers of `control` raise no error for the message. The stock locate is `loc`, it is not
assigned again, and it is there in front of an order. -/
structure Admits (loc : BitVec 16) (q : ControlRegs) (d : Decoded) : Prop where
  initialized : q.initialized = true
  hours : q.msgHours = true ∨ d = .event .msgBegin
  locate : ∀ l, d = .directory l q.initStockSymbol →
    q.stockLocateV = false ∧ BitVec.ofNat 16 l = loc
  order : isOrder d = true → q.stockLocateV = true

/-- The messages are admitted one after the other. -/
def AdmitsAll (loc : BitVec 16) : ControlRegs → List Decoded → Prop
  | _, [] => True
  | q, d :: ds => Admits loc q d ∧ AdmitsAll loc (after q d) ds

/-- The stock locate, once it is known, is `loc`. -/
def Locates (loc : BitVec 16) (q : ControlRegs) : Prop := q.stockLocateV = true → q.stockLocate = loc

section Admitted

variable {loc : BitVec 16} {q : ControlRegs} {d : Decoded} {ds ds' : List Decoded}

theorem admitsAll_append :
    AdmitsAll loc q (ds ++ ds') ↔ AdmitsAll loc q ds ∧ AdmitsAll loc (ds.foldl after q) ds' := by
  induction ds generalizing q with
  | nil => exact ⟨fun h => ⟨trivial, h⟩, fun h => h.2⟩
  | cons d ds ih => rw [List.cons_append, AdmitsAll, AdmitsAll, ih, and_assoc, List.foldl_cons]

theorem AdmitsAll.first (h : AdmitsAll loc q ds') (hle : ds <+: ds') : AdmitsAll loc q ds := by
  obtain ⟨rest, rfl⟩ := hle
  exact (admitsAll_append.1 h).1

/-- The message behind some others. -/
theorem AdmitsAll.at (h : AdmitsAll loc q (ds ++ d :: ds')) : Admits loc (ds.foldl after q) d :=
  (admitsAll_append.1 h).2.1

/-- A stock locate that is known stays known. -/
theorem stockLocateV_after (q : ControlRegs) (d : Decoded) (h : q.stockLocateV = true) :
    (after q d).stockLocateV = true := by
  unfold after
  split
  all_goals first
    | exact h
    | split_ifs
      · first
        | rfl
        | exact h
      · exact h

theorem stockLocateV_foldl (ds : List Decoded) (h : q.stockLocateV = true) :
    (ds.foldl after q).stockLocateV = true := by
  induction ds generalizing q with
  | nil => exact h
  | cons d ds ih => exact ih (stockLocateV_after q d h)

/-- The configuration is kept. -/
theorem config_after (q : ControlRegs) (d : Decoded) : (after q d).initialized = q.initialized ∧
    (after q d).initMarket = q.initMarket ∧ (after q d).initStockSymbol = q.initStockSymbol := by
  unfold after
  split
  all_goals first
    | exact ⟨rfl, rfl, rfl⟩
    | split_ifs <;> exact ⟨rfl, rfl, rfl⟩

theorem Locates.after (hq : Locates loc q) (h : Admits loc q d) : Locates loc (after q d) := by
  intro hv
  cases d with
  | directory l s =>
    rw [Gating.after] at hv ⊢
    split_ifs at hv ⊢ with hs
    · exact (h.locate l (by rw [hs])).2
    · exact hq hv
  | event e => cases e <;> exact hq hv
  | action l s a =>
    rw [Gating.after] at hv ⊢
    split_ifs at hv ⊢ <;> exact hq hv
  | halt l s m b =>
    rw [Gating.after] at hv ⊢
    split_ifs at hv ⊢ <;> exact hq hv
  | add => exact hq hv
  | reduce => exact hq hv
  | delete => exact hq hv
  | replace => exact hq hv

theorem Locates.foldl (hq : Locates loc q) (h : AdmitsAll loc q ds) : Locates loc (ds.foldl Gating.after q) := by
  induction ds generalizing q with
  | nil => exact hq
  | cons d ds ih => exact ih (hq.after h.1) h.2

theorem isOrder_bookMsg (d : DecBook) : isOrder (Decode.bookMsg d) = true := by
  rw [Decode.bookMsg]
  cases d.msgType <;> rfl

theorem isOrder_ctrlMsg (d : DecCtrl) : isOrder (ctrlMsg d) = false := by
  rw [ctrlMsg]
  cases d.msgType <;> rfl

/-- **What is admitted raises no error.** -/
theorem ctrlError_of_admitted {q : TopRegs} (i : TopIn)
    (h : AdmitsAll loc q.control (emitted q.itchOut)) : q.control.ctrlError (q.controlIn i) = false := by
  have hin : (q.controlIn i).decCtrl = q.itch.decCtrl ∧ (q.controlIn i).decBookV = q.itch.decBook.valid :=
    ⟨rfl, rfl⟩
  have hemit : emitted q.itchOut = ofCtrl q.itch.decCtrl ++ ofBook q.itch.decBook := rfl
  rw [hemit] at h
  rw [ControlRegs.ctrlError, hin.1, hin.2]
  cases hc : q.itch.decCtrl.valid with
  | false =>
    have hloc : q.control.errorStockLocate (q.controlIn i) = false := by
      rw [ControlRegs.errorStockLocate, hin.1, hc]
      rfl
    have hexp : q.control.msgExpected (q.controlIn i) = q.control.msgHours := by
      rw [ControlRegs.msgExpected, hin.1, hc]
      rfl
    rw [hloc, hexp, Bool.false_or, Bool.or_false]
    cases hb : q.itch.decBook.valid with
    | false => rfl
    | true =>
      rw [Decode.ofCtrl_of_not_valid hc, ofBook, if_pos hb, List.nil_append] at h
      have hhours : q.control.msgHours = true := by
        rcases h.1.hours with hh | hh
        · exact hh
        · have := isOrder_bookMsg q.itch.decBook
          rw [hh] at this
          cases this
      rw [h.1.initialized, hhours]
      rfl
  | true =>
    rw [Decode.ofCtrl_of_valid hc, List.singleton_append] at h
    have hexp : q.control.msgExpected (q.controlIn i) = true := by
      rw [ControlRegs.msgExpected, hin.1]
      rcases h.1.hours with hh | hh
      · split_ifs
        · rfl
        · exact hh
      · obtain ⟨htype, he⟩ := Session.ctrlMsg_event hh.symm
        have hcode : q.itch.decCtrl.eventCode = .o := by
          cases hcode : q.itch.decCtrl.eventCode <;> rw [hcode] at he <;> first | rfl | cases he
        rw [if_pos ⟨hc, htype, hcode⟩]
    have hloc : q.control.errorStockLocate (q.controlIn i) = false := by
      rw [ControlRegs.errorStockLocate, hin.1]
      cases htype : q.itch.decCtrl.msgType with
      | directory =>
        by_cases hsym : q.itch.decCtrl.stockSymbol = q.control.initStockSymbol
        · have hd : ctrlMsg q.itch.decCtrl =
              .directory q.itch.decCtrl.stockLocate.toNat q.control.initStockSymbol := by
            rw [ctrlMsg, htype, hsym]
          rw [(h.1.locate _ hd).1]
          simp
        · simp [hsym]
      | event => simp
      | action => simp
      | halt => simp
    rw [h.1.initialized, hexp, hloc]
    simp

end Admitted

end ItchOrderBook.System
