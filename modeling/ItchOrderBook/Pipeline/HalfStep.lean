import ItchOrderBook.Pipeline.HalfCases

/-!
# The RTL half against the reference half

A message is handled alike on both sides (`half_simulates`): the RTL raises its error where the
reference returns one, and requests a refill where the reference does. The two test the residual
counters in different ways, which agree as long as the in-range counter is at most the total
(`Corresponds`). A reduction out of range takes from the total only, so that this is kept exactly
if the total holds enough shares out of range (`Within`).
-/

namespace ItchOrderBook.Pipeline

open Ref (BBOHalf BBOEntry BBOHalfResult DownstreamOrderMsg Outcome Params)
open Rtl (HalfRegs HalfIn BboWord DecBook bboHalf)

section Step

variable {cfg : Params} {isBuy : Bool} {q : HalfRegs} {h : BBOHalf} {i : HalfIn}

/-! ### Idle cycles and refills -/

theorem Holds.next_idle (hh : Holds isBuy q h) (hi : Idle i) :
    Holds isBuy (HalfRegs.next isBuy q i) h ∧
      (HalfRegs.next isBuy q i).updting = q.updting ∧
      (HalfRegs.next isBuy q i).updtReq = false ∧
      (HalfRegs.next isBuy q i).updtAbleAll = decide (0 < h.outsideShares) ∧
      (HalfRegs.next isBuy q i).updtAbleInRange = decide (0 < h.outsideSharesInRange) := by
  obtain ⟨hinit, hv, hu⟩ := hi
  have hpos : ∀ c : BitVec 64, decide (c > 0) = decide ((0 : ℤ) < c.toNat) := by
    intro c
    simp [BitVec.lt_def]
  have hnext : HalfRegs.next isBuy q i = { q with
      updtReq := false
      updtAbleAll := decide (0 < h.outsideShares)
      updtAbleInRange := decide (0 < h.outsideSharesInRange) } := by
    simp only [HalfRegs.next, HalfRegs.onMsg, HalfRegs.onUpdt, hinit, hv, hu, Bool.false_eq_true,
      if_false, Bool.false_or, hpos, hh.outsideShares, hh.outsideSharesInRange]
  rw [hnext]
  exact ⟨⟨hh.isBuy, hh.ideal, hh.initialized, hh.priceBound, hh.entries, hh.slots, hh.empty0,
    hh.empty1, hh.outsideShares, hh.outsideSharesInRange⟩, rfl, rfl, rfl, rfl⟩

theorem Holds.run_idle (hh : Holds isBuy q h) {is : List HalfIn} (his : ∀ i ∈ is, Idle i) :
    Holds isBuy ((bboHalf isBuy).run q is) h ∧ ((bboHalf isBuy).run q is).updting = q.updting := by
  induction is generalizing q with
  | nil => exact ⟨hh, rfl⟩
  | cons i is ih =>
    obtain ⟨hh', hupd, -⟩ := hh.next_idle (his i List.mem_cons_self)
    obtain ⟨hr, hr'⟩ := ih hh' fun j hj => his j (List.mem_cons_of_mem _ hj)
    exact ⟨hr, hr'.trans hupd⟩

/-- One idle cycle brings the flags up to date. -/
theorem Holds.tracks (hh : Holds isBuy q h) (hupd : q.updting = false) {is : List HalfIn}
    (his : ∀ i ∈ is, Idle i) (hne : is ≠ []) : Tracks isBuy ((bboHalf isBuy).run q is) h := by
  obtain ⟨pre, i, rfl⟩ : ∃ pre i, is = pre ++ [i] :=
    ⟨is.dropLast, is.getLast hne, (List.dropLast_append_getLast hne).symm⟩
  obtain ⟨hr, hr'⟩ := hh.run_idle fun j hj => his j (List.mem_append_left _ hj)
  obtain ⟨hn, hn', -, hall, hin⟩ := hr.next_idle (his i (by simp))
  rw [(bboHalf isBuy).run_append]
  exact ⟨hn, hn'.trans (hr'.trans hupd), hall, hin⟩

/-- A refill word is stored as the second entry. -/
theorem Holds.next_refill (hd : cfg.bboDepth = 2) (hh : Holds isBuy q h) (hi : Refill i)
    (hlen : h.entries.length = 1) (hin : (i.updt.shares.toNat : ℤ) ≤ h.outsideSharesInRange)
    (hle : h.outsideSharesInRange ≤ h.outsideShares) :
    ∃ h', h.processUpdt cfg (entry i.updt) = .ok h' ∧ Holds isBuy (HalfRegs.next isBuy q i) h' ∧
      (HalfRegs.next isBuy q i).updting = false ∧
      h'.outsideSharesInRange ≤ h'.outsideShares := by
  obtain ⟨hinit, hv, hu⟩ := hi
  have hv0 : q.arr0.valid = true := by
    by_contra hf
    simp [hh.entries, Pipeline.entries, hf] at hlen
  have hes : h.entries = [entry q.arr0] := by
    cases hv1 : q.arr1.valid <;> simp [hh.entries, Pipeline.entries, hv0, hv1] at hlen ⊢
  refine ⟨_, if_neg (not_not.2 (by rw [hd, hlen])), ?_, ?_, ?_⟩
  · refine ⟨hh.isBuy, hh.ideal, ?_, ?_, ?_, ?_, ?_, ?_, ?_, ?_⟩
    all_goals simp only [HalfRegs.next, HalfRegs.onMsg, HalfRegs.onUpdt, hinit, hv, hu, if_true,
      if_false, Bool.false_eq_true, Bool.false_or]
    · exact hh.initialized
    · exact hh.priceBound
    · simp [hes, Pipeline.entries, hv0, hu]
    · exact fun _ => hv0
    · exact hh.empty0
    · intro hf
      cases hf
    · rw [toNat_sub_of_le (by rw [← hh.outsideShares]; exact hin.trans hle), hh.outsideShares]
      rfl
    · rw [toNat_sub_of_le (by rw [← hh.outsideSharesInRange]; exact hin), hh.outsideSharesInRange]
      rfl
  · simp [HalfRegs.next, HalfRegs.onMsg, HalfRegs.onUpdt, hv, hu]
  · exact Int.sub_le_sub_right hle _

/-! ### The step simulation -/

theorem addOutside_le (hle : h.outsideSharesInRange ≤ h.outsideShares) {s p : ℤ} (hs : 0 ≤ s) :
    (h.addOutside s p).outsideSharesInRange ≤ (h.addOutside s p).outsideShares := by
  unfold BBOHalf.addOutside
  dsimp only
  split_ifs <;> omega

theorem insertEntry_le {idx : ℕ} {e : BBOEntry} (hle : h.outsideSharesInRange ≤ h.outsideShares)
    (hnn : ∀ x ∈ h.entries, 0 ≤ x.shares) (he : 0 ≤ e.shares) :
    (h.insertEntry cfg idx e).outsideSharesInRange ≤ (h.insertEntry cfg idx e).outsideShares := by
  unfold BBOHalf.insertEntry
  dsimp only
  split_ifs with hlen
  · cases hl : (h.entries.insertIdx idx e).getLast? with
    | none => exact hle
    | some x =>
      refine addOutside_le hle ?_
      rcases List.eq_or_mem_of_mem_insertIdx (List.mem_of_getLast? hl) with rfl | hx
      · exact he
      · exact hnn x hx
  · exact hle

/-- A message keeps the in-range counter at most the total exactly if a reduction out of range
takes no more than the total holds there. -/
theorem le_iff_within (cfg : Params) (hle : h.outsideSharesInRange ≤ h.outsideShares)
    (hnn : ∀ x ∈ h.entries, 0 ≤ x.shares) (hside : (orderMsg i.decBook).isBuy = h.isBuy) :
    (h.processMsg cfg (orderMsg i.decBook)).2.outsideSharesInRange ≤
        (h.processMsg cfg (orderMsg i.decBook)).2.outsideShares ↔
      Within cfg h (orderMsg i.decBook) := by
  have hs : 0 ≤ (orderMsg i.decBook).shares := Int.natCast_nonneg _
  rw [processMsg_eq cfg hside]
  have hother : BBOHalf.scan h.isBuy (orderMsg i.decBook) 0 h.entries ≠ .ok .outside →
      Within cfg h (orderMsg i.decBook) := fun hne hout => absurd hout.1 hne
  rcases hscan : BBOHalf.scan h.isBuy (orderMsg i.decBook) 0 h.entries with e | sc
  · exact iff_of_true hle (hother (by rw [hscan]; exact fun hf => nomatch hf))
  · cases sc with
    | modify idx e => exact iff_of_true hle (hother (by rw [hscan]; exact fun hf => nomatch hf))
    | depletion idx =>
      refine iff_of_true ?_ (hother (by rw [hscan]; exact fun hf => nomatch hf))
      dsimp only
      unfold BBOHalf.deplete
      dsimp only
      split_ifs <;> first | exact hle | (split <;> exact hle)
    | insertion idx =>
      exact iff_of_true (insertEntry_le hle hnn hs)
        (hother (by rw [hscan]; exact fun hf => nomatch hf))
    | outside =>
      dsimp only
      unfold BBOHalf.outsideMsg
      split_ifs with hlen ha
      · exact iff_of_true hle fun hout => absurd hlen (not_lt.2 hout.2)
      · exact iff_of_true (addOutside_le hle hs) fun _ hf => by rw [ha] at hf; cases hf
      · have hout : Outside cfg h (orderMsg i.decBook) := ⟨hscan, not_lt.1 hlen⟩
        unfold BBOHalf.addOutside
        dsimp only
        cases hr : h.inRange (orderMsg i.decBook).price with
        | true =>
          refine iff_of_true ?_ fun _ _ hf => by rw [hr] at hf; cases hf
          rw [if_pos rfl]
          omega
        | false =>
          rw [if_neg Bool.false_ne_true]
          constructor
          · intro hle' _ _ _
            omega
          · intro hw
            have := hw hout (by simpa using ha) hr
            omega

/-- A message that requests a refill leaves one entry and the counters as they were. -/
theorem request_spec {r : BBOHalfResult} (hd : cfg.bboDepth = 2)
    (hside : (orderMsg i.decBook).isBuy = h.isBuy)
    (hr : (h.processMsg cfg (orderMsg i.decBook)).1 = .ret r) (hreq : r.updtReq = true) :
    (h.processMsg cfg (orderMsg i.decBook)).2.entries.length = 1 ∧
      ¬ Outside cfg h (orderMsg i.decBook) := by
  rw [processMsg_eq cfg hside] at hr ⊢
  rcases hscan : BBOHalf.scan h.isBuy (orderMsg i.decBook) 0 h.entries with e | sc
  · rw [hscan] at hr
    cases hr
  · rw [hscan] at hr
    cases sc with
    | depletion idx =>
      refine ⟨?_, fun hout => nomatch hscan.symm.trans hout.1⟩
      dsimp only at hr ⊢
      unfold BBOHalf.deplete at hr ⊢
      dsimp only at hr ⊢
      by_cases hin : h.outsideSharesInRange > 0
      · rw [if_pos hin] at hr ⊢
        split_ifs at hr ⊢ with hlen
        rw [hd] at hlen
        have hlen' : (h.entries.eraseIdx idx).length = 1 := by omega
        split <;> exact hlen'
      · rw [if_neg hin] at hr
        split_ifs at hr
        cases hr
        rw [updtReq_result_false] at hreq
        cases hreq
    | _ =>
      cases hr
      rw [updtReq_result_false] at hreq
      cases hreq

/-- **The two halves step alike.** From corresponding states, on a message that the reference
handles without a failed assertion and that takes no more from a residual counter than it holds, no
share count of the reference reaching `2 ^ 64`: the RTL raises its error exactly if the reference
returns one, and requests a refill exactly if the reference does. Otherwise the registers track the
reference again, after an idle cycle or, when a refill was requested, after the refill word and an
idle cycle; and they correspond to it again exactly if a reduction out of range took no more than the
total held there, which is no matter for a message that requests a refill. -/
theorem half_simulates (hd : cfg.bboDepth = 2) (hc : Corresponds isBuy q h) (hi : Message i)
    (hnr : ∀ e, (h.processMsg cfg (orderMsg i.decBook)).1 ≠ .raise e)
    (hrec : Recorded cfg h (orderMsg i.decBook))
    (hfit : NoWrap (h.processMsg cfg (orderMsg i.decBook)).2) :
    (((bboHalf isBuy).out q i).error = true ↔
      (h.processMsg cfg (orderMsg i.decBook)).1.IsErr) ∧
    (((bboHalf isBuy).next q i).updtReq = true ↔
      ∃ r, (h.processMsg cfg (orderMsg i.decBook)).1 = .ret r ∧ r.updtReq = true) ∧
    (((bboHalf isBuy).next q i).updtReq = false →
      ∀ idles, (∀ j ∈ idles, Idle j) → idles ≠ [] →
        Tracks isBuy ((bboHalf isBuy).run q (i :: idles))
            (h.processMsg cfg (orderMsg i.decBook)).2 ∧
          (Corresponds isBuy ((bboHalf isBuy).run q (i :: idles))
              (h.processMsg cfg (orderMsg i.decBook)).2 ↔
            Within cfg h (orderMsg i.decBook))) ∧
    (((bboHalf isBuy).next q i).updtReq = true →
      ∀ waits u idles, (∀ j ∈ waits, Idle j) → Refill u → (∀ j ∈ idles, Idle j) → idles ≠ [] →
        (u.updt.shares.toNat : ℤ) ≤
          (h.processMsg cfg (orderMsg i.decBook)).2.outsideSharesInRange →
        ∃ h', (h.processMsg cfg (orderMsg i.decBook)).2.processUpdt cfg (entry u.updt) = .ok h' ∧
          ((bboHalf isBuy).out ((bboHalf isBuy).run q (i :: waits)) u).error = false ∧
          Corresponds isBuy ((bboHalf isBuy).run q (i :: waits ++ u :: idles)) h') := by
  have hside : (orderMsg i.decBook).isBuy = h.isBuy := by
    by_contra hne
    have hp : (h.processMsg cfg (orderMsg i.decBook)).1 = _ := congrArg Prod.fst (if_pos hne)
    exact hnr _ hp
  have hnn : ∀ x ∈ h.entries, 0 ≤ x.shares := by
    intro x hx
    obtain ⟨w, rfl⟩ : ∃ w, x = entry w := by
      rw [hc.entries, entries] at hx
      split_ifs at hx
      · rcases List.mem_cons.1 hx with rfl | hx
        · exact ⟨_, rfl⟩
        · exact ⟨_, List.mem_singleton.1 hx⟩
      · exact ⟨_, List.mem_singleton.1 hx⟩
      · cases hx
    exact Int.natCast_nonneg _
  have hwithin := le_iff_within cfg hc.le hnn hside
  obtain ⟨herr, hreq, hupd, hholds⟩ := message_agrees hd hc.toHolds hc.updting (fun _ => hc) hi hnr hrec hfit
  refine ⟨herr, hreq, fun hno idles hidles hne => ?_,
    fun hyes waits u idles hwaits hu hidles hne hin => ?_⟩
  · have htracks := hholds.tracks (hupd.trans hno) hidles hne
    exact ⟨htracks, fun h => hwithin.1 h.le, fun h => ⟨htracks, hwithin.2 h⟩⟩
  · obtain ⟨r, hr, hr'⟩ := hreq.1 hyes
    obtain ⟨hlen, hout⟩ := request_spec hd hside hr hr'
    have hle := hwithin.2 fun h => absurd h hout
    obtain ⟨hwait, hwait'⟩ := hholds.run_idle hwaits
    obtain ⟨h', hok, hh', hupd', hle'⟩ := hwait.next_refill hd hu hlen hin hle
    refine ⟨h', hok, ?_, ?_⟩
    · have hpend : ((bboHalf isBuy).run (HalfRegs.next isBuy q i) waits).updting = true :=
        hwait'.trans (hupd.trans hyes)
      simp only [bboHalf, Circuit.run_cons] at hwait hpend ⊢
      simp [HalfRegs.out, HalfRegs.errorState, HalfRegs.errorInit, HalfRegs.errorUpdt, hu.2.1,
        hu.2.2, hpend, hwait.initialized]
    · rw [(bboHalf isBuy).run_append, (bboHalf isBuy).run_cons, (bboHalf isBuy).run_cons]
      exact ⟨hh'.tracks hupd' hidles hne, hle'⟩

end Step

/-! ### Examples -/

/-- Two bids with ten shares below them, all counted as in range. -/
def exampleRegs : HalfRegs where
  initialized := true
  priceBound := 10000
  arr0 := ⟨true, 10100, 1⟩
  arr1 := ⟨true, 10050, 1⟩
  outSizeAll := 10
  outSizeInRange := 10
  updtAbleAll := true
  updtAbleInRange := true
  updting := false
  updtReq := false

/-- The reference half that they hold. -/
def exampleHalf : BBOHalf := ⟨true, false, 10000, [⟨1, 10100⟩, ⟨1, 10050⟩], 10, 10⟩

/-- A cycle with a reduction of some bid. -/
def reduceCycle (shares price : BitVec 32) : HalfIn :=
  ⟨false, 0, ⟨true, .reduce, false, 7, true, shares, price⟩, .zero⟩

/-- A cycle in which nothing arrives. -/
def idleCycle : HalfIn := ⟨false, 0, .zero, .zero⟩

/-- A cycle with a refill word of two shares. -/
def refillCycle : HalfIn := ⟨false, 0, .zero, ⟨true, 10000, 2⟩⟩

theorem exampleRegs_corresponds : Corresponds true exampleRegs exampleHalf where
  isBuy := rfl
  ideal := rfl
  initialized := rfl
  priceBound := rfl
  entries := by decide
  slots _ := rfl
  empty0 h := nomatch h
  empty1 h := nomatch h
  outsideShares := rfl
  outsideSharesInRange := rfl
  updting := rfl
  updtAbleAll := by decide
  updtAbleInRange := by decide
  le := by decide

/-- The depletion of the best bid, the refill and an idle cycle. -/
theorem half_simulates_refill :
    ∃ h', (exampleHalf.processMsg {} (orderMsg (reduceCycle 1 10100).decBook)).2.processUpdt {}
        (entry refillCycle.updt) = .ok h' ∧
      Corresponds true ((bboHalf true).run exampleRegs
        [reduceCycle 1 10100, idleCycle, refillCycle, idleCycle]) h' := by
  have hpy : exampleHalf.processMsg {} (orderMsg (reduceCycle 1 10100).decBook) =
      (.ret ⟨some ⟨1, 10050⟩, true, 10050⟩, { exampleHalf with entries := [⟨1, 10050⟩] }) := by
    decide +kernel
  obtain ⟨h', hok, -, hc⟩ := (half_simulates (i := reduceCycle 1 10100)
    (show ({} : Params).bboDepth = 2 from rfl) exampleRegs_corresponds (by decide) (by rw [hpy]; exact fun e h => nomatch h)
    (by intro h _; exact absurd h.1 (by decide +kernel)) (by rw [hpy]; decide +kernel)).2.2.2
    (by decide +kernel) [idleCycle] refillCycle [idleCycle] (by decide) ⟨rfl, rfl, rfl⟩ (by decide)
    (by decide) (by rw [hpy]; decide +kernel)
  exact ⟨h', hok, hc⟩

/-- A reduction below the covered range that takes five of ten shares, all of which were counted as
in range: the reference handles it, but the counters do not correspond again. -/
theorem not_corresponds_reduction :
    Corresponds true exampleRegs exampleHalf ∧
      List.Pairwise (fun a b => BBOHalf.closer true a b) (exampleHalf.entries.map (·.price)) ∧
      (∀ e ∈ exampleHalf.entries, 0 < e.shares) ∧ Message (reduceCycle 5 9950) ∧
      Recorded {} exampleHalf (orderMsg (reduceCycle 5 9950).decBook) ∧
      NoWrap (exampleHalf.processMsg {} (orderMsg (reduceCycle 5 9950).decBook)).2 ∧
      exampleHalf.processMsg {} (orderMsg (reduceCycle 5 9950).decBook) =
        (.ret ⟨some ⟨1, 10100⟩, false, 0⟩, { exampleHalf with outsideShares := 5 }) ∧
      ∀ idles, ¬ Corresponds true ((bboHalf true).run exampleRegs (reduceCycle 5 9950 :: idles))
        (exampleHalf.processMsg {} (orderMsg (reduceCycle 5 9950).decBook)).2 := by
  have hpy : exampleHalf.processMsg {} (orderMsg (reduceCycle 5 9950).decBook) =
      (.ret ⟨some ⟨1, 10100⟩, false, 0⟩, { exampleHalf with outsideShares := 5 }) := by
    decide +kernel
  refine ⟨exampleRegs_corresponds, by decide, by decide, by decide, ?_, ?_, hpy, ?_⟩
  · intro _ _
    decide +kernel
  · rw [hpy]
    decide +kernel
  · intro idles hc
    rw [hpy] at hc
    exact absurd hc.le (by decide)

end ItchOrderBook.Pipeline
