import ItchOrderBook.System.Handover

/-!
# What the testbench reads off the outputs

`TopMonitor._process_cycle` of `sim_top.py` builds a `TopResult` from `bbo_res_o`. A result of the book of
the RTL that shows the best bid and offer of an answer of the reference book is, behind the output stage
and the monitor, that answer as `Top` returns it (`monitored_mask`): the spread of an answer is that of
its two prices, and positive (`spread_answer`).
-/

namespace ItchOrderBook.System

open Pipeline (bboView resultView)
open Ref (BBOResult BookMsg BookResult Outcome TopResult)
open Rtl (Bbo TopIn TopOut TopRegs top)

/-- The result of `_process_cycle`, from the fields of `bbo_res_o`. -/
def monitored (b : Bbo) : TopResult where
  bidEntry := if b.bidValid then some ⟨b.bidShares.toNat, b.bidPrice.toNat⟩ else none
  offEntry := if b.offValid then some ⟨b.offShares.toNat, b.offPrice.toNat⟩ else none
  spread := if b.bidValid && b.offValid then some b.spread.toNat else none

/-- `TopMonitor._process_cycle`: the result that is compared in a cycle, if there is one. -/
def processCycle (o : TopOut) : Option TopResult := if o.bboResV then some (monitored o.bboRes) else none

/-- The results that the monitor sees in `m` cycles from cycle `t` on. -/
def monitoredFrom (q : TopRegs) (u : ℕ → TopIn) (t m : ℕ) : List TopResult :=
  (List.range m).filterMap fun j => processCycle (top.out (top.state q u (t + j)) (u (t + j)))

/-! ### The spread -/

/-- The spread is that of the two prices, and positive. -/
def SpreadOk (r : BookResult) : Prop :=
  match r.bidEntry, r.offEntry with
  | some bid, some off => r.spread = some (off.price - bid.price) ∧ 0 < off.price - bid.price
  | _, _ => r.spread = none

section Spread

variable {cfg : Ref.Params}

theorem spread_finish {b : Ref.BBO} {msg : Ref.DownstreamOrderMsg} {half : Ref.BBOHalfResult}
    {res : BBOResult} (h : b.finish msg half = .ret res) :
    SpreadOk ⟨res.bidEntry, res.offEntry, res.spread⟩ := by
  rw [Ref.BBO.finish] at h
  cases hbid : b.bidEntry with
  | none =>
    rw [hbid] at h
    cases h
    rfl
  | some bid =>
    cases hoff : b.offEntry with
    | none =>
      rw [hbid, hoff] at h
      cases h
      rfl
    | some off =>
      rw [hbid, hoff] at h
      dsimp only at h
      split_ifs at h with hpos
      cases h
      exact ⟨rfl, hpos⟩

theorem spread_bbo {b b' : Ref.BBO} {msg : Ref.DownstreamOrderMsg} {res : BBOResult}
    (h : b.processMsg cfg msg = (.ret res, b')) : SpreadOk ⟨res.bidEntry, res.offEntry, res.spread⟩ := by
  rw [Book.bbo_processMsg] at h
  rcases hhalf : (Book.half b msg.isBuy).processMsg cfg msg with ⟨r | c | e, half⟩
  · rw [hhalf] at h
    exact spread_finish (Prod.mk.inj h).1
  · rw [hhalf] at h
    cases h
  · rw [hhalf] at h
    cases h

theorem spread_refill {b b' : Ref.Book cfg} {res : BBOResult} {r : BookResult}
    (h : b.refill res = (.ret r, b')) : r = ⟨res.bidEntry, res.offEntry, res.spread⟩ := by
  rw [Ref.Book.refill] at h
  split_ifs at h
  · cases hu : b.l2.getUpdt res.updtReqIsBuy with
    | error e =>
      rw [hu] at h
      cases h
    | ok entry =>
      rw [hu] at h
      dsimp only at h
      cases hb : b.bbo.processUpdt cfg res.updtReqIsBuy entry with
      | error e =>
        rw [hb] at h
        cases h
      | ok bbo =>
        rw [hb] at h
        exact (Outcome.ret.inj (Prod.mk.inj h).1).symm
  · exact (Outcome.ret.inj (Prod.mk.inj h).1).symm

/-- **The spread of an answer.** -/
theorem spread_answer {b b' : Ref.Book cfg} {msg : BookMsg} {r : BookResult}
    (h : b.processMsg msg = (.ret r, b')) : SpreadOk r := by
  rw [Ref.Book.processMsg] at h
  rcases hl3 : b.l3.processMsg msg with ⟨lk | c | e, l3⟩
  · rw [hl3] at h
    dsimp only at h
    rw [Ref.Book.downstream] at h
    dsimp only at h
    rcases hl2 : b.l2.processMsg lk with ⟨u | c | e, l2⟩
    · rw [hl2] at h
      dsimp only at h
      rcases hbbo : b.bbo.processMsg cfg lk with ⟨res | c | e, bbo⟩
      · rw [hbbo] at h
        rw [spread_refill h]
        exact spread_bbo hbbo
      · rw [hbbo] at h
        cases h
      · rw [hbbo] at h
        cases h
    · rw [hl2] at h
      cases h
    · rw [hl2] at h
      cases h
  · rw [hl3] at h
    cases h
  · rw [hl3] at h
    cases h

theorem spread_run {b b' : Ref.Book cfg} {msgs : List BookMsg} {rs : List BookResult}
    (h : Book.run b msgs = some (rs, b')) : ∀ r ∈ rs, SpreadOk r := by
  induction msgs generalizing b rs with
  | nil =>
    cases h
    exact fun r hr => absurd hr List.not_mem_nil
  | cons m msgs ih =>
    obtain ⟨r, b₁, rs', hp, hrest, rfl⟩ := Book.run_cons h
    exact List.forall_mem_cons.2 ⟨spread_answer hp, ih hrest⟩

end Spread

/-! ### The output stage and the monitor -/

/-- **One result**, behind the output stage and the monitor. -/
theorem monitored_mask {b : Bbo} {r : BookResult} (hview : bboView b = resultView r)
    (hspread : b.spread = b.offPrice - b.bidPrice) (hr : SpreadOk r) (active : Bool) :
    monitored (b.mask active) = maskResult active r := by
  obtain ⟨bv, bp, bs, ov, op, os, sp⟩ := b
  obtain ⟨rb, ro, rsp⟩ := r
  obtain rfl : sp = op - bp := hspread
  obtain ⟨hb, ho⟩ := Prod.mk.inj hview
  dsimp only at hb ho
  subst hb
  subst ho
  rw [SpreadOk] at hr
  cases active with
  | false => rfl
  | true =>
    cases bv with
    | false =>
      obtain rfl : rsp = none := hr
      rfl
    | true =>
      cases ov with
      | false =>
        obtain rfl : rsp = none := hr
        rfl
      | true =>
        obtain ⟨rfl, hpos⟩ := (hr : rsp = some _ ∧ _)
        have hlt : bp ≤ op := by
          rw [BitVec.le_def]
          dsimp only at hpos
          omega
        have hsub : ((op - bp).toNat : ℤ) = op.toNat - bp.toNat := by
          rw [BitVec.toNat_sub_of_le hlt]
          have := BitVec.le_def.1 hlt
          omega
        simp only [monitored, Bbo.mask, maskResult, if_true, Bool.and_self, hsub]

/-- Results one by one. -/
theorem monitored_masks {gs : List Bool} {bs : List Bbo} {rs : List BookResult}
    (hview : bs.map bboView = rs.map resultView) (hspread : ∀ b ∈ bs, b.spread = b.offPrice - b.bidPrice)
    (hr : ∀ r ∈ rs, SpreadOk r) :
    (List.zipWith Bbo.mask gs bs).map monitored = List.zipWith maskResult gs rs := by
  induction gs generalizing bs rs with
  | nil => rfl
  | cons g gs ih =>
    cases bs with
    | nil =>
      cases rs with
      | nil => rfl
      | cons r rs => cases hview
    | cons b bs =>
      cases rs with
      | nil => cases hview
      | cons r rs =>
        obtain ⟨hb, hbs⟩ := List.cons.inj hview
        obtain ⟨hsb, hsbs⟩ := List.forall_mem_cons.1 hspread
        obtain ⟨hrr, hrs⟩ := List.forall_mem_cons.1 hr
        rw [List.zipWith_cons_cons, List.map_cons, List.zipWith_cons_cons, monitored_mask hb hsb hrr g,
          ih hbs hsbs hrs]

end ItchOrderBook.System
