import ItchOrderBook.Ref.Bbo
import ItchOrderBook.Rtl.Bbo
import Mathlib.Data.Int.Basic
import Mathlib.Data.List.InsertIdx
import Mathlib.Tactic.SplitIfs

/-!
# The registers of a half and the reference half

The registers of `bbo_half` hold the state of a reference half with two entries (`Tracks`,
`Corresponds`). The cases below follow the shift codes of the two slots: in each of them the RTL and
the reference do the same with a message (`Agrees`).
-/

namespace ItchOrderBook.Pipeline

open Ref (BBOHalf BBOEntry BBOHalfResult DownstreamOrderMsg Outcome Params)
open Rtl (HalfRegs HalfIn BboWord DecBook bboHalf)

/-! ### The two states -/

/-- The message type of an order signal. -/
def msgType : Rtl.BookMsgType → Ref.BookMsgType
  | .add => .add
  | .replace => .replace
  | .reduce => .reduce
  | .delete => .delete

/-- The message of an order signal. -/
def orderMsg (d : DecBook) : DownstreamOrderMsg :=
  ⟨msgType d.msgType, d.isBuy, d.shares.toNat, d.price.toNat⟩

/-- The entry in a slot. -/
def entry (w : BboWord) : BBOEntry := ⟨w.shares.toNat, w.price.toNat⟩

/-- The entries in the valid prefix of the slots. -/
def entries (q : HalfRegs) : List BBOEntry :=
  if q.arr0.valid then entry q.arr0 :: if q.arr1.valid then [entry q.arr1] else [] else []

/-- The registers hold the entries, the counters and the configuration of the half. -/
structure Holds (isBuy : Bool) (q : HalfRegs) (h : BBOHalf) : Prop where
  isBuy : h.isBuy = isBuy
  ideal : h.ideal = false
  initialized : q.initialized = true
  priceBound : h.priceBound = q.priceBound.toNat
  entries : h.entries = entries q
  slots : q.arr1.valid = true → q.arr0.valid = true
  empty0 : q.arr0.valid = false → q.arr0.shares = 0
  empty1 : q.arr1.valid = false → q.arr1.shares = 0
  outsideShares : h.outsideShares = q.outSizeAll.toNat
  outsideSharesInRange : h.outsideSharesInRange = q.outSizeInRange.toNat

/-- The registers hold the state of the half, and no refill is pending. -/
structure Tracks (isBuy : Bool) (q : HalfRegs) (h : BBOHalf) : Prop
    extends Holds isBuy q h where
  updting : q.updting = false
  updtAbleAll : q.updtAbleAll = decide (0 < h.outsideShares)
  updtAbleInRange : q.updtAbleInRange = decide (0 < h.outsideSharesInRange)

/-- The registers hold the state of the half, whose in-range counter is at most the total. -/
structure Corresponds (isBuy : Bool) (q : HalfRegs) (h : BBOHalf) : Prop
    extends Tracks isBuy q h where
  le : h.outsideSharesInRange ≤ h.outsideShares

/-! ### Inputs -/

/-- A cycle with neither a message nor a refill word. -/
def Idle (i : HalfIn) : Prop :=
  i.initV = false ∧ i.decBook.valid = false ∧ i.updt.valid = false

/-- A cycle with a message of at least one share. -/
def Message (i : HalfIn) : Prop :=
  i.initV = false ∧ i.decBook.valid = true ∧ i.updt.valid = false ∧ 1 ≤ i.decBook.shares.toNat

/-- A cycle with a refill word. -/
def Refill (i : HalfIn) : Prop :=
  i.initV = false ∧ i.decBook.valid = false ∧ i.updt.valid = true

instance : DecidablePred Idle := fun _ => inferInstanceAs (Decidable (_ ∧ _))
instance : DecidablePred Message := fun _ => inferInstanceAs (Decidable (_ ∧ _))

/-- The message changes the residual counters: its price is past all entries of a full half. -/
def Outside (cfg : Params) (h : BBOHalf) (msg : DownstreamOrderMsg) : Prop :=
  BBOHalf.scan h.isBuy msg 0 h.entries = .ok .outside ∧ cfg.bboDepth ≤ h.entries.length

/-- A reduction takes no more than the residual counters it touches hold. -/
def Recorded (cfg : Params) (h : BBOHalf) (msg : DownstreamOrderMsg) : Prop :=
  Outside cfg h msg → msg.msgType.isAdd = false →
    msg.shares ≤ h.outsideShares ∧
      (h.inRange msg.price = true → msg.shares ≤ h.outsideSharesInRange)

/-- A reduction out of range takes no more than the total holds out of range. -/
def Within (cfg : Params) (h : BBOHalf) (msg : DownstreamOrderMsg) : Prop :=
  Outside cfg h msg → msg.msgType.isAdd = false → h.inRange msg.price = false →
    msg.shares ≤ h.outsideShares - h.outsideSharesInRange

/-- The share counts of the half fit in 64 bits. -/
def NoWrap (h : BBOHalf) : Prop :=
  (∀ e ∈ h.entries, e.shares < 2 ^ 64) ∧ h.outsideShares < 2 ^ 64 ∧
    h.outsideSharesInRange < 2 ^ 64

instance : DecidablePred NoWrap := fun _ => inferInstanceAs (Decidable (_ ∧ _))

section Step

variable {cfg : Params} {isBuy : Bool} {q : HalfRegs} {h : BBOHalf} {i : HalfIn}

/-! ### One slot -/

theorem isAdd_orderMsg (d : DecBook) : (orderMsg d).msgType.isAdd = d.isAdd := by
  cases hm : d.msgType <;> simp [orderMsg, msgType, hm, DecBook.isAdd, Ref.BookMsgType.isAdd]

theorem below_of_valid {d : DecBook} {w : BboWord} (hw : w.valid = true) :
    HalfRegs.below isBuy d w = BBOHalf.closer isBuy (orderMsg d).price (entry w).price := by
  cases isBuy <;> simp [HalfRegs.below, BBOHalf.closer, orderMsg, entry, hw, BitVec.lt_def]

/-- A slot that the message is not below is valid. -/
theorem valid_of_not_below {d : DecBook} {w : BboWord} (h : HalfRegs.below isBuy d w = false) :
    w.valid = true := by
  simp only [HalfRegs.below, Bool.or_eq_false_iff, Bool.not_eq_false'] at h
  exact h.1.1

theorem price_eq_iff {d : DecBook} {w : BboWord} :
    (orderMsg d).price = (entry w).price ↔ w.price = d.price := by
  simp only [orderMsg, entry, Int.natCast_inj, BitVec.toNat_inj]
  exact eq_comm

theorem inRange_eq (hh : Holds isBuy q h) (p : BitVec 32) :
    q.inRange isBuy p = h.inRange p.toNat := by
  simp only [HalfRegs.inRange, BBOHalf.inRange, hh.isBuy, hh.ideal, hh.priceBound,
    BitVec.le_def, Bool.false_or, ge_iff_le, Int.ofNat_le]

/-- The shares of a level after a message that does not take more than it has. -/
theorem arrMod_toNat {d : DecBook} {w : BboWord}
    (hadd : d.isAdd = true → w.shares.toNat + d.shares.toNat < 2 ^ 64)
    (hsub : d.isAdd = false → d.shares.toNat ≤ w.shares.toNat) :
    ((HalfRegs.arrMod d w).toNat : ℤ) =
      if d.isAdd then (w.shares.toNat : ℤ) + d.shares.toNat
      else (w.shares.toNat : ℤ) - d.shares.toNat := by
  have hd := d.shares.isLt
  have hset : (d.shares.setWidth 64).toNat = d.shares.toNat := by
    rw [BitVec.toNat_setWidth]
    omega
  unfold HalfRegs.arrMod
  split_ifs with ha
  · rw [BitVec.toNat_add, hset, Nat.mod_eq_of_lt (hadd ha)]
    push_cast
    rfl
  · have hle := hsub (by simpa using ha)
    rw [BitVec.toNat_sub_of_le (by rw [BitVec.le_def, hset]; exact hle), hset]
    omega

/-! ### One message -/

/-- Both sides handled the message of the cycle alike. -/
structure Agrees (cfg : Params) (isBuy : Bool) (q : HalfRegs) (h : BBOHalf) (i : HalfIn) :
    Prop where
  error : (HalfRegs.out isBuy q i).error = true ↔
    (h.processMsg cfg (orderMsg i.decBook)).1.IsErr
  updtReq : (HalfRegs.next isBuy q i).updtReq = true ↔
    ∃ r, (h.processMsg cfg (orderMsg i.decBook)).1 = .ret r ∧ r.updtReq = true
  updting : (HalfRegs.next isBuy q i).updting = (HalfRegs.next isBuy q i).updtReq
  holds : Holds isBuy (HalfRegs.next isBuy q i) (h.processMsg cfg (orderMsg i.decBook)).2

theorem updtReq_result_false (h : BBOHalf) (x : ℤ) : (h.result false x).updtReq = false := by
  cases hl : h.entries <;> simp [BBOHalf.result, hl]

theorem processMsg_eq (cfg : Params) (hb : (orderMsg i.decBook).isBuy = h.isBuy) :
    h.processMsg cfg (orderMsg i.decBook) =
      match BBOHalf.scan h.isBuy (orderMsg i.decBook) 0 h.entries with
      | .error e => (.raise e, h)
      | .ok (.modify idx entry) =>
        (.ret (BBOHalf.result { h with entries := h.entries.set idx entry } false 0),
          { h with entries := h.entries.set idx entry })
      | .ok (.depletion idx) => h.deplete cfg idx
      | .ok (.insertion idx) =>
        (.ret ((h.insertEntry cfg idx
            ⟨(orderMsg i.decBook).shares, (orderMsg i.decBook).price⟩).result false 0),
          h.insertEntry cfg idx ⟨(orderMsg i.decBook).shares, (orderMsg i.decBook).price⟩)
      | .ok .outside =>
        (.ret ((h.outsideMsg cfg (orderMsg i.decBook)).result false 0),
          h.outsideMsg cfg (orderMsg i.decBook)) := by
  unfold BBOHalf.processMsg
  exact (if_neg (not_not.2 hb)).trans rfl

/-- A message that depletes no entry raises no error and requests no refill. -/
theorem agrees_of_not_del {h' : BBOHalf} (hh : Holds isBuy q h)
    (hupd : q.updting = false) (hi : Message i)
    (hdel : (q.arrChng1 isBuy i.decBook).2.del = false)
    (hp : h.processMsg cfg (orderMsg i.decBook) = (.ret (h'.result false 0), h'))
    (hnext : Holds isBuy (HalfRegs.next isBuy q i) h') : Agrees cfg isBuy q h i := by
  obtain ⟨-, hv, hu, -⟩ := hi
  have hoff : (q.counters isBuy (q.onUpdt i.updt) i.decBook
        (q.arrChng1 isBuy i.decBook).2).updtReq = false ∧
      (q.counters isBuy (q.onUpdt i.updt) i.decBook
        (q.arrChng1 isBuy i.decBook).2).updting = false := by
    simp only [HalfRegs.counters, hdel, Bool.false_eq_true, if_false]
    split_ifs <;> simp [HalfRegs.onUpdt, hu, hupd]
  constructor
  · simp [HalfRegs.out, HalfRegs.errorState, HalfRegs.errorInit, HalfRegs.errorUpdt, hdel, hv,
      hupd, hh.initialized, hp]
  · simp [HalfRegs.next, HalfRegs.onMsg, hv, hoff.1, hp, updtReq_result_false]
  · simp [HalfRegs.next, HalfRegs.onMsg, hv, hoff.1, hoff.2]
  · rw [hp]
    exact hnext

theorem toNat_add_of_lt {a b : BitVec 64} (h : (a.toNat : ℤ) + b.toNat < 2 ^ 64) :
    ((a + b).toNat : ℤ) = a.toNat + b.toNat := by
  rw [BitVec.toNat_add, Nat.mod_eq_of_lt (by omega)]
  push_cast
  rfl

theorem toNat_sub_of_le {a b : BitVec 64} (h : (b.toNat : ℤ) ≤ a.toNat) :
    ((a - b).toNat : ℤ) = a.toNat - b.toNat := by
  rw [BitVec.toNat_sub_of_le (by rw [BitVec.le_def]; omega)]
  omega

theorem toNat_shares (d : DecBook) : (d.shares.setWidth 64).toNat = d.shares.toNat := by
  have := d.shares.isLt
  rw [BitVec.toNat_setWidth]
  omega

/-- The counters of the registers after the entry in slot 1 is evicted. -/
theorem counters_evict (hh : Holds isBuy q h)
    (hfit : (q.outSizeAll.toNat : ℤ) + q.arr1.shares.toNat < 2 ^ 64)
    (hfit' : h.inRange q.arr1.price.toNat = true →
      (q.outSizeInRange.toNat : ℤ) + q.arr1.shares.toNat < 2 ^ 64) :
    ((q.outSizeAll + q.arr1.shares).toNat : ℤ) =
        (h.addOutside q.arr1.shares.toNat q.arr1.price.toNat).outsideShares ∧
      ((if q.inRange isBuy q.arr1.price then q.outSizeInRange + q.arr1.shares
          else q.outSizeInRange).toNat : ℤ) =
        (h.addOutside q.arr1.shares.toNat q.arr1.price.toNat).outsideSharesInRange := by
  simp only [BBOHalf.addOutside, inRange_eq hh, hh.outsideShares, hh.outsideSharesInRange]
  constructor
  · exact toNat_add_of_lt hfit
  · split_ifs with hin
    · exact toNat_add_of_lt (hfit' hin)
    · rfl

/-- An insertion that evicts nothing leaves the counters of the registers as they are. -/
theorem counters_free (hh : Holds isBuy q h) (h1 : q.arr1.valid = false) :
    q.outSizeAll + q.arr1.shares = q.outSizeAll ∧
      (if q.inRange isBuy q.arr1.price then q.outSizeInRange + q.arr1.shares
        else q.outSizeInRange) = q.outSizeInRange := by
  rw [hh.empty1 h1]
  simp

/-- The word that a message inserts. -/
def wordIns (d : DecBook) : BboWord := ⟨d.valid, d.price, d.shares.setWidth 64⟩

theorem entry_wordIns (d : DecBook) :
    entry (wordIns d) = ⟨(orderMsg d).shares, (orderMsg d).price⟩ := by
  simp only [entry, wordIns, orderMsg, toNat_shares]

/-- The registers after an insertion hold the half that the reference built for it. -/
theorem holds_insert {h' : BBOHalf} {a0 a1 : BboWord} (hh : Holds isBuy q h) (ha0 : a0.valid = true)
    (ha1 : a1.valid = false → a1.shares = 0) {q' : HalfRegs}
    (hq' : q' = { q with
      arr0 := a0
      arr1 := a1
      outSizeAll := q.outSizeAll + q.arr1.shares
      outSizeInRange :=
        if q.inRange isBuy q.arr1.price then q.outSizeInRange + q.arr1.shares
        else q.outSizeInRange
      updtReq := false
      updtAbleAll := decide (q.outSizeAll > 0)
      updtAbleInRange := decide (q.outSizeInRange > 0) })
    (hfit : NoWrap h')
    (hh' : h' = { (if q.arr1.valid then h.addOutside q.arr1.shares.toNat q.arr1.price.toNat else h)
      with entries := entry a0 :: if a1.valid then [entry a1] else [] }) :
    Holds isBuy q' h' := by
  subst hq'
  obtain ⟨-, hall, hin⟩ := hfit
  cases h1 : q.arr1.valid with
  | false =>
    rw [h1, if_neg Bool.false_ne_true] at hh'
    obtain ⟨heq, heq'⟩ := counters_free hh h1
    subst hh'
    refine ⟨hh.isBuy, hh.ideal, hh.initialized, hh.priceBound, ?_, fun _ => ha0, ?_, ha1, ?_, ?_⟩
    · simp [entries, ha0]
    · intro hf
      exact absurd ha0 (by simpa using hf)
    · simpa only [heq] using hh.outsideShares
    · simpa only [heq'] using hh.outsideSharesInRange
  | true =>
    rw [h1, if_pos rfl] at hh'
    subst hh'
    have hcount := counters_evict hh
      (by simpa only [BBOHalf.addOutside, hh.outsideShares] using hall)
      (fun hr => by simpa only [BBOHalf.addOutside, hr, if_true, hh.outsideSharesInRange] using hin)
    refine ⟨hh.isBuy, hh.ideal, hh.initialized, hh.priceBound, ?_, fun _ => ha0, ?_, ha1,
      hcount.1.symm, hcount.2.symm⟩
    · simp [entries, ha0]
    · intro hf
      exact absurd ha0 (by simpa using hf)

/-- The entries, split at the one in slot 0. -/
theorem Holds.entries_slot0 (hh : Holds isBuy q h) (hv0 : q.arr0.valid = true) :
    h.entries = [] ++ entry q.arr0 :: if q.arr1.valid then [entry q.arr1] else [] := by
  simp [hh.entries, Pipeline.entries, hv0]

/-- An insertion at slot 0. -/
theorem insert0 (hd : cfg.bboDepth = 2) (hh : Holds isBuy q h) (hupd : q.updting = false)
    (hi : Message i) (hnr : ∀ e, (h.processMsg cfg (orderMsg i.decBook)).1 ≠ .raise e)
    (hfit : NoWrap (h.processMsg cfg (orderMsg i.decBook)).2)
    (hside : (orderMsg i.decBook).isBuy = h.isBuy)
    (h0 : HalfRegs.below isBuy i.decBook q.arr0 = true) : Agrees cfg isBuy q h i := by
  obtain ⟨hinit, hv, hu, hpos⟩ := id hi
  have hnext : HalfRegs.next isBuy q i = { q with
      arr0 := wordIns i.decBook
      arr1 := q.arr0
      outSizeAll := q.outSizeAll + q.arr1.shares
      outSizeInRange :=
        if q.inRange isBuy q.arr1.price then q.outSizeInRange + q.arr1.shares
        else q.outSizeInRange
      updtReq := false
      updtAbleAll := decide (q.outSizeAll > 0)
      updtAbleInRange := decide (q.outSizeInRange > 0) } := by
    simp [HalfRegs.next, HalfRegs.onMsg, HalfRegs.onUpdt, HalfRegs.arrChng1, HalfRegs.arrChng0,
      HalfRegs.arrChng, HalfRegs.counters, HalfRegs.arrNext0, HalfRegs.arrNext1, wordIns, h0, hinit,
      hv, hu]
  have hdel : (q.arrChng1 isBuy i.decBook).2.del = false := by
    simp [HalfRegs.arrChng1, HalfRegs.arrChng0, HalfRegs.arrChng, h0]
  obtain ⟨h', hp, hh'⟩ : ∃ h' : BBOHalf,
      h.processMsg cfg (orderMsg i.decBook) = (.ret (h'.result false 0), h') ∧
      h' = { (if q.arr1.valid then h.addOutside q.arr1.shares.toNat q.arr1.price.toNat else h)
        with entries :=
          entry (wordIns i.decBook) :: if q.arr0.valid then [entry q.arr0] else [] } := by
    have hp := processMsg_eq cfg hside
    cases hv0 : q.arr0.valid with
    | false =>
      have hv1 : q.arr1.valid = false := by
        by_contra hc
        simp [hh.slots (by simpa using hc)] at hv0
      have hes : h.entries = [] := by simp [hh.entries, entries, hv0]
      simp only [hes, BBOHalf.scan] at hp
      refine ⟨_, hp, ?_⟩
      simp [BBOHalf.outsideMsg, hes, hd, hv1, entry_wordIns]
    | true =>
      rw [below_of_valid hv0] at h0
      have hes : h.entries = entry q.arr0 :: _ := hh.entries_slot0 hv0
      rw [hes, hh.isBuy, BBOHalf.scan_of_closer h0] at hp
      cases ha : (orderMsg i.decBook).msgType.isAdd with
      | false =>
        simp only [ha, Bool.false_eq_true, if_false] at hp
        exact absurd (congrArg Prod.fst hp) (hnr _)
      | true =>
        simp only [ha, if_true] at hp
        refine ⟨_, hp, ?_⟩
        rw [BBOHalf.insertEntry, hes, ← entry_wordIns]
        cases hv1 : q.arr1.valid <;> simp [hd, BBOHalf.addOutside, BBOHalf.inRange, entry]
  refine agrees_of_not_del hh hupd hi hdel hp ?_
  rw [hp] at hfit
  exact holds_insert hh hv hh.empty0 hnext hfit hh'

/-- The message passes over slot 0. -/
structure Passes (isBuy : Bool) (q : HalfRegs) (d : DecBook) : Prop where
  below : HalfRegs.below isBuy d q.arr0 = false
  price : q.arr0.price ≠ d.price

theorem Passes.valid {d : DecBook} (hp : Passes isBuy q d) : q.arr0.valid = true :=
  valid_of_not_below hp.below

theorem Passes.arrChng0 {d : DecBook} (hp : Passes isBuy q d) :
    q.arrChng0 isBuy d = (.hold, ⟨false, false, false, true⟩) := by
  simp [HalfRegs.arrChng0, HalfRegs.arrChng, hp.below, hp.price]

theorem Passes.arrChng1 {d : DecBook} (hp : Passes isBuy q d) :
    q.arrChng1 isBuy d = HalfRegs.arrChng isBuy d q.arr1 ⟨false, false, false, true⟩ := by
  simp [HalfRegs.arrChng1, hp.arrChng0]

theorem Passes.entries {d : DecBook} (hp : Passes isBuy q d) (hh : Holds isBuy q h) :
    h.entries = entry q.arr0 :: if q.arr1.valid then [entry q.arr1] else [] :=
  hh.entries_slot0 hp.valid

/-- The entries, split at the one in slot 1. -/
theorem Passes.entries_slot1 {d : DecBook} (hp : Passes isBuy q d) (hh : Holds isBuy q h)
    (hv1 : q.arr1.valid = true) : h.entries = [entry q.arr0] ++ entry q.arr1 :: [] := by
  rw [hp.entries hh, hv1]
  rfl

theorem Passes.scan {d : DecBook} (hp : Passes isBuy q d) (rest : List BBOEntry) :
    BBOHalf.scan isBuy (orderMsg d) 0 (entry q.arr0 :: rest) =
      BBOHalf.scan isBuy (orderMsg d) 1 rest := by
  have hb := hp.below
  rw [below_of_valid hp.valid] at hb
  exact BBOHalf.scan_of_not_closer (fun he => hp.price (price_eq_iff.1 he)) hb 0 rest

/-- An insertion at slot 1. -/
theorem insert1 (hd : cfg.bboDepth = 2) (hh : Holds isBuy q h) (hupd : q.updting = false)
    (hi : Message i) (hnr : ∀ e, (h.processMsg cfg (orderMsg i.decBook)).1 ≠ .raise e)
    (hfit : NoWrap (h.processMsg cfg (orderMsg i.decBook)).2)
    (hside : (orderMsg i.decBook).isBuy = h.isBuy) (hpass : Passes isBuy q i.decBook)
    (h1 : HalfRegs.below isBuy i.decBook q.arr1 = true) : Agrees cfg isBuy q h i := by
  obtain ⟨hinit, hv, hu, hpos⟩ := id hi
  have hnext : HalfRegs.next isBuy q i = { q with
      arr0 := q.arr0
      arr1 := wordIns i.decBook
      outSizeAll := q.outSizeAll + q.arr1.shares
      outSizeInRange :=
        if q.inRange isBuy q.arr1.price then q.outSizeInRange + q.arr1.shares
        else q.outSizeInRange
      updtReq := false
      updtAbleAll := decide (q.outSizeAll > 0)
      updtAbleInRange := decide (q.outSizeInRange > 0) } := by
    simp [HalfRegs.next, HalfRegs.onMsg, HalfRegs.onUpdt, hpass.arrChng1, hpass.arrChng0,
      HalfRegs.arrChng, HalfRegs.counters, HalfRegs.arrNext0, HalfRegs.arrNext1, wordIns, h1, hinit,
      hv, hu]
  have hdel : (q.arrChng1 isBuy i.decBook).2.del = false := by
    simp [hpass.arrChng1, HalfRegs.arrChng, h1]
  obtain ⟨h', hp, hh'⟩ : ∃ h' : BBOHalf,
      h.processMsg cfg (orderMsg i.decBook) = (.ret (h'.result false 0), h') ∧
      h' = { (if q.arr1.valid then h.addOutside q.arr1.shares.toNat q.arr1.price.toNat else h)
        with entries := entry q.arr0 ::
          if (wordIns i.decBook).valid then [entry (wordIns i.decBook)] else [] } := by
    have hp := processMsg_eq cfg hside
    have hes := hpass.entries hh
    have hvw : (wordIns i.decBook).valid = true := hv
    rw [hvw, if_pos rfl]
    rw [hh.isBuy, hes, hpass.scan] at hp
    cases hv1 : q.arr1.valid with
    | false =>
      simp only [hv1, Bool.false_eq_true, if_false, BBOHalf.scan] at hp hes
      refine ⟨_, hp, ?_⟩
      simp [BBOHalf.outsideMsg, hes, hd, entry_wordIns]
    | true =>
      rw [below_of_valid hv1] at h1
      rw [hv1, if_pos rfl] at hp hes
      rw [BBOHalf.scan_of_closer h1] at hp
      cases ha : (orderMsg i.decBook).msgType.isAdd with
      | false =>
        simp only [ha, Bool.false_eq_true, if_false] at hp
        exact absurd (congrArg Prod.fst hp) (hnr _)
      | true =>
        simp only [ha, if_true] at hp
        refine ⟨_, hp, ?_⟩
        rw [BBOHalf.insertEntry, hes, ← entry_wordIns]
        simp [hd, BBOHalf.addOutside, BBOHalf.inRange, entry]
  refine agrees_of_not_del hh hupd hi hdel hp ?_
  rw [hp] at hfit
  refine holds_insert hh hpass.valid ?_ hnext hfit hh'
  intro hf
  rw [wordIns, hv] at hf
  cases hf

/-- A residual counter after a message past all slots. -/
theorem toNat_shift {d : DecBook} {c : BitVec 64}
    (hlt : (c.toNat : ℤ) + (if d.isAdd then (d.shares.toNat : ℤ) else -d.shares.toNat) < 2 ^ 64)
    (hle : d.isAdd = false → (d.shares.toNat : ℤ) ≤ c.toNat) :
    (c.toNat : ℤ) + (if d.isAdd then (d.shares.toNat : ℤ) else -d.shares.toNat) =
      ((if d.isAdd then c + d.shares.setWidth 64 else c - d.shares.setWidth 64).toNat : ℤ) := by
  rw [← toNat_shares] at hlt hle ⊢
  split_ifs with ha
  · rw [if_pos ha] at hlt
    exact (toNat_add_of_lt hlt).symm
  · rw [toNat_sub_of_le (hle (by simpa using ha))]
    rfl

/-- A message past both slots. -/
theorem outside1 (hd : cfg.bboDepth = 2) (hh : Holds isBuy q h) (hupd : q.updting = false)
    (hi : Message i)
    (hrec : Recorded cfg h (orderMsg i.decBook))
    (hfit : NoWrap (h.processMsg cfg (orderMsg i.decBook)).2)
    (hside : (orderMsg i.decBook).isBuy = h.isBuy) (hpass : Passes isBuy q i.decBook)
    (h1 : HalfRegs.below isBuy i.decBook q.arr1 = false) (hne : q.arr1.price ≠ i.decBook.price) :
    Agrees cfg isBuy q h i := by
  obtain ⟨hinit, hv, hu, hpos⟩ := id hi
  have hv1 := valid_of_not_below h1
  have hes := hpass.entries hh
  have hscan : BBOHalf.scan h.isBuy (orderMsg i.decBook) 0 h.entries = .ok .outside := by
    rw [below_of_valid hv1] at h1
    rw [hh.isBuy, hes, hpass.scan, hv1, if_pos rfl,
      BBOHalf.scan_of_not_closer (fun he => hne (price_eq_iff.1 he)) h1, BBOHalf.scan]
  have hout : Outside cfg h (orderMsg i.decBook) := ⟨hscan, by simp [hes, hv1, hd]⟩
  have hp := processMsg_eq cfg hside
  rw [hscan] at hp
  have hmsg : h.outsideMsg cfg (orderMsg i.decBook) = h.addOutside
      (if i.decBook.isAdd then (i.decBook.shares.toNat : ℤ) else -i.decBook.shares.toNat)
      i.decBook.price.toNat := by
    rw [BBOHalf.outsideMsg, if_neg (by simp [hes, hv1, hd]), isAdd_orderMsg]
    rfl
  rw [hmsg] at hp
  have hdel : (q.arrChng1 isBuy i.decBook).2.del = false := by
    simp [hpass.arrChng1, HalfRegs.arrChng, h1, hne]
  refine agrees_of_not_del hh hupd hi hdel hp ?_
  rw [hp] at hfit
  obtain ⟨-, hall, hin⟩ := hfit
  have hle := fun ha => hrec hout ((isAdd_orderMsg _).trans ha)
  rw [show (orderMsg i.decBook).shares = i.decBook.shares.toNat from rfl,
    show (orderMsg i.decBook).price = i.decBook.price.toNat from rfl, hh.outsideShares,
    hh.outsideSharesInRange] at hle
  refine ⟨hh.isBuy, hh.ideal, ?_, ?_, ?_, ?_, ?_, ?_, ?_, ?_⟩
  all_goals simp only [HalfRegs.next, HalfRegs.onMsg, HalfRegs.onUpdt, hpass.arrChng1,
    hpass.arrChng0, HalfRegs.arrChng, h1, hne, HalfRegs.counters, HalfRegs.arrNext0,
    HalfRegs.arrNext1, hinit, hv, hu, if_true, if_false, Bool.false_eq_true, Bool.false_or,
    BBOHalf.addOutside, inRange_eq hh]
  · exact hh.initialized
  · exact hh.priceBound
  · exact hh.entries
  · exact hh.slots
  · exact hh.empty0
  · exact hh.empty1
  · rw [BBOHalf.addOutside, hh.outsideShares] at hall
    rw [hh.outsideShares]
    exact toNat_shift hall fun ha => (hle ha).1
  · by_cases hr : h.inRange i.decBook.price.toNat = true
    · rw [BBOHalf.addOutside, hh.outsideSharesInRange, if_pos hr] at hin
      rw [if_pos hr, if_pos hr, hh.outsideSharesInRange]
      exact toNat_shift hin fun ha => (hle ha).2 hr
    · rw [if_neg hr, if_neg hr, hh.outsideSharesInRange]

/-- What the reference does with a message at the price of an entry is what the RTL computes. -/
theorem scan_equal {w : BboWord} {pre rest : List BBOEntry}
    (hnr : ∀ e, (h.processMsg cfg (orderMsg i.decBook)).1 ≠ .raise e)
    (hfit : NoWrap (h.processMsg cfg (orderMsg i.decBook)).2)
    (hside : (orderMsg i.decBook).isBuy = h.isBuy) (hpos : 1 ≤ i.decBook.shares.toNat)
    (hes : h.entries = pre ++ entry w :: rest)
    (hpre : BBOHalf.scan h.isBuy (orderMsg i.decBook) 0 h.entries =
      BBOHalf.scan h.isBuy (orderMsg i.decBook) pre.length (entry w :: rest))
    (hprice : w.price = i.decBook.price) :
    BBOHalf.scan h.isBuy (orderMsg i.decBook) 0 h.entries =
        (if HalfRegs.arrMod i.decBook w = 0 then .ok (.depletion pre.length)
          else .ok (.modify pre.length (entry { w with shares := HalfRegs.arrMod i.decBook w }))) ∧
      (i.decBook.isAdd = true → HalfRegs.arrMod i.decBook w ≠ 0) := by
  have hp := processMsg_eq cfg hside
  have hscan := hpre
  rw [BBOHalf.scan, if_pos (price_eq_iff.2 hprice), isAdd_orderMsg] at hscan
  have hzero : HalfRegs.arrMod i.decBook w = 0 ↔ ((HalfRegs.arrMod i.decBook w).toNat : ℤ) = 0 := by
    rw [← BitVec.toNat_inj]
    exact Int.natCast_inj.symm
  cases ha : i.decBook.isAdd with
  | true =>
    rw [ha, if_pos rfl] at hscan
    rw [hscan] at hp
    rw [hp] at hfit
    have hmod := arrMod_toNat (d := i.decBook) (w := w)
      (fun _ => by
        have := hfit.1 _ (by
          show _ ∈ h.entries.set pre.length _
          rw [hes, List.set_append_right _ _ le_rfl, Nat.sub_self, List.set_cons_zero]
          exact List.mem_append_right _ List.mem_cons_self)
        simp only [entry, orderMsg] at this
        omega)
      (fun hf => by rw [ha] at hf; cases hf)
    rw [ha, if_pos rfl] at hmod
    have hne : HalfRegs.arrMod i.decBook w ≠ 0 := by
      rw [Ne, hzero, hmod]
      omega
    refine ⟨?_, fun _ => hne⟩
    rw [if_neg hne, hscan]
    simp only [entry, hmod, orderMsg]
  | false =>
    rw [ha, if_neg Bool.false_ne_true] at hscan
    have hsub : i.decBook.shares.toNat ≤ w.shares.toNat := by
      by_contra hlt
      rw [if_pos (by simp only [entry, orderMsg]; omega)] at hscan
      rw [hscan] at hp
      exact hnr _ (congrArg Prod.fst hp)
    have hmod := arrMod_toNat (d := i.decBook) (w := w) (fun hf => by rw [ha] at hf; cases hf)
      (fun _ => hsub)
    rw [ha, if_neg Bool.false_ne_true] at hmod
    refine ⟨?_, fun hf => by cases hf⟩
    rw [hscan, if_neg (by simp only [entry, orderMsg]; omega)]
    by_cases hz : HalfRegs.arrMod i.decBook w = 0
    · rw [if_pos hz, if_pos]
      rw [hzero, hmod] at hz
      exact hz
    · rw [if_neg hz, if_neg (by rw [hzero, hmod] at hz; exact hz)]
      simp only [entry, hmod, orderMsg]

/-- A change of the shares in slot 0. -/
theorem modify0 (hh : Holds isBuy q h) (hupd : q.updting = false) (hi : Message i)
    (hnr : ∀ e, (h.processMsg cfg (orderMsg i.decBook)).1 ≠ .raise e)
    (hfit : NoWrap (h.processMsg cfg (orderMsg i.decBook)).2)
    (hside : (orderMsg i.decBook).isBuy = h.isBuy)
    (h0 : HalfRegs.below isBuy i.decBook q.arr0 = false) (hprice : q.arr0.price = i.decBook.price)
    (hz : HalfRegs.arrMod i.decBook q.arr0 ≠ 0) : Agrees cfg isBuy q h i := by
  obtain ⟨hinit, hv, hu, hpos⟩ := id hi
  have hv0 := valid_of_not_below h0
  have hes := hh.entries_slot0 hv0
  obtain ⟨hscan, -⟩ := scan_equal hnr hfit hside hpos hes (by rw [hes]; rfl) hprice
  have hp := processMsg_eq cfg hside
  rw [hscan, if_neg hz] at hp
  have hc0 : q.arrChng0 isBuy i.decBook = (.modify, ⟨false, false, true, false⟩) := by
    rw [HalfRegs.arrChng0, HalfRegs.arrChng, if_neg (by simp [h0]), if_pos hprice, if_neg hz]
  have hc1 : q.arrChng1 isBuy i.decBook = (.hold, ⟨false, false, true, false⟩) := by
    simp [HalfRegs.arrChng1, hc0]
  refine agrees_of_not_del hh hupd hi (by rw [hc1]) hp ?_
  refine ⟨hh.isBuy, hh.ideal, ?_, ?_, ?_, ?_, ?_, ?_, ?_, ?_⟩
  all_goals simp only [HalfRegs.next, HalfRegs.onMsg, HalfRegs.onUpdt, hc0, hc1, HalfRegs.counters,
    HalfRegs.arrNext0, HalfRegs.arrNext1, hinit, hv, hu, if_true, if_false, Bool.false_eq_true,
    Bool.false_or]
  · exact hh.initialized
  · exact hh.priceBound
  · simp [hes, entries, hv0]
  · exact hh.slots
  · intro hf
    rw [hv0] at hf
    cases hf
  · exact hh.empty1
  · exact hh.outsideShares
  · exact hh.outsideSharesInRange

/-- A change of the shares in slot 1. -/
theorem modify1 (hh : Holds isBuy q h) (hupd : q.updting = false) (hi : Message i)
    (hnr : ∀ e, (h.processMsg cfg (orderMsg i.decBook)).1 ≠ .raise e)
    (hfit : NoWrap (h.processMsg cfg (orderMsg i.decBook)).2)
    (hside : (orderMsg i.decBook).isBuy = h.isBuy) (hpass : Passes isBuy q i.decBook)
    (h1 : HalfRegs.below isBuy i.decBook q.arr1 = false) (hprice : q.arr1.price = i.decBook.price)
    (hz : HalfRegs.arrMod i.decBook q.arr1 ≠ 0) : Agrees cfg isBuy q h i := by
  obtain ⟨hinit, hv, hu, hpos⟩ := id hi
  have hv1 := valid_of_not_below h1
  have hes := hpass.entries_slot1 hh hv1
  obtain ⟨hscan, -⟩ := scan_equal hnr hfit hside hpos hes
    (by rw [hes, hh.isBuy]; exact hpass.scan _) hprice
  have hp := processMsg_eq cfg hside
  rw [hscan, if_neg hz] at hp
  have hc1 : q.arrChng1 isBuy i.decBook = (.modify, ⟨false, false, true, false⟩) := by
    rw [hpass.arrChng1, HalfRegs.arrChng, if_neg (by simp [h1]), if_pos hprice, if_neg hz]
  refine agrees_of_not_del hh hupd hi (by rw [hc1]) hp ?_
  refine ⟨hh.isBuy, hh.ideal, ?_, ?_, ?_, ?_, ?_, ?_, ?_, ?_⟩
  all_goals simp only [HalfRegs.next, HalfRegs.onMsg, HalfRegs.onUpdt, hpass.arrChng0, hc1,
    HalfRegs.counters, HalfRegs.arrNext0, HalfRegs.arrNext1, hinit, hv, hu, if_true, if_false,
    Bool.false_eq_true, Bool.false_or]
  · exact hh.initialized
  · exact hh.priceBound
  · simp [hes, entries, hv1, hpass.valid]
  · exact hh.slots
  · exact hh.empty0
  · intro hf
    rw [hv1] at hf
    cases hf
  · exact hh.outsideShares
  · exact hh.outsideSharesInRange

/-- A depletion, which leaves at most one entry; both sides test the residual counters. -/
theorem agrees_of_del {k : ℕ} {a0 a1 : BboWord} (hd : cfg.bboDepth = 2)
    (hc : Corresponds isBuy q h) (hi : Message i)
    (hnr : ∀ e, (h.processMsg cfg (orderMsg i.decBook)).1 ≠ .raise e)
    (hp : h.processMsg cfg (orderMsg i.decBook) = h.deplete cfg k)
    (hflags : (q.arrChng1 isBuy i.decBook).2 = ⟨false, true, false, false⟩)
    (ha0 : HalfRegs.arrNext0 q { q with updtReq := false } i.decBook
      (q.arrChng0 isBuy i.decBook).1 = a0)
    (ha1 : HalfRegs.arrNext1 q { q with updtReq := false } i.decBook
      (q.arrChng1 isBuy i.decBook).1 = a1)
    (he : h.entries.eraseIdx k = if a0.valid then [entry a0] else [])
    (h0 : a0.valid = false → a0.shares = 0) (h1 : a1.valid = false) (h1' : a1.shares = 0) :
    Agrees cfg isBuy q h i := by
  have ht := hc.toTracks
  have hh := ht.toHolds
  obtain ⟨hinit, hv, hu, -⟩ := hi
  have hnext : HalfRegs.next isBuy q i = { q with
      arr0 := a0
      arr1 := a1
      updtReq := q.updtAbleAll && q.updtAbleInRange
      updting := q.updtAbleAll && q.updtAbleInRange
      updtAbleAll := decide (q.outSizeAll > 0)
      updtAbleInRange := decide (q.outSizeInRange > 0) } := by
    simp [HalfRegs.next, HalfRegs.onMsg, HalfRegs.onUpdt, hu, hv, hinit, hflags, ha0, ha1,
      HalfRegs.counters]
  have herr : (HalfRegs.out isBuy q i).error = (q.updtAbleAll && !q.updtAbleInRange) := by
    simp [HalfRegs.out, HalfRegs.errorState, HalfRegs.errorInit, HalfRegs.errorUpdt, hv,
      ht.updting, hh.initialized, hflags]
  have hdep : (h.processMsg cfg (orderMsg i.decBook)).2 =
      { h with entries := if a0.valid then [entry a0] else [] } := by
    rw [hp, ← he]
    unfold BBOHalf.deplete
    dsimp only
    split_ifs <;> first | rfl | (split <;> rfl)
  have hout : (0 < h.outsideSharesInRange → ∃ r,
        (h.processMsg cfg (orderMsg i.decBook)).1 = .ret r ∧ r.updtReq = true) ∧
      (¬ 0 < h.outsideSharesInRange → 0 < h.outsideShares →
        (h.processMsg cfg (orderMsg i.decBook)).1.IsErr) ∧
      (¬ 0 < h.outsideSharesInRange → ¬ 0 < h.outsideShares → ∃ r,
        (h.processMsg cfg (orderMsg i.decBook)).1 = .ret r ∧ r.updtReq = false) := by
    rw [hp] at hnr ⊢
    simp only [BBOHalf.deplete, he, hd] at hnr ⊢
    refine ⟨fun hr => ?_, fun hr hs => ?_, fun hr hs => ?_⟩
    · rw [if_pos hr] at hnr ⊢
      cases hva : a0.valid with
      | false =>
        rw [hva] at hnr
        exact absurd rfl (hnr _)
      | true => exact ⟨_, rfl, rfl⟩
    · rw [if_neg hr, if_pos hs]
      exact Outcome.isErr_err _
    · rw [if_neg hr, if_neg hs]
      exact ⟨_, rfl, updtReq_result_false _ _⟩
  have hle := hc.le
  constructor
  · rw [herr, ht.updtAbleAll, ht.updtAbleInRange]
    by_cases hr : 0 < h.outsideSharesInRange
    · obtain ⟨r, hr', -⟩ := hout.1 hr
      simp [hr', hr]
    · by_cases hs : 0 < h.outsideShares
      · simp [hr, hs, hout.2.1 hr hs]
      · obtain ⟨r, hr', -⟩ := hout.2.2 hr hs
        simp [hr', hs]
  · rw [hnext, ht.updtAbleAll, ht.updtAbleInRange]
    by_cases hr : 0 < h.outsideSharesInRange
    · have hs : 0 < h.outsideShares := lt_of_lt_of_le hr hle
      simpa [hr, hs] using hout.1 hr
    · by_cases hs : 0 < h.outsideShares
      · obtain ⟨c, hcode⟩ := hout.2.1 hr hs
        simp [hr, hcode]
      · obtain ⟨r, hr', hreq⟩ := hout.2.2 hr hs
        simp [hr, hr', hreq]
  · rw [hnext]
  · rw [hdep, hnext]
    refine ⟨hh.isBuy, hh.ideal, hh.initialized, hh.priceBound, ?_, ?_, h0, fun _ => h1',
      hh.outsideShares, hh.outsideSharesInRange⟩
    · simp [entries, h1]
    · intro hf
      rw [h1] at hf
      cases hf

/-- **One message.** Both sides handle a message alike; for a message that adds no shares, from
corresponding states. -/
theorem message_agrees (hd : cfg.bboDepth = 2) (hh : Holds isBuy q h) (hupd : q.updting = false)
    (hc : i.decBook.isAdd = false → Corresponds isBuy q h) (hi : Message i)
    (hnr : ∀ e, (h.processMsg cfg (orderMsg i.decBook)).1 ≠ .raise e)
    (hrec : Recorded cfg h (orderMsg i.decBook))
    (hfit : NoWrap (h.processMsg cfg (orderMsg i.decBook)).2) : Agrees cfg isBuy q h i := by
  have hpos := hi.2.2.2
  have hside : (orderMsg i.decBook).isBuy = h.isBuy := by
    by_contra hne
    have hp : (h.processMsg cfg (orderMsg i.decBook)).1 = _ := congrArg Prod.fst (if_pos hne)
    exact hnr _ hp
  have hred : ∀ {w : BboWord}, (i.decBook.isAdd = true → HalfRegs.arrMod i.decBook w ≠ 0) →
      HalfRegs.arrMod i.decBook w = 0 → i.decBook.isAdd = false := by
    intro w hadd hz
    by_contra ha
    exact hadd (by simpa using ha) hz
  cases h0 : HalfRegs.below isBuy i.decBook q.arr0 with
  | true => exact insert0 hd hh hupd hi hnr hfit hside h0
  | false =>
    by_cases hprice : q.arr0.price = i.decBook.price
    · by_cases hz : HalfRegs.arrMod i.decBook q.arr0 = 0
      · -- slot 0 is depleted and slot 1 moves up
        have hes := hh.entries_slot0 (valid_of_not_below h0)
        obtain ⟨hscan, hadd⟩ := scan_equal hnr hfit hside hpos hes (by rw [hes]; rfl) hprice
        have hp := processMsg_eq cfg hside
        rw [hscan, if_pos hz] at hp
        have hc0 : q.arrChng0 isBuy i.decBook = (.bottom, ⟨false, true, false, false⟩) := by
          rw [HalfRegs.arrChng0, HalfRegs.arrChng, if_neg (by simp [h0]), if_pos hprice, if_pos hz]
        have hc1 : q.arrChng1 isBuy i.decBook = (.bottom, ⟨false, true, false, false⟩) := by
          simp [HalfRegs.arrChng1, hc0]
        exact agrees_of_del hd (hc (hred hadd hz)) hi hnr hp (by rw [hc1]) (by rw [hc0]; rfl) (by rw [hc1])
          (by rw [hes]; rfl) hh.empty1 rfl rfl
      · exact modify0 hh hupd hi hnr hfit hside h0 hprice hz
    · have hpass : Passes isBuy q i.decBook := ⟨h0, hprice⟩
      cases h1 : HalfRegs.below isBuy i.decBook q.arr1 with
      | true => exact insert1 hd hh hupd hi hnr hfit hside hpass h1
      | false =>
        by_cases hprice' : q.arr1.price = i.decBook.price
        · by_cases hz : HalfRegs.arrMod i.decBook q.arr1 = 0
          · -- slot 1 is depleted
            have hes := hpass.entries_slot1 hh (valid_of_not_below h1)
            obtain ⟨hscan, hadd⟩ := scan_equal hnr hfit hside hpos hes
              (by rw [hes, hh.isBuy]; exact hpass.scan _) hprice'
            have hp := processMsg_eq cfg hside
            rw [hscan, if_pos hz] at hp
            have hc1 : q.arrChng1 isBuy i.decBook = (.bottom, ⟨false, true, false, false⟩) := by
              rw [hpass.arrChng1, HalfRegs.arrChng, if_neg (by simp [h1]), if_pos hprice',
                if_pos hz]
            exact agrees_of_del hd (hc (hred hadd hz)) hi hnr hp (by rw [hc1]) (by rw [hpass.arrChng0]; rfl)
              (by rw [hc1]) (by rw [hes, hpass.valid]; rfl) hh.empty0 rfl rfl
          · exact modify1 hh hupd hi hnr hfit hside hpass h1 hprice' hz
        · exact outside1 hd hh hupd hi hrec hfit hside hpass h1 hprice'

end Step

end ItchOrderBook.Pipeline
