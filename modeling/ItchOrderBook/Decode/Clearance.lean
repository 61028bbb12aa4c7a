import ItchOrderBook.Decode.Timing

/-!
# Control messages behind an order

How many cycles it takes at least until a control message can be valid that is not on its way yet,
up to three (`ctrlAhead`). It takes three after the word that sends an order, for the shortest
control message has fourteen bytes and is sent with its last word. So no control message is valid in
the two cycles behind an order, and for a delete, which is valid one cycle later, in the one cycle
behind it (`Clearance`).
-/

namespace ItchOrderBook.Decode

open Rtl (DecBook ItchIn ItchRegs IpState itchParser)

/-- The cycles until a control message that is not on its way can be valid, at least. -/
def ctrlAheadOf (b : ℕ) : IpState → ℕ
  | .sysEvent => sendIn 0 1 b
  | .directory => sendIn 20 1 b
  | .tradingAction => sendIn 4 1 b
  | .opHalt => sendIn 0 1 b
  | _ => 3

/-- The cycles until a control message that is not on its way can be valid, at least, up to
three. -/
def ctrlAhead (q : ItchRegs) : ℕ := min 3 (ctrlAheadOf q.bytesLeft.toNat q.state)

section Step

variable {q : ItchRegs} {i : ItchIn}

theorem ctrlAheadOf_zero (st : IpState) : min 3 (ctrlAheadOf 0 st) = 3 := by
  cases st <;> simp [ctrlAheadOf, sendIn]

/-- The cycles ahead after a word inside a message. -/
theorem ctrlAhead_next (hi : i.ipDataV = true) (hs : q.state ≠ .idle) :
    ctrlAhead (q.next i) = if q.bytesLeft.toNat < 5 ∨ i.ipDataTlast = true then 3
      else min 3 (ctrlAheadOf (q.bytesLeft.toNat - 4) q.state) :=
  next_of_word (fun _ b st => min 3 (ctrlAheadOf b st)) 3 (fun _ _ => rfl)
    (fun _ => ctrlAheadOf_zero) hi hs

/-- Without a word nothing comes closer. -/
theorem ctrlAhead_idle (hi : i.ipDataV = false) : ctrlAhead (q.next i) = ctrlAhead q := by
  change min 3 (ctrlAheadOf (q.comb i).bytesLeft.toNat (q.comb i).state) = _
  rw [comb_idle hi]
  rfl

theorem ctrlAhead_start {b : BitVec 8} {len : BitVec 16} {alt : Bool} {st : IpState}
    (h : ItchRegs.idleTable b = some (len, alt, st)) {r : ℕ} (hr : r < 4) :
    2 ≤ ctrlAheadOf (startLeft len.toNat r) st := by
  rw [ItchRegs.idleTable] at h
  split at h <;> cases h <;> interval_cases r <;> decide

theorem ctrlSendIn_down (lo b : ℕ) : min 3 (sendIn lo 1 b) ≤ min 3 (sendIn lo 1 (b - 4)) + 1 := by
  unfold sendIn
  split_ifs <;> omega

/-- **A cycle takes the cycles ahead down by one at most.** -/
theorem ctrlAhead_down (hok : LengthOk q i) : ctrlAhead q ≤ ctrlAhead (q.next i) + 1 := by
  cases hi : i.ipDataV with
  | false =>
    rw [ctrlAhead_idle hi]
    omega
  | true =>
    by_cases hs : q.state = .idle
    · obtain ⟨b, len, alt, st, r, htable, hr, -, hb, hst⟩ := next_of_start hi hs hok
      have hstart := ctrlAhead_start htable hr
      rw [ctrlAhead, ctrlAhead, hb, hst]
      omega
    · rw [ctrlAhead_next hi hs, ctrlAhead]
      split_ifs with h
      · omega
      · cases q.state
        case sysEvent => exact ctrlSendIn_down _ _
        case directory => exact ctrlSendIn_down _ _
        case tradingAction => exact ctrlSendIn_down _ _
        case opHalt => exact ctrlSendIn_down _ _
        all_goals simp [ctrlAheadOf]

/-- A state whose window is the `lo` to `lo + 4` bytes before the end. -/
theorem ctrlAhead_of_window (lo : ℕ) {st : IpState} (hs : q.state = st)
    (hof : ctrlAheadOf q.bytesLeft.toNat st = sendIn lo 1 q.bytesLeft.toNat)
    (h : lo < q.bytesLeft.toNat) (h' : q.bytesLeft.toNat ≤ lo + 4) : ctrlAhead q = 1 := by
  rw [ctrlAhead, hs, hof, sendIn_of_window h h']
  rfl

/-- **A control message is sent where the cycles ahead have run out.** -/
theorem ctrlAhead_of_ctrl (h : (q.comb i).decCtrl.valid = true) : ctrlAhead q = 1 := by
  cases hi : i.ipDataV
  · rw [comb_idle hi] at h
    cases h
  simp only [ItchRegs.comb, hi, if_true] at h
  cases hs : q.state <;> simp only [hs] at h
  case idle =>
    rw [ItchRegs.onIdle] at h
    dsimp only at h
    split at h <;> cases h
  case sysEvent =>
    simp only [ItchRegs.onSysEvent] at h
    split_ifs at h with hb
    · exact ctrlAhead_of_window 0 hs rfl (by bv_omega) (by bv_omega)
    · cases h
  case directory =>
    simp only [ItchRegs.onDirectory] at h
    split_ifs at h with hb
    · exact ctrlAhead_of_window 20 hs rfl (by bv_omega) (by bv_omega)
    · cases h
  case tradingAction =>
    simp only [ItchRegs.onTradingAction] at h
    split_ifs at h with hb
    · exact ctrlAhead_of_window 4 hs rfl (by bv_omega) (by bv_omega)
    · cases h
  case opHalt =>
    simp only [ItchRegs.onOpHalt] at h
    split_ifs at h with hb
    · exact ctrlAhead_of_window 0 hs rfl (by bv_omega) (by bv_omega)
    · cases h
  case add =>
    simp only [ItchRegs.onAdd] at h
    split_ifs at h <;> cases h
  case execute =>
    simp only [ItchRegs.onExecute] at h
    split_ifs at h <;> cases h
  case executeP =>
    simp only [ItchRegs.onExecuteP] at h
    split_ifs at h <;> cases h
  case delete =>
    simp only [ItchRegs.onDelete] at h
    split_ifs at h <;> cases h
  case replace =>
    simp only [ItchRegs.onReplace] at h
    split_ifs at h <;> cases h
  case ignore => cases h

/-- The states that send orders. -/
def Orders (st : IpState) : Prop :=
  st = .add ∨ st = .execute ∨ st = .executeP ∨ st = .delete ∨ st = .replace

theorem orders_of_book (h : (q.comb i).decBook.valid = true ∨ (q.comb i).decBookDel.valid = true) :
    i.ipDataV = true ∧ Orders q.state := by
  cases hi : i.ipDataV
  · rw [comb_idle hi] at h
    rcases h with h | h <;> cases h
  refine ⟨rfl, ?_⟩
  by_contra hno
  simp only [Orders, not_or] at hno
  obtain ⟨ha, he, hp, hd, hr⟩ := hno
  rcases h with h | h
  · simp only [ItchRegs.comb, hi, if_true] at h
    cases hs : q.state <;> simp only [hs] at h ha he hp hd hr
    case idle =>
      rw [ItchRegs.onIdle] at h
      dsimp only at h
      split at h <;> cases h
    case sysEvent =>
      simp only [ItchRegs.onSysEvent] at h
      split_ifs at h <;> cases h
    case directory =>
      simp only [ItchRegs.onDirectory] at h
      split_ifs at h <;> cases h
    case tradingAction =>
      simp only [ItchRegs.onTradingAction] at h
      split_ifs at h <;> cases h
    case opHalt =>
      simp only [ItchRegs.onOpHalt] at h
      split_ifs at h <;> cases h
    case ignore => cases h
    all_goals contradiction
  · rw [comb_decBookDel hd hr] at h
    cases h

/-- After the word that sends an order, a control message is far. -/
theorem ctrlAhead_of_order
    (h : (q.comb i).decBook.valid = true ∨ (q.comb i).decBookDel.valid = true) :
    ctrlAhead (q.next i) = 3 := by
  obtain ⟨hi, hs⟩ := orders_of_book h
  have hne : q.state ≠ .idle := by
    intro hidle
    rw [hidle] at hs
    rcases hs with h | h | h | h | h <;> cases h
  rw [ctrlAhead_next hi hne]
  split_ifs
  · rfl
  · rcases hs with h | h | h | h | h <;> rw [h] <;> rfl

/-- Control messages keep clear of the orders before them. -/
structure Clearance (q : ItchRegs) : Prop where
  del : q.decBookDel.valid = true → ctrlAhead q = 3
  book : q.decBook.valid = true → 2 ≤ ctrlAhead q ∧ (q.decBook.msgType ≠ .delete → ctrlAhead q = 3)

/-- **They stay clear.** -/
theorem Clearance.next (hc : Clearance q) (hq : Spaced q) (hok : LengthOk q i) :
    Clearance (q.next i) := by
  refine ⟨fun hdel => ctrlAhead_of_order (Or.inr hdel), fun hbook => ?_⟩
  rw [next_decBook] at hbook ⊢
  cases hdel : q.decBookDel.valid with
  | true =>
    -- the delete in the extra stage moves on
    have hdown := ctrlAhead_down hok
    have h3 := hc.del hdel
    rw [if_pos rfl]
    exact ⟨by omega, fun hne => absurd (hq.del hdel).2.1 hne⟩
  | false =>
    rw [hdel, if_neg Bool.false_ne_true] at hbook
    have h3 := ctrlAhead_of_order (Or.inl hbook)
    exact ⟨by omega, fun _ => h3⟩

end Step

end ItchOrderBook.Decode
