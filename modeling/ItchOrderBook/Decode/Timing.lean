import ItchOrderBook.Decode.Verdict

/-!
# Timing of the order outputs

How many cycles it takes at least until an order can be valid that is not on its way yet is told by
the state, the bytes left and the form of the message being read (`ahead`). A cycle takes it down by
one at most, an order is sent where it has run out, and has it start again far enough away
(`Step`). Only the lengths of the messages matter for this, not the codes or the stock locate.

From it follow the distances of the valid orders, and that the hash shown in the two cycles before an
order is valid is that of its id (`timing`): the table behind the parser has that much time.
-/

namespace ItchOrderBook.Decode

open Ref (Byte)
open Rtl (DecBook ItchIn ItchOut ItchRegs IpState itchParser)

/-! ### The cycles ahead -/

/-- The cycles until an order that is sent in the window behind `lo` can be valid, with `b` bytes of
the message left; it is `stages` cycles on its way. -/
def sendIn (lo stages b : ℕ) : ℕ := if lo < b then (b - lo - 1) / 4 + stages else 6

/-- The cycles until an order that is not on its way can be valid, at least. -/
def aheadOf (alt : Bool) (b : ℕ) : IpState → ℕ
  | .add => sendIn (if alt then 4 else 0) 1 b
  | .execute => sendIn (if alt then 0 else 8) 1 b
  | .executeP => sendIn 12 1 b
  | .delete => sendIn 0 2 b
  | .replace => if 16 < b then sendIn 16 2 b else sendIn 0 1 b
  | _ => 6

/-- The cycles until an order that is not on its way can be valid, at least, up to six. -/
def ahead (q : ItchRegs) : ℕ := min 6 (aheadOf q.msgAlt q.bytesLeft.toNat q.state)

/-- The delete of a replace message has been sent, and the replace is still to come. -/
structure Halfway (q : ItchRegs) : Prop where
  state : q.state = .replace
  pos : 0 < q.bytesLeft.toNat
  le : q.bytesLeft.toNat ≤ 16

/-- The type of a message is in the table, and its length is the one there. -/
def LengthOk (q : ItchRegs) (i : ItchIn) : Prop :=
  (q.comb i).errorMsgType = false ∧ (q.comb i).errorMsgLen = false

/-- What a cycle does to the cycles ahead. -/
structure Step (q : ItchRegs) (i : ItchIn) : Prop where
  down : ahead q ≤ ahead (q.next i) + 1
  book : (q.comb i).decBook.valid = true → ahead q = 1 ∧ ahead (q.next i) = 6
  del : (q.comb i).decBookDel.valid = true → ahead q = 2 ∧
    (ahead (q.next i) = 6 ∨ q.state = .replace ∧ Halfway (q.next i) ∧ 4 ≤ ahead (q.next i))
  halfway : Halfway q → (q.comb i).decBook.valid = false →
    (q.comb i).decBookDel.valid = false ∧ (Halfway (q.next i) ∨ ahead (q.next i) = 6)

section Step

variable {q : ItchRegs} {i : ItchIn}

theorem sendIn_of_window {lo stages b : ℕ} (h : lo < b) (h' : b ≤ lo + 4) :
    sendIn lo stages b = stages := by
  rw [sendIn, if_pos h, Nat.div_eq_of_lt (by omega), Nat.zero_add]

theorem sendIn_of_le {lo stages b : ℕ} (h : b ≤ lo) : sendIn lo stages b = 6 :=
  if_neg (not_lt.2 h)

/-- The registers after a word inside a message, as any function `f` sees them that has the one value
`z` between messages and where no byte is left. -/
theorem next_of_word {α : Type} (f : Bool → ℕ → IpState → α) (z : α)
    (hidle : ∀ alt b, f alt b .idle = z) (hzero : ∀ alt st, f alt 0 st = z)
    (hi : i.ipDataV = true) (hs : q.state ≠ .idle) :
    f (q.next i).msgAlt (q.next i).bytesLeft.toNat (q.next i).state =
      if q.bytesLeft.toNat < 5 ∨ i.ipDataTlast = true then z
      else f q.msgAlt (q.bytesLeft.toNat - 4) q.state := by
  obtain ⟨-, hb, ha, hst⟩ := comb_frame hi hs
  change f (q.comb i).msgAlt (q.comb i).bytesLeft.toNat (q.comb i).state = _
  rw [hb, ha, hst]
  have hlt : q.bytesLeft < 5 ↔ q.bytesLeft.toNat < 5 := BitVec.lt_def
  by_cases h5 : q.bytesLeft.toNat < 5
  · rw [if_pos (hlt.2 h5), if_pos (Or.inl h5)]
    exact hidle _ _
  · rw [if_neg (mt hlt.1 h5)]
    cases ht : i.ipDataTlast with
    | true =>
      rw [if_pos rfl, if_pos (Or.inr rfl)]
      exact hzero _ _
    | false =>
      rw [if_neg Bool.false_ne_true, if_neg (by simp [h5])]
      have h4 : (4 : BitVec 8).toNat = 4 := rfl
      have hsub : (q.bytesLeft - 4).toNat = q.bytesLeft.toNat - 4 := by
        rw [BitVec.toNat_sub, h4]
        have := q.bytesLeft.isLt
        omega
      rw [hsub]

theorem aheadOf_zero (alt : Bool) (st : IpState) : min 6 (aheadOf alt 0 st) = 6 := by
  cases st <;> simp [aheadOf, sendIn]

/-- The cycles ahead after a word inside a message. -/
theorem ahead_next (hi : i.ipDataV = true) (hs : q.state ≠ .idle) :
    ahead (q.next i) = if q.bytesLeft.toNat < 5 ∨ i.ipDataTlast = true then 6
      else min 6 (aheadOf q.msgAlt (q.bytesLeft.toNat - 4) q.state) :=
  next_of_word (fun alt b st => min 6 (aheadOf alt b st)) 6 (fun _ _ => rfl) aheadOf_zero hi hs

theorem sendIn_down (lo stages b : ℕ) (hs : stages ≤ 7) :
    min 6 (sendIn lo stages b) ≤ min 6 (sendIn lo stages (b - 4)) + 1 := by
  unfold sendIn
  split_ifs <;> omega

/-- A word takes the cycles ahead down by one at most. -/
theorem down_of_word (hi : i.ipDataV = true) (hs : q.state ≠ .idle) :
    ahead q ≤ ahead (q.next i) + 1 := by
  rw [ahead_next hi hs, ahead]
  split_ifs with h
  · omega
  · cases q.state
    case add => exact sendIn_down _ _ _ (by omega)
    case execute => exact sendIn_down _ _ _ (by omega)
    case executeP => exact sendIn_down _ _ _ (by omega)
    case delete => exact sendIn_down _ _ _ (by omega)
    case replace =>
      simp only [aheadOf, sendIn]
      split_ifs <;> omega
    all_goals simp [aheadOf]

/-- The cycles ahead where a word sends an order. -/
theorem step_of_send (lo stages : ℕ) {alt : Bool} {st : IpState} (hi : i.ipDataV = true)
    (hs : q.state = st) (hst : st ≠ .idle) (ha : q.msgAlt = alt) (h : lo < q.bytesLeft.toNat)
    (h' : q.bytesLeft.toNat ≤ lo + 4)
    (hof : ∀ b, b ≤ lo + 4 → aheadOf alt b st = sendIn lo stages b) (hstages : stages ≤ 6) :
    ahead q = stages ∧ ahead (q.next i) = 6 := by
  constructor
  · rw [ahead, hs, ha, hof _ h', sendIn_of_window h h']
    omega
  · rw [ahead_next hi (by rw [hs]; exact hst), hs, ha]
    split_ifs
    · rfl
    · rw [hof _ (by omega), sendIn_of_le (by omega)]
      rfl

/-- A case that does not use the extra stage. -/
theorem step_of_book (hi : i.ipDataV = true) (h : q.state ≠ .idle) (hd : q.state ≠ .delete)
    (hr : q.state ≠ .replace)
    (hbook : (q.comb i).decBook.valid = true → ahead q = 1 ∧ ahead (q.next i) = 6) : Step q i where
  down := down_of_word hi h
  book := hbook
  del hdel := by
    rw [comb_decBookDel hd hr] at hdel
    cases hdel
  halfway hh := absurd hh.state hr

theorem step_add (hi : i.ipDataV = true) (hs : q.state = .add) : Step q i := by
  apply step_of_book hi (by rw [hs]; decide) (by rw [hs]; decide) (by rw [hs]; decide)
  intro h
  simp only [ItchRegs.comb, hi, if_true, hs, ItchRegs.onAdd] at h
  split_ifs at h with h1 h2
  · cases h
  · obtain ⟨ha, hb⟩ | ⟨ha, hb⟩ : (q.msgAlt = true ∧ q.bytesLeft < 0x9 ∧ q.bytesLeft > 0x4) ∨
        (q.msgAlt = false ∧ q.bytesLeft < 0x5 ∧ q.bytesLeft > 0x0) := by
      rcases h2 with ⟨hb, hb', ha⟩ | ⟨hb, hb', ha⟩
      · exact Or.inl ⟨ha, hb, hb'⟩
      · exact Or.inr ⟨by simpa using ha, hb, hb'⟩
    · exact step_of_send 4 1 hi hs (by decide) ha (by bv_omega) (by bv_omega)
        (fun _ _ => rfl) (by decide)
    · exact step_of_send 0 1 hi hs (by decide) ha (by bv_omega) (by bv_omega) (fun _ _ => rfl)
        (by decide)
  · cases h

theorem step_execute (hi : i.ipDataV = true) (hs : q.state = .execute) : Step q i := by
  apply step_of_book hi (by rw [hs]; decide) (by rw [hs]; decide) (by rw [hs]; decide)
  intro h
  simp only [ItchRegs.comb, hi, if_true, hs, ItchRegs.onExecute] at h
  split_ifs at h with h1 h2
  · cases h
  · obtain ⟨ha, hb⟩ | ⟨ha, hb⟩ : (q.msgAlt = true ∧ q.bytesLeft < 0x5 ∧ q.bytesLeft > 0x0) ∨
        (q.msgAlt = false ∧ q.bytesLeft < 0xD ∧ q.bytesLeft > 0x8) := by
      rcases h2 with ⟨hb, hb', ha⟩ | ⟨hb, hb', ha⟩
      · exact Or.inl ⟨ha, hb, hb'⟩
      · exact Or.inr ⟨by simpa using ha, hb, hb'⟩
    · exact step_of_send 0 1 hi hs (by decide) ha (by bv_omega) (by bv_omega) (fun _ _ => rfl)
        (by decide)
    · exact step_of_send 8 1 hi hs (by decide) ha (by bv_omega) (by bv_omega) (fun _ _ => rfl)
        (by decide)
  · cases h

theorem step_executeP (hi : i.ipDataV = true) (hs : q.state = .executeP) : Step q i := by
  apply step_of_book hi (by rw [hs]; decide) (by rw [hs]; decide) (by rw [hs]; decide)
  intro h
  simp only [ItchRegs.comb, hi, if_true, hs, ItchRegs.onExecuteP] at h
  split_ifs at h with h1 h2
  · cases h
  · exact step_of_send 12 1 hi hs (by decide) rfl (by bv_omega) (by bv_omega) (fun _ _ => rfl)
      (by decide)
  · cases h

theorem step_delete (hi : i.ipDataV = true) (hs : q.state = .delete) : Step q i where
  down := down_of_word hi (by rw [hs]; decide)
  book h := by
    simp only [ItchRegs.comb, hi, if_true, hs, ItchRegs.onDelete] at h
    split_ifs at h <;> cases h
  del h := by
    simp only [ItchRegs.comb, hi, if_true, hs, ItchRegs.onDelete] at h
    split_ifs at h with h1 h2
    · cases h
    · obtain ⟨h1, h2⟩ := step_of_send 0 2 hi hs (by decide) rfl (by bv_omega)
        (by bv_omega) (fun _ _ => rfl) (by decide)
      exact ⟨h1, Or.inl h2⟩
    · cases h
  halfway hh := absurd (hs.symm.trans hh.state) (by decide)

/-- A word in the second half of a replace message, or the one before. -/
theorem halfway_next (hi : i.ipDataV = true) (hs : q.state = .replace)
    (hb : q.bytesLeft.toNat ≤ 20) : Halfway (q.next i) ∨ ahead (q.next i) = 6 := by
  have hne : q.state ≠ .idle := by rw [hs]; decide
  obtain ⟨-, hleft, -, hst⟩ := comb_frame hi hne
  by_cases h5 : q.bytesLeft.toNat < 5
  · right
    rw [ahead_next hi hne, if_pos (Or.inl h5)]
  · cases ht : i.ipDataTlast with
    | true =>
      right
      rw [ahead_next hi hne, if_pos (Or.inr ht)]
    | false =>
      left
      have h4 : (4 : BitVec 8).toNat = 4 := rfl
      have hsub : (q.next i).bytesLeft.toNat = q.bytesLeft.toNat - 4 := by
        change (q.comb i).bytesLeft.toNat = _
        rw [hleft, ht, if_neg Bool.false_ne_true, BitVec.toNat_sub, h4]
        have := q.bytesLeft.isLt
        omega
      have hlt : ¬ q.bytesLeft < 5 := by
        rw [BitVec.lt_def]
        exact h5
      refine ⟨?_, by omega, by omega⟩
      change (q.comb i).state = _
      rw [hst, if_neg hlt, hs]

theorem step_replace (hi : i.ipDataV = true) (hs : q.state = .replace) : Step q i where
  down := down_of_word hi (by rw [hs]; decide)
  book h := by
    simp only [ItchRegs.comb, hi, if_true, hs, ItchRegs.onReplace] at h
    split_ifs at h with h1 h2 h3 h4
    · cases h
    · cases h
    · cases h
    · exact step_of_send 0 1 hi hs (by decide) rfl (by bv_omega) (by bv_omega)
        (fun b hb => if_neg (by omega)) (by decide)
    · cases h
  del h := by
    simp only [ItchRegs.comb, hi, if_true, hs, ItchRegs.onReplace] at h
    split_ifs at h with h1 h2 h3 h4
    · cases h
    · -- the delete half: the replace half comes four words later
      have hlo : 16 < q.bytesLeft.toNat := by bv_omega
      have hhi : q.bytesLeft.toNat ≤ 20 := by bv_omega
      constructor
      · rw [ahead, hs, aheadOf, if_pos hlo, sendIn_of_window hlo hhi]
        rfl
      · rw [ahead_next hi (by rw [hs]; decide), hs]
        split_ifs with hlast
        · exact Or.inl rfl
        · rw [aheadOf, if_neg (by omega), sendIn, if_pos (by omega)]
          rcases halfway_next hi hs hhi with hh | h6
          · exact Or.inr ⟨rfl, hh, by omega⟩
          · rw [ahead_next hi (by rw [hs]; decide), if_neg hlast, hs, aheadOf, if_neg (by omega),
              sendIn, if_pos (by omega)] at h6
            exact Or.inl h6
    · cases h
    · cases h
    · cases h
  halfway hh _ := by
    have hle := hh.le
    refine ⟨?_, halfway_next hi hs (by omega)⟩
    simp only [ItchRegs.comb, hi, if_true, hs, ItchRegs.onReplace]
    split_ifs with h1 h2 h3 h4
    · rfl
    · bv_omega
    · rfl
    · rfl
    · rfl

/-- Ignored messages and control messages send no order. -/
theorem step_silent (hi : i.ipDataV = true) (h : q.state ≠ .idle) (hd : q.state ≠ .delete)
    (hr : q.state ≠ .replace) (ha : q.state ≠ .add) (he : q.state ≠ .execute)
    (hp : q.state ≠ .executeP) : Step q i := by
  apply step_of_book hi h hd hr
  intro hbook
  simp only [ItchRegs.comb, hi, if_true] at hbook
  cases hs : q.state
  case sysEvent =>
    simp only [hs, ItchRegs.onSysEvent] at hbook
    split_ifs at hbook <;> cases hbook
  case directory =>
    simp only [hs, ItchRegs.onDirectory] at hbook
    split_ifs at hbook <;> cases hbook
  case tradingAction =>
    simp only [hs, ItchRegs.onTradingAction] at hbook
    split_ifs at hbook <;> cases hbook
  case opHalt =>
    simp only [hs, ItchRegs.onOpHalt] at hbook
    split_ifs at hbook <;> cases hbook
  case ignore =>
    rw [hs] at hbook
    cases hbook
  all_goals contradiction

/-! ### The start of a message, and idle cycles -/

/-- The bytes left after the first word with a type, whose place in the word `r` tells. -/
def startLeft (len : ℕ) : ℕ → ℕ
  | 0 => len - 2
  | 1 => len - 5
  | 2 => len - 4
  | _ => len - 3

theorem ahead_start {b : BitVec 8} {len : BitVec 16} {alt : Bool} {st : IpState}
    (h : ItchRegs.idleTable b = some (len, alt, st)) {r : ℕ} (hr : r < 4) :
    5 ≤ aheadOf alt (startLeft len.toNat r) st := by
  rw [ItchRegs.idleTable] at h
  split at h <;> cases h <;> interval_cases r <;> decide

/-- The registers after the first word with a type. -/
theorem next_of_start (hi : i.ipDataV = true) (hs : q.state = .idle) (hok : LengthOk q i) :
    ∃ b len alt st r, ItchRegs.idleTable b = some (len, alt, st) ∧ r < 4 ∧
      (q.next i).msgAlt = alt ∧ (q.next i).bytesLeft.toNat = startLeft len.toNat r ∧
      (q.next i).state = st := by
  have hcomb : q.comb i = q.onIdle i := by simp only [ItchRegs.comb, hi, if_true, hs]
  obtain ⟨htype, hlen⟩ := hok
  rw [hcomb, ItchRegs.onIdle] at htype hlen
  have hnext : (q.next i).msgAlt = (q.onIdle i).msgAlt ∧
      (q.next i).bytesLeft = (q.onIdle i).bytesLeft ∧ (q.next i).state = (q.onIdle i).state := by
    rw [← hcomb]
    exact ⟨rfl, rfl, rfl⟩
  rw [hnext.1, hnext.2.1, hnext.2.2, ItchRegs.onIdle]
  dsimp only at htype hlen ⊢
  rcases htable : ItchRegs.idleTable ((q.lineShifted i).extractLsb' 40 8) with - | ⟨len, alt, st⟩
  · rw [htable] at htype
    cases htype
  · rw [htable] at hlen
    have heq : (q.lineShifted i).extractLsb' 48 16 = len := by simpa using hlen
    have hbounds := (idleTable_spec htable).1
    have hr : (q.bytesLeft.extractLsb' 0 2).toNat < 4 := (q.bytesLeft.extractLsb' 0 2).isLt
    have hlow : (len.extractLsb' 0 8).toNat = len.toNat := by
      rw [BitVec.extractLsb'_toNat, Nat.shiftRight_zero]
      omega
    have hsub : ∀ c : BitVec 8, c.toNat ≤ 5 →
        (len.extractLsb' 0 8 - c).toNat = len.toNat - c.toNat := by
      intro c hc
      rw [BitVec.toNat_sub, hlow]
      omega
    refine ⟨_, len, alt, st, (q.bytesLeft.extractLsb' 0 2).toNat, htable, hr, rfl, ?_, rfl⟩
    simp only [heq]
    generalize (q.bytesLeft.extractLsb' 0 2).toNat = r at hr ⊢
    interval_cases r
    · exact hsub 2 (by decide)
    · exact hsub 5 (by decide)
    · exact hsub 4 (by decide)
    · exact hsub 3 (by decide)

theorem step_idle (hi : i.ipDataV = true) (hs : q.state = .idle) (hok : LengthOk q i) :
    Step q i := by
  have hsix : ahead q = 6 := by rw [ahead, hs]; rfl
  have hcomb : q.comb i = q.onIdle i := by simp only [ItchRegs.comb, hi, if_true, hs]
  have hnone : (q.comb i).decBook.valid = false ∧ (q.comb i).decBookDel.valid = false := by
    rw [hcomb, ItchRegs.onIdle]
    dsimp only
    split <;> exact ⟨rfl, rfl⟩
  refine ⟨?_, fun h => ?_, fun h => ?_, fun hh => ?_⟩
  · obtain ⟨b, len, alt, st, r, htable, hr, ha, hb, hst⟩ := next_of_start hi hs hok
    have hstart := ahead_start htable hr
    rw [hsix, ahead, ha, hb, hst]
    omega
  · rw [hnone.1] at h
    cases h
  · rw [hnone.2] at h
    cases h
  · exact absurd (hs.symm.trans hh.state) (by decide)

/-- **A cycle**, with a word of any state or without one. -/
theorem step_of_lengthOk (hok : LengthOk q i) : Step q i := by
  cases hi : i.ipDataV with
  | false =>
    have hcomb := comb_idle (q := q) hi
    have hnext : ahead (q.next i) = ahead q := by
      change min 6 (aheadOf (q.comb i).msgAlt (q.comb i).bytesLeft.toNat (q.comb i).state) = _
      rw [hcomb]
      rfl
    refine ⟨by omega, fun h => ?_, fun h => ?_, fun hh _ => ⟨?_, Or.inl ⟨?_, ?_, ?_⟩⟩⟩
    · rw [hcomb] at h
      cases h
    · rw [hcomb] at h
      cases h
    · rw [hcomb]
      rfl
    · change (q.comb i).state = _
      rw [hcomb]
      exact hh.state
    · change 0 < (q.comb i).bytesLeft.toNat
      rw [hcomb]
      exact hh.pos
    · change (q.comb i).bytesLeft.toNat ≤ 16
      rw [hcomb]
      exact hh.le
  | true =>
    cases hs : q.state
    case idle => exact step_idle hi hs hok
    case add => exact step_add hi hs
    case execute => exact step_execute hi hs
    case executeP => exact step_executeP hi hs
    case delete => exact step_delete hi hs
    case replace => exact step_replace hi hs
    all_goals
      apply step_silent hi <;> rw [hs] <;> decide

/-! ### Local facts about what is sent -/

/-- An order that is sent has the id that was kept for it. -/
theorem orderId_of_book (h : (q.comb i).decBook.valid = true) :
    (q.comb i).decBook.orderId = q.decBook.orderId := by
  cases hi : i.ipDataV
  · rw [comb_idle hi] at h
    cases h
  simp only [ItchRegs.comb, hi, if_true] at h ⊢
  cases hs : q.state <;> simp only [hs] at h ⊢
  case idle =>
    rw [ItchRegs.onIdle] at h ⊢
    dsimp only at h ⊢
    split at h <;> cases h
  case sysEvent =>
    simp only [ItchRegs.onSysEvent] at h ⊢
    split_ifs at h <;> cases h
  case directory =>
    simp only [ItchRegs.onDirectory] at h ⊢
    split_ifs at h <;> cases h
  case tradingAction =>
    simp only [ItchRegs.onTradingAction] at h ⊢
    split_ifs at h <;> cases h
  case opHalt =>
    simp only [ItchRegs.onOpHalt] at h ⊢
    split_ifs at h <;> cases h
  case add =>
    simp only [ItchRegs.onAdd] at h ⊢
    split_ifs at h ⊢ <;> first | rfl | cases h
  case execute =>
    simp only [ItchRegs.onExecute] at h ⊢
    split_ifs at h ⊢ <;> first | rfl | cases h
  case executeP =>
    simp only [ItchRegs.onExecuteP] at h ⊢
    split_ifs at h ⊢ <;> first | rfl | cases h
  case delete =>
    simp only [ItchRegs.onDelete] at h ⊢
    split_ifs at h ⊢ <;> cases h
  case replace =>
    simp only [ItchRegs.onReplace] at h ⊢
    split_ifs at h ⊢ <;> first | rfl | cases h
  case ignore => cases h

/-- A delete that is sent has the id that is shown, and no other order is sent with it. -/
theorem orderId_of_del (h : (q.comb i).decBookDel.valid = true) :
    (q.comb i).decBook.orderId = (q.comb i).decBookDel.orderId ∧
      (q.comb i).decBook.valid = false ∧ (q.comb i).decBookDel.msgType = .delete ∧
      ((q.comb i).decBookDel.hasRep = true ↔ q.state = .replace) := by
  cases hi : i.ipDataV
  · rw [comb_idle hi] at h
    cases h
  by_cases hd : q.state = .delete
  · simp only [ItchRegs.comb, hi, if_true, hd, ItchRegs.onDelete] at h ⊢
    split_ifs at h ⊢
    · cases h
    · exact ⟨rfl, rfl, rfl, by simp [ItchRegs.count, ItchRegs.hold, DecBook.zero]⟩
    · cases h
  by_cases hr : q.state = .replace
  · simp only [ItchRegs.comb, hi, if_true, hr, ItchRegs.onReplace] at h ⊢
    split_ifs at h ⊢
    · cases h
    · exact ⟨rfl, rfl, rfl, iff_of_true rfl trivial⟩
    all_goals cases h
  · rw [comb_decBookDel hd hr] at h
    cases h

/-- The order sent in the second half of a replace message is the replace. -/
theorem msgType_of_halfway (hh : Halfway q) (h : (q.comb i).decBook.valid = true) :
    (q.comb i).decBook.msgType = .replace := by
  have hs := hh.state
  cases hi : i.ipDataV
  · rw [comb_idle hi] at h
    cases h
  simp only [ItchRegs.comb, hi, if_true, hs, ItchRegs.onReplace] at h ⊢
  split_ifs at h ⊢ <;> first | rfl | cases h

/-! ### The invariant -/

/-- The order register after a cycle. -/
theorem next_decBook (q : ItchRegs) (i : ItchIn) : (q.next i).decBook =
    if q.decBookDel.valid then q.decBookDel else (q.comb i).decBook := rfl

/-- Orders are far enough from the ones before. -/
structure Spaced (q : ItchRegs) : Prop where
  gap : Gap q
  del : q.decBookDel.valid = true → q.decBook.valid = false ∧ q.decBookDel.msgType = .delete ∧
    (ahead q = 6 ∨ q.decBookDel.hasRep = true ∧ Halfway q ∧ 4 ≤ ahead q)
  book : q.decBook.valid = true → 5 ≤ ahead q ∨
    q.decBook.msgType = .delete ∧ q.decBook.hasRep = true ∧ Halfway q ∧ 3 ≤ ahead q

/-- While a delete is in the extra stage nothing is sent. -/
theorem Spaced.silent (hq : Spaced q) (hdel : q.decBookDel.valid = true) :
    (q.comb i).decBook.valid = false ∧ (q.comb i).decBookDel.valid = false := by
  obtain ⟨-, hb, hd⟩ := comb_of_gap hq.gap hdel i
  rw [hb, hd]
  exact ⟨rfl, rfl⟩

/-- **The orders stay far enough apart.** -/
theorem Spaced.next (hq : Spaced q) (hok : LengthOk q i) : Spaced (q.next i) := by
  have hstep := step_of_lengthOk hok
  have hdown := hstep.down
  refine ⟨gap_next q i, fun hdel => ?_, fun hbook => ?_⟩
  · -- a delete was sent in this cycle
    have hdel' : (q.comb i).decBookDel.valid = true := hdel
    obtain ⟨-, hb, htype, hrep⟩ := orderId_of_del hdel'
    have hnone : q.decBookDel.valid = false := by
      by_contra h
      rw [(hq.silent (by simpa using h)).2] at hdel'
      cases hdel'
    refine ⟨?_, htype, ?_⟩
    · rw [next_decBook, hnone, if_neg Bool.false_ne_true]
      exact hb
    · rcases (hstep.del hdel').2 with h6 | ⟨hs, hh, h4⟩
      · exact Or.inl h6
      · exact Or.inr ⟨hrep.2 hs, hh, h4⟩
  · rw [next_decBook] at hbook
    cases hdel : q.decBookDel.valid with
    | true =>
      -- the delete in the extra stage moves on
      have hsil := hq.silent (i := i) hdel
      obtain ⟨-, htype, h6 | ⟨hrep, hh, h4⟩⟩ := hq.del hdel
      · left
        omega
      · rcases (hstep.halfway hh hsil.1).2 with hh' | h6
        · right
          rw [next_decBook, hdel, if_pos rfl]
          exact ⟨htype, hrep, hh', by omega⟩
        · left
          omega
    | false =>
      rw [hdel, if_neg Bool.false_ne_true] at hbook
      left
      have := (hstep.book hbook).2
      omega

/-! ### Runs -/

/-- The number of cycles to the next order, from a cycle in which none is in the extra stage. -/
theorem next_order {m k : ℕ} (hm : m ≤ 6) (hdel : q.decBookDel.valid = false)
    (hfar : m ≤ ahead q ∨ Halfway q ∧ k ≤ ahead q) {is : List ItchIn}
    (hok : itchParser.Along LengthOk q (i :: is)) {t : ℕ} {o : ItchOut}
    (ho : (itchParser.trace (q.next i) is)[t]? = some o) (hv : o.decBook.valid = true)
    (hfirst : ∀ t' < t, ∀ o', (itchParser.trace (q.next i) is)[t']? = some o' →
      o'.decBook.valid = false) :
    m ≤ t + 1 ∨ k ≤ t + 1 ∧ o.decBook.msgType = .replace := by
  induction is generalizing q i m k t with
  | nil => cases ho
  | cons j is ih =>
    obtain ⟨hok0, hok'⟩ := Circuit.along_cons.1 hok
    have hstep := step_of_lengthOk hok0
    have hdown := hstep.down
    have hnext : (q.next i).decBook = (q.comb i).decBook := by
      rw [next_decBook, hdel, if_neg Bool.false_ne_true]
    cases t with
    | zero =>
      -- the order was sent in this cycle
      obtain rfl : itchParser.out (q.next i) j = o := Option.some.inj ho
      have hb : (q.comb i).decBook.valid = true := by
        rw [← hnext]
        exact hv
      have hone := (hstep.book hb).1
      rcases hfar with h | ⟨hh, h⟩
      · left
        omega
      · right
        refine ⟨by omega, ?_⟩
        change (q.next i).decBook.msgType = _
        rw [hnext]
        exact msgType_of_halfway hh hb
    | succ t =>
      have hb : (q.comb i).decBook.valid = false := by
        rw [← hnext]
        exact hfirst 0 (Nat.succ_pos t) _ rfl
      cases hd : (q.comb i).decBookDel.valid with
      | true =>
        rcases hfar with h | ⟨hh, -⟩
        · left
          have := (hstep.del hd).1
          omega
        · rw [(hstep.halfway hh hb).1] at hd
          cases hd
      | false =>
        have hfar' : m - 1 ≤ ahead (q.next i) ∨
            Halfway (q.next i) ∧ k - 1 ≤ ahead (q.next i) := by
          rcases hfar with h | ⟨hh, h⟩
          · left
            omega
          · rcases (hstep.halfway hh hb).2 with hh' | h6
            · right
              exact ⟨hh', by omega⟩
            · left
              omega
        rcases ih (m := m - 1) (k := k - 1) (by omega) hd hfar' hok' ho
          (fun t' ht' o' ho' => hfirst (t' + 1) (Nat.succ_lt_succ ht') o' ho') with h | ⟨h, htype⟩
        · left
          omega
        · exact Or.inr ⟨by omega, htype⟩

theorem spaced_run (hq : Spaced q) {is : List ItchIn} (hok : itchParser.Along LengthOk q is) :
    Spaced (itchParser.run q is) := by
  induction is generalizing q with
  | nil => exact hq
  | cons i is ih =>
    obtain ⟨hok0, hok'⟩ := Circuit.along_cons.1 hok
    exact ih (hq.next hok0) hok'

/-- An order is followed by the next one at a distance. -/
theorem next_order_of_valid (hq : Spaced q) (hv : q.decBook.valid = true) {is : List ItchIn}
    (hok : itchParser.Along LengthOk q (i :: is)) {t : ℕ} {o : ItchOut}
    (ho : (itchParser.trace (q.next i) is)[t]? = some o) (hv' : o.decBook.valid = true)
    (hfirst : ∀ t' < t, ∀ o', (itchParser.trace (q.next i) is)[t']? = some o' →
      o'.decBook.valid = false) :
    5 ≤ t + 1 ∨ 3 ≤ t + 1 ∧ (q.decBook.msgType = .delete ∧ q.decBook.hasRep = true) ∧
      o.decBook.msgType = .replace := by
  have hdel : q.decBookDel.valid = false := by
    by_contra h
    rw [(hq.del (by simpa using h)).1] at hv
    cases hv
  rcases hq.book hv with h5 | ⟨htype, hrep, hh, h3⟩
  · rcases next_order (m := 5) (k := 5) (by decide) hdel (Or.inl h5) hok ho hv' hfirst with h | h
    · exact Or.inl h
    · exact Or.inl h.1
  · rcases next_order (m := 5) (by decide) hdel (Or.inr ⟨hh, h3⟩) hok ho hv' hfirst with h | h
    · exact Or.inl h
    · exact Or.inr ⟨h.1, ⟨htype, hrep⟩, h.2⟩

/-- The hash shown in the cycle before an order, and in the one before that. -/
theorem hash_of_valid (hq : Spaced q) {j k : ItchIn} (hok : LengthOk q i)
    (hok' : LengthOk (q.next i) j)
    (hv : (itchParser.out ((q.next i).next j) k).decBook.valid = true) :
    (itchParser.out q i).oidHash =
        (itchParser.out ((q.next i).next j) k).decBook.orderId.extractLsb' 0 11 ∧
      (itchParser.out (q.next i) j).oidHash =
        (itchParser.out ((q.next i).next j) k).decBook.orderId.extractLsb' 0 11 := by
  change (q.comb i).decBook.orderId.extractLsb' 0 11 =
      ((q.next i).next j).decBook.orderId.extractLsb' 0 11 ∧
    ((q.next i).comb j).decBook.orderId.extractLsb' 0 11 =
      ((q.next i).next j).decBook.orderId.extractLsb' 0 11
  have hv' : ((q.next i).next j).decBook.valid = true := hv
  rw [next_decBook] at hv' ⊢
  cases hdel : (q.next i).decBookDel.valid with
  | true =>
    -- the delete was sent two cycles before, and its id is kept in the gap
    have hsent : (q.comb i).decBookDel.valid = true := hdel
    have hnone : q.decBookDel.valid = false := by
      by_contra h
      rw [(hq.silent (by simpa using h)).2] at hsent
      cases hsent
    obtain ⟨-, hbook, -⟩ := comb_of_gap (hq.next hok).gap hdel j
    rw [if_pos rfl, hbook, next_decBook, hnone, if_neg Bool.false_ne_true]
    have hid := (orderId_of_del hsent).1
    rw [hid]
    exact ⟨rfl, rfl⟩
  | false =>
    rw [hdel, if_neg Bool.false_ne_true] at hv'
    rw [if_neg Bool.false_ne_true]
    refine ⟨?_, rfl⟩
    have hid := orderId_of_book hv'
    have hnone : q.decBookDel.valid = false := by
      -- after a delete in the extra stage no order is sent for a while
      by_contra h
      have hpend := hq.del (by simpa using h)
      have hdown := (step_of_lengthOk hok).down
      have hone := ((step_of_lengthOk hok').book hv').1
      rcases hpend.2.2 with h6 | ⟨-, -, h4⟩
      · omega
      · omega
    rw [hid, next_decBook, hnone, if_neg Bool.false_ne_true]

end Step

/-! ### Streams of messages -/

section Lengths

variable {q q' : ItchRegs}

/-- Inside a message the lengths are not looked at. -/
theorem lengthOk_of_ne_idle {i : ItchIn} (h : q.state ≠ .idle) : LengthOk q i := by
  unfold LengthOk ItchRegs.comb
  split_ifs
  · cases hs : q.state
    case idle => exact absurd hs h
    case sysEvent =>
      simp only [ItchRegs.onSysEvent]
      split_ifs <;> exact ⟨rfl, rfl⟩
    case directory =>
      simp only [ItchRegs.onDirectory]
      split_ifs <;> exact ⟨rfl, rfl⟩
    case tradingAction =>
      simp only [ItchRegs.onTradingAction]
      split_ifs <;> exact ⟨rfl, rfl⟩
    case opHalt =>
      simp only [ItchRegs.onOpHalt]
      split_ifs <;> exact ⟨rfl, rfl⟩
    case add =>
      simp only [ItchRegs.onAdd]
      split_ifs <;> exact ⟨rfl, rfl⟩
    case execute =>
      simp only [ItchRegs.onExecute]
      split_ifs <;> exact ⟨rfl, rfl⟩
    case executeP =>
      simp only [ItchRegs.onExecuteP]
      split_ifs <;> exact ⟨rfl, rfl⟩
    case delete =>
      simp only [ItchRegs.onDelete]
      split_ifs <;> exact ⟨rfl, rfl⟩
    case replace =>
      simp only [ItchRegs.onReplace]
      split_ifs <;> exact ⟨rfl, rfl⟩
    case ignore => exact ⟨rfl, rfl⟩
  · exact ⟨rfl, rfl⟩

/-- At the start of a message the length is compared with the table. -/
theorem lengthOk_idle {i : ItchIn} (hi : i.ipDataV = true) (hs : q.state = .idle) :
    LengthOk q i ↔ ∃ len alt st,
      ItchRegs.idleTable ((q.lineShifted i).extractLsb' 40 8) = some (len, alt, st) ∧
        (q.lineShifted i).extractLsb' 48 16 = len := by
  have hcomb : q.comb i = q.onIdle i := by simp only [ItchRegs.comb, hi, if_true, hs]
  rw [LengthOk, hcomb, ItchRegs.onIdle]
  dsimp only
  cases ItchRegs.idleTable ((q.lineShifted i).extractLsb' 40 8) with
  | none =>
    refine iff_of_false ?_ ?_
    · rintro ⟨h, _⟩
      cases h
    · rintro ⟨_, _, _, h, _⟩
      cases h
  | some entry =>
    obtain ⟨len, alt, st⟩ := entry
    constructor
    · rintro ⟨-, hlen⟩
      exact ⟨len, alt, st, rfl, by simpa using hlen⟩
    · rintro ⟨len', alt', st', h, hlen⟩
      cases h
      exact ⟨rfl, by simpa using hlen⟩

theorem lineShifted_known (h : Same q q') (i : ItchIn) :
    q'.lineShifted (known i) = q.lineShifted i := by
  simp only [ItchRegs.lineShifted, ItchRegs.ipLineD, known, h.ipLine, h.bytesLeft]
  rfl

/-- The lengths are right where the parser with a known stock locate has no error. -/
theorem lengthOk_of_known (h : Same q q') {i : ItchIn} (hq : (q'.comb (known i)).ipError = false) :
    LengthOk q i := by
  have hok : LengthOk q' (known i) := by
    simp only [ItchRegs.Comb.ipError, Bool.or_eq_false_iff] at hq
    obtain ⟨⟨⟨⟨⟨⟨⟨hlen, htype⟩, -⟩, -⟩, -⟩, -⟩, -⟩, -⟩ := hq
    exact ⟨htype, hlen⟩
  by_cases hs : q.state = .idle
  · cases hi : i.ipDataV with
    | false =>
      rw [LengthOk, comb_idle hi]
      exact ⟨rfl, rfl⟩
    | true =>
      have hi' : (known i).ipDataV = true := hi
      rw [lengthOk_idle hi' (h.state ▸ hs), lineShifted_known h] at hok
      exact (lengthOk_idle hi hs).2 hok
  · exact lengthOk_of_ne_idle hs

theorem along_lengthOk (h : Same q q') {is : List ItchIn}
    (hq : ItchQuiet (itchParser.trace q' (is.map known))) : itchParser.Along LengthOk q is := by
  induction is generalizing q q' with
  | nil => exact Circuit.along_nil
  | cons i is ih =>
    obtain ⟨h0, hrest⟩ := List.forall_mem_cons.1 hq
    exact Circuit.along_cons.2 ⟨lengthOk_of_known h h0, ih (same_next h i) hrest⟩

/-- Packets of valid messages raise no error, if the stock locate is known. -/
theorem quiet_of_packets {packets : List (List (List Byte))} {cycles : List ItchIn}
    (hmsgs : ∀ msgs ∈ packets, ∀ m ∈ msgs, Framing.IsMsg m ∧ ValidMsg 19 m)
    (hd : Delivers 0 packets ((cycles.map known).filter fun i => i.ipDataV)) (hs : Settled q) :
    ItchQuiet (itchParser.trace q (cycles.map known)) := by
  rw [itchQuiet_iff hs, ← collect_ne_none, packets_sent hd
    (fun msgs hp m hm => followed_of_valid (hmsgs msgs hp m hm).1 (Or.inr rfl)
      (hmsgs msgs hp m hm).2) hs.rested, collect_ne_none]
  intro out hout
  obtain ⟨m, hm, rfl⟩ := List.mem_map.1 hout
  obtain ⟨msgs, hp, hm⟩ := List.mem_flatten.1 hm
  exact decodeMsg_iff.2 (hmsgs msgs hp m hm).2

end Lengths

/-- What the table behind the parser relies on, of the outputs of a run. -/
structure Timed (outs : List ItchOut) : Prop where
  hash : ∀ T o, outs[T]? = some o → o.decBook.valid = true → 2 ≤ T ∧
    (∀ o', outs[T - 1]? = some o' → o'.oidHash = o.decBook.orderId.extractLsb' 0 11) ∧
    ∀ o', outs[T - 2]? = some o' → o'.oidHash = o.decBook.orderId.extractLsb' 0 11
  apart : ∀ T d o o', outs[T]? = some o → outs[T + (d + 1)]? = some o' →
    o.decBook.valid = true → o'.decBook.valid = true →
    (∀ k < d, ∀ x, outs[T + (k + 1)]? = some x → x.decBook.valid = false) →
    5 ≤ d + 1 ∨ 3 ≤ d + 1 ∧ (o.decBook.msgType = .delete ∧ o.decBook.hasRep = true) ∧
      o'.decBook.msgType = .replace

/-- No order that a cycle sends is lost: it is shown in the next cycle, a delete in the one after. -/
structure Delivered (q : ItchRegs) (cycles : List ItchIn) : Prop where
  book : ∀ t i o, cycles[t]? = some i → (itchParser.trace q cycles)[t + 1]? = some o →
    ((itchParser.run q (cycles.take t)).comb i).decBook.valid = true →
    o.decBook = ((itchParser.run q (cycles.take t)).comb i).decBook
  del : ∀ t i o, cycles[t]? = some i → (itchParser.trace q cycles)[t + 2]? = some o →
    ((itchParser.run q (cycles.take t)).comb i).decBookDel.valid = true →
    o.decBook = ((itchParser.run q (cycles.take t)).comb i).decBookDel

section Runs

variable {q : ItchRegs} {cycles : List ItchIn}

/-- The input of a cycle with an output. -/
theorem exists_input {t : ℕ} {o : ItchOut} (h : (itchParser.trace q cycles)[t]? = some o) :
    ∃ i, cycles[t]? = some i ∧ itchParser.out (itchParser.run q (cycles.take t)) i = o := by
  rw [itchParser.trace_getElem?, Option.map_eq_some_iff] at h
  exact h

/-- From between packets, the orders are timed. -/
theorem timed_of_rested (hs : q.state = .idle) (hv : q.decBook.valid = false)
    (hd : q.decBookDel.valid = false) (hok : itchParser.Along LengthOk q cycles) :
    Timed (itchParser.trace q cycles) := by
  have hsix : ahead q = 6 := by rw [ahead, hs]; rfl
  have hspaced : Spaced q :=
    ⟨fun _ => Or.inl hs, fun h => absurd h (by simp [hd]), fun h => absurd h (by simp [hv])⟩
  have hat : ∀ t, Spaced (itchParser.run q (cycles.take t)) :=
    fun t => spaced_run hspaced (hok.drop t).1
  constructor
  · intro T o ho hvalid
    match T with
    | 0 =>
      obtain ⟨i, -, rfl⟩ := exists_input ho
      rw [show (itchParser.out (itchParser.run q (cycles.take 0)) i).decBook = q.decBook from rfl,
        hv] at hvalid
      cases hvalid
    | 1 =>
      -- the first order takes six cycles
      cases cycles with
      | nil => cases ho
      | cons i cycles =>
        rcases next_order (m := 6) (k := 6) le_rfl hd (Or.inl hsix.ge) hok ho hvalid
          (fun t' ht' => absurd ht' (Nat.not_lt_zero t')) with h | ⟨h, -⟩
        · exact absurd h (by decide)
        · exact absurd h (by decide)
    | T + 2 =>
      obtain ⟨k, hk, rfl⟩ := exists_input ho
      obtain ⟨hT, -⟩ := List.getElem?_eq_some_iff.1 hk
      have hi : cycles[T]? = some cycles[T] := List.getElem?_eq_getElem (by omega)
      have hj : cycles[T + 1]? = some cycles[T + 1] := List.getElem?_eq_getElem (by omega)
      have hok0 := hok.at hi
      have hok1 := hok.at hj
      rw [itchParser.run_take_succ hi] at hok1
      have hrun : itchParser.run q (cycles.take (T + 2)) =
          ((itchParser.run q (cycles.take T)).next cycles[T]).next cycles[T + 1] := by
        rw [itchParser.run_take_succ hj, itchParser.run_take_succ hi]
        rfl
      rw [hrun] at hvalid ⊢
      obtain ⟨h2, h1⟩ := hash_of_valid (hat T) hok0 hok1 hvalid
      refine ⟨by omega, fun o' ho' => ?_, fun o' ho' => ?_⟩
      · obtain ⟨j, hj', rfl⟩ := exists_input ho'
        obtain rfl : cycles[T + 1] = j := Option.some.inj (hj.symm.trans hj')
        change (itchParser.out (itchParser.run q (cycles.take (T + 1))) _).oidHash = _
        rw [itchParser.run_take_succ hi]
        exact h1
      · obtain ⟨i, hi', rfl⟩ := exists_input ho'
        obtain rfl : cycles[T] = i := Option.some.inj (hi.symm.trans hi')
        exact h2
  · intro T d o o' ho ho' hvalid hvalid' hbetween
    obtain ⟨i, hi, rfl⟩ := exists_input ho
    rw [itchParser.trace_after hi] at ho'
    have hok' := (hok.drop T).2
    obtain ⟨hT, rfl⟩ := List.getElem?_eq_some_iff.1 hi
    rw [← List.getElem_cons_drop hT] at hok'
    exact next_order_of_valid (hat T) hvalid hok' ho' hvalid' fun t' ht' x hx =>
      hbetween t' ht' x (by rw [itchParser.trace_after hi]; exact hx)

/-- From between packets, no order is lost. -/
theorem delivered_of_rested (hs : q.state = .idle) : Delivered q cycles := by
  have hat : ∀ t, Gap (itchParser.run q (cycles.take t)) :=
    fun t => gap_run (fun _ => Or.inl hs) _
  constructor
  · intro t i o hi ho hsent
    obtain ⟨j, -, rfl⟩ := exists_input ho
    change (itchParser.run q (cycles.take (t + 1))).decBook = _
    rw [itchParser.run_take_succ hi]
    change (ItchRegs.next _ i).decBook = _
    rw [next_decBook]
    cases hdel : (itchParser.run q (cycles.take t)).decBookDel.valid with
    | true =>
      rw [(comb_of_gap (hat t) hdel i).2.1] at hsent
      cases hsent
    | false => rfl
  · intro t i o hi ho hsent
    obtain ⟨k, hk, rfl⟩ := exists_input ho
    obtain ⟨hlt, -⟩ := List.getElem?_eq_some_iff.1 hk
    have hj : cycles[t + 1]? = some cycles[t + 1] := List.getElem?_eq_getElem (by omega)
    change (itchParser.run q (cycles.take (t + 2))).decBook = _
    rw [itchParser.run_take_succ hj, itchParser.run_take_succ hi]
    change (ItchRegs.next (ItchRegs.next _ i) _).decBook = _
    rw [next_decBook]
    exact if_pos hsent

end Runs

/-- **The timing of the orders.** After reset, on packets of valid messages with idle cycles anywhere
and any stock locate in any cycle: the hash shown in the two cycles before an order is that of its
id, orders are five cycles apart, but for the two halves of a replace message, which are three, and
no order that is sent is lost. -/
theorem timing (q : ItchRegs) {packets : List (List (List Byte))} {cycles : List ItchIn}
    (hmsgs : ∀ msgs ∈ packets, ∀ m ∈ msgs, Framing.IsMsg m ∧ ValidMsg 19 m)
    (hd : Delivers 0 packets ((cycles.map known).filter fun i => i.ipDataV)) :
    Timed (itchParser.trace q.reset cycles) ∧ Delivered q.reset cycles := by
  have hok := along_lengthOk (⟨rfl, rfl, rfl, rfl⟩ : Same q.reset q.reset)
    (quiet_of_packets hmsgs hd ⟨rfl, rfl⟩)
  exact ⟨timed_of_rested rfl rfl rfl hok, delivered_of_rested rfl⟩

/-- The deletes of two orders, and the replace of a third. -/
def deletesAndReplace : List (List Byte) :=
  [[0, 19, 0x44, 0, 7, 0, 0, 0, 0, 0, 0, 0, 0, 0, 0, 0, 0, 0, 0, 0, 1],
    [0, 19, 0x44, 0, 7, 0, 0, 0, 0, 0, 0, 0, 0, 0, 0, 0, 0, 0, 0, 0, 2],
    [0, 35, 0x55, 0, 7, 0, 0, 0, 0, 0, 0, 0, 0, 0, 0, 0, 0, 0, 0, 0, 3, 0, 0, 0, 0, 0, 0, 0, 4,
      0, 0, 0, 5, 0, 0, 39, 16]]

/-- The orders are five cycles apart, and the two halves of the replace three. -/
theorem timing_deletesAndReplace :
    let q := ItchRegs.reset
      ⟨0, 0, false, Rtl.DecCtrl.zero, false, DecBook.zero, DecBook.zero, .ignore⟩
    let idle : ItchIn := ⟨false, 0xDEADBEEF, true, false, 7⟩
    let cycles := idle :: (Framing.beats deletesAndReplace.flatten).map (itchWord 7) ++ [idle, idle]
    ((itchParser.trace q cycles).zipIdx.filter fun o => o.1.decBook.valid).map Prod.snd =
        [8, 13, 18, 21] ∧
      Timed (itchParser.trace q cycles) ∧ Delivered q cycles := by
  intro q idle cycles
  have hmsgs : ∀ msgs ∈ [deletesAndReplace], ∀ m ∈ msgs, Framing.IsMsg m ∧ ValidMsg 19 m := by
    intro msgs hp m hm
    rw [List.mem_singleton.1 hp] at hm
    have hframed : ∀ m ∈ deletesAndReplace, 2 ≤ m.length ∧ m.length = 2 + Ref.fromBytes (m.take 2) := by
      decide
    have hdecoded : ∀ m ∈ deletesAndReplace, decodeMsg 0 m ≠ none := by decide +kernel
    exact ⟨hframed m hm, decodeMsg_iff.1 (hdecoded m hm)⟩
  have hwords : ((Framing.beats deletesAndReplace.flatten).map (itchWord 7)).map known =
      (Framing.beats deletesAndReplace.flatten).map (itchWord 0) := by
    rw [List.map_map]
    rfl
  have hd : Delivers 0 [deletesAndReplace] ((cycles.map known).filter fun i => i.ipDataV) := by
    have hcycles : (cycles.map known).filter (fun i => i.ipDataV) =
        (Framing.beats deletesAndReplace.flatten).map (itchWord 0) ++ [] := by
      rw [List.append_nil, ← filter_itchWord 0 (Framing.beats deletesAndReplace.flatten), ← hwords]
      rfl
    rw [hcycles]
    exact Delivers.cons (Framing.carries_beats (by decide)) Delivers.nil
  exact ⟨by decide +kernel, timing _ hmsgs hd⟩

end ItchOrderBook.Decode
