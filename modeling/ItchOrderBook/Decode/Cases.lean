import ItchOrderBook.Decode.Message

/-!
# The cases of the parser

Each case sends what `decodeBody` says of its message, at any alignment: its windows are those of
`QuietAt`, and the fields it picks there are the bytes of the message. `message_run` is the result:
from the start of a message the parser sends `decodeMsg` of it and is at the start of the next one.
-/

namespace ItchOrderBook.Decode

open Ref (Byte slice fromBytes)
open Rtl (DecCtrl DecBook ItchIn ItchOut ItchRegs IpState)

/-- A numeric field. -/
theorem toNat_field (msg : List Byte) {i j k : ℕ} (hk : 8 * (j - i) ≤ k) :
    (bits k (slice msg i j)).toNat = fromBytes (slice msg i j) := by
  refine toNat_bits (le_trans (Nat.mul_le_mul_left 8 ?_) hk)
  rw [Ref.length_slice]
  omega

theorem wordAt_ipDataV (S : List Byte) (loc : BitVec 16) (n : ℕ) :
    (wordAt S loc n).ipDataV = true := rfl

section Cases

variable {S : List Byte} {loc : BitVec 16} {o e n : ℕ} {alt : Bool} {q : ItchRegs}

theorem sysEvent_run (hS : S.length % 4 = 0) (h : InMsg S e .sysEvent alt n q) (he : e = o + 14)
    (hn : n ≤ o + 7) : Sends S loc n q e (decodeBody loc (slice S o e) .sysEvent) := by
  apply h.one_window loc hS (by decide) 0 rfl (by omega)
  · intro l hl hq
    change 4 < l
    omega
  intro n q h hw
  have hwin : q.bytesLeft < 0x5 ∧ q.bytesLeft > 0x0 := h.window hw rfl rfl
  change shown (q.comb _) = (ItchRegs.eventCodeOf (byteAt _ 13)).map _
  simp only [ItchRegs.comb, wordAt_ipDataV, if_true, h.state, ItchRegs.onSysEvent, hwin, and_self,
    h.field hS hw o 32 8 13 14 (by omega), byteAt]
  generalize ItchRegs.eventCodeOf _ = code
  cases code <;> rfl

theorem directory_run (hS : S.length % 4 = 0) (h : InMsg S e .directory alt n q) (he : e = o + 41)
    (hn : n ≤ o + 7) : Sends S loc n q e (decodeBody loc (slice S o e) .directory) := by
  apply h.one_window loc hS (by decide) 20 rfl (by omega) (fun l _ hq => hq)
  intro n q h hw
  have hwin : q.bytesLeft < 0x19 ∧ q.bytesLeft > 0x14 := h.window hw rfl rfl
  change shown (q.comb _) = _
  simp only [ItchRegs.comb, wordAt_ipDataV, if_true, h.state, ItchRegs.onDirectory, hwin, and_self,
    h.field hS hw o 160 16 3 5 (by omega), h.field hS hw o 32 64 13 21 (by omega), decodeBody]
  rw [← toNat_field _ (show 8 * (5 - 3) ≤ 16 by omega)]
  rfl

theorem tradingAction_run (hS : S.length % 4 = 0) (h : InMsg S e .tradingAction alt n q)
    (he : e = o + 27) (hn : n ≤ o + 7) :
    Sends S loc n q e (decodeBody loc (slice S o e) .tradingAction) := by
  apply h.one_window loc hS (by decide) 4 rfl (by omega) (fun l _ hq => hq)
  intro n q h hw
  have hwin : q.bytesLeft < 0x9 ∧ q.bytesLeft > 0x4 := h.window hw rfl rfl
  change shown (q.comb _) = _
  simp only [ItchRegs.comb, wordAt_ipDataV, if_true, h.state, ItchRegs.onTradingAction, hwin,
    and_self, h.field hS hw o 176 16 3 5 (by omega), h.field hS hw o 48 64 13 21 (by omega),
    h.field hS hw o 40 8 21 22 (by omega), decodeBody, byteAt]
  rw [← toNat_field _ (show 8 * (5 - 3) ≤ 16 by omega)]
  generalize ItchRegs.tradeActionOf _ = code
  cases code <;> rfl

theorem opHalt_run (hS : S.length % 4 = 0) (h : InMsg S e .opHalt alt n q) (he : e = o + 23)
    (hn : n ≤ o + 7) : Sends S loc n q e (decodeBody loc (slice S o e) .opHalt) := by
  apply h.one_window loc hS (by decide) 0 rfl (by omega)
  · intro l hl hq
    change 4 < l
    omega
  intro n q h hw
  have hwin : q.bytesLeft < 0x5 ∧ q.bytesLeft > 0x0 := h.window hw rfl rfl
  change shown (q.comb _) = _
  simp only [ItchRegs.comb, wordAt_ipDataV, if_true, h.state, ItchRegs.onOpHalt, hwin, and_self,
    h.field hS hw o 176 16 3 5 (by omega), h.field hS hw o 48 64 13 21 (by omega),
    h.field hS hw o 40 8 21 22 (by omega), h.field hS hw o 32 8 22 23 (by omega), decodeBody, byteAt]
  rw [← toNat_field _ (show 8 * (5 - 3) ≤ 16 by omega)]
  generalize ItchRegs.marketOf _ = code
  generalize ItchRegs.haltOf _ = halt
  cases code <;> cases halt <;> rfl

/-- The word in which the stock locate is compared. -/
theorem InMsg.matched {st : IpState} (h : InMsg S e st alt n q) {msg : List Byte}
    (known : BitVec 64 → Prop) (id : BitVec 64) (hid : known id)
    (hcomb : q.comb (wordAt S loc n) = ItchRegs.matchStock { q.count (wordAt S loc n) with
      decBook := { (q.count (wordAt S loc n)).decBook with orderId := id } } (wordAt S loc n)
      (bits 16 (slice msg 3 5))) :
    itchCore.out q (wordAt S loc n) = some [] ∧
      Latched loc msg known (itchCore.next q (wordAt S loc n)) := by
  refine ⟨?_, ?_, ?_⟩
  · change shown (q.comb _) = _
    rw [hcomb]
    rfl
  · exact congrArg ItchRegs.Comb.matchLocate hcomb
  · rw [next_orderId h.del, hcomb]
    exact hid

theorem shown_book (q : ItchRegs) (i : ItchIn) (d : DecBook) :
    shown { q.count i with decBook := d } = some (ofBook d) := by
  change some ([] ++ ofBook d ++ []) = _
  rw [List.nil_append, List.append_nil]

/-- A book message is sent if the stock locate has matched. -/
theorem ofBook_matched {msg : List Byte} {known : BitVec 64 → Prop} (h : Latched loc msg known q)
    {msgType : Rtl.BookMsgType} {hasRep isBuy : Bool} {orderId : BitVec 64} {shares price : BitVec 32} :
    ofBook ⟨q.matchLocate, msgType, hasRep, orderId, isBuy, shares, price⟩ =
      ifMatch loc msg [bookMsg ⟨true, msgType, hasRep, orderId, isBuy, shares, price⟩] := by
  rw [h.matchLocate, ifMatch]
  by_cases hm : bits 16 (slice msg 3 5) = loc
  · rw [if_pos hm, decide_eq_true hm]
    rfl
  · rw [if_neg hm, decide_eq_false hm]
    rfl

/-- Case `ADD`: the windows of the alternative form come one word earlier. -/
theorem add_run (hS : S.length % 4 = 0) (h : InMsg S e .add alt n q) {lo : ℕ}
    (hlo : lo = if alt then 4 else 0) (he : e = o + 38 + lo) (hn : n ≤ o + 7) :
    Sends S loc n q e (decodeBody loc (slice S o e) .add) := by
  generalize hmsg : slice S o e = msg
  apply h.two_windows loc hS (by decide) lo msg (fun id => id = bits 64 (slice msg 13 21))
    (by cases alt <;> subst hlo <;> rfl) (by omega)
  · intro l hl hq
    cases alt <;> subst hlo <;> simp only [QuietAt, Bool.false_eq_true, if_false, if_true] at hq ⊢ <;>
      omega
  · intro n q h hw
    have hwin : (q.bytesLeft < 0xD ∧ q.bytesLeft > 0x8 ∧ q.msgAlt) ∨
        (q.bytesLeft < 0x9 ∧ q.bytesLeft > 0x4 ∧ !q.msgAlt) := by
      rw [h.alt]
      cases alt <;> subst hlo
      · exact Or.inr (and_assoc.1 ⟨h.window hw rfl rfl, rfl⟩)
      · exact Or.inl (and_assoc.1 ⟨h.window hw rfl rfl, rfl⟩)
    refine h.matched _ (bits 64 (slice msg 13 21)) rfl ?_
    simp only [ItchRegs.comb, wordAt_ipDataV, if_true, h.state, ItchRegs.onAdd, if_pos hwin,
      h.field hS hw o 136 64 13 21 (by omega), h.field hS hw o 264 16 3 5 (by omega), hmsg]
  · intro n q h hw hl
    have hwin : ¬ ((q.bytesLeft < 0xD ∧ q.bytesLeft > 0x8 ∧ q.msgAlt) ∨
          (q.bytesLeft < 0x9 ∧ q.bytesLeft > 0x4 ∧ !q.msgAlt)) ∧
        ((q.bytesLeft < 0x9 ∧ q.bytesLeft > 0x4 ∧ q.msgAlt) ∨
          (q.bytesLeft < 0x5 ∧ q.bytesLeft > 0x0 ∧ !q.msgAlt)) := by
      rw [h.alt]
      cases alt <;> subst hlo
      · have hw' : q.bytesLeft < 0x5 ∧ q.bytesLeft > 0x0 := h.window hw rfl rfl
        refine ⟨?_, Or.inr (and_assoc.1 ⟨hw', rfl⟩)⟩
        rintro (⟨-, -, hf⟩ | ⟨-, hf, -⟩)
        · cases hf
        · bv_omega
      · have hw' : q.bytesLeft < 0x9 ∧ q.bytesLeft > 0x4 := h.window hw rfl rfl
        refine ⟨?_, Or.inl (and_assoc.1 ⟨hw', rfl⟩)⟩
        rintro (⟨-, hf, -⟩ | ⟨-, -, hf⟩)
        · bv_omega
        · cases hf
    change shown (q.comb _) = (ItchRegs.sideOf (byteAt _ 21)).map _
    simp only [ItchRegs.comb, wordAt_ipDataV, if_true, h.state, ItchRegs.onAdd, if_neg hwin.1,
      if_pos hwin.2, h.field hS hw o 128 32 22 26 (by omega), h.field hS hw o 32 32 34 38 (by omega),
      h.field hS hw o 160 8 21 22 (by omega), hmsg, byteAt]
    generalize ItchRegs.sideOf _ = side
    cases side with
    | none => rfl
    | some isBuy =>
      rw [← toNat_field msg (show 8 * (21 - 13) ≤ 64 by omega), ← hl.orderId,
        ← toNat_field msg (show 8 * (26 - 22) ≤ 32 by omega),
        ← toNat_field msg (show 8 * (38 - 34) ≤ 32 by omega)]
      exact (shown_book _ _ _).trans (congrArg some (ofBook_matched hl))

/-- Case `EXECUTE`: the windows of the alternative form come two words later. -/
theorem execute_run (hS : S.length % 4 = 0) (h : InMsg S e .execute alt n q) {lo : ℕ}
    (hlo : lo = if alt then 0 else 8) (he : e = o + 25 + lo) (hn : n ≤ o + 7) :
    Sends S loc n q e (decodeBody loc (slice S o e) .execute) := by
  generalize hmsg : slice S o e = msg
  apply h.two_windows loc hS (by decide) lo msg (fun id => id = bits 64 (slice msg 13 21))
    (by cases alt <;> subst hlo <;> rfl) (by omega)
  · intro l hl hq
    cases alt <;> subst hlo <;> simp only [QuietAt, Bool.false_eq_true, if_false, if_true] at hq ⊢ <;>
      omega
  · intro n q h hw
    have hwin : (q.bytesLeft < 0x9 ∧ q.bytesLeft > 0x4 ∧ q.msgAlt) ∨
        (q.bytesLeft < 0x11 ∧ q.bytesLeft > 0xC ∧ !q.msgAlt) := by
      rw [h.alt]
      cases alt <;> subst hlo
      · exact Or.inr (and_assoc.1 ⟨h.window hw rfl rfl, rfl⟩)
      · exact Or.inl (and_assoc.1 ⟨h.window hw rfl rfl, rfl⟩)
    refine h.matched _ (bits 64 (slice msg 13 21)) rfl ?_
    simp only [ItchRegs.comb, wordAt_ipDataV, if_true, h.state, ItchRegs.onExecute, if_pos hwin,
      h.field hS hw o 32 64 13 21 (by omega), h.field hS hw o 160 16 3 5 (by omega), hmsg]
  · intro n q h hw hl
    have hwin : ¬ ((q.bytesLeft < 0x9 ∧ q.bytesLeft > 0x4 ∧ q.msgAlt) ∨
          (q.bytesLeft < 0x11 ∧ q.bytesLeft > 0xC ∧ !q.msgAlt)) ∧
        ((q.bytesLeft < 0x5 ∧ q.bytesLeft > 0x0 ∧ q.msgAlt) ∨
          (q.bytesLeft < 0xD ∧ q.bytesLeft > 0x8 ∧ !q.msgAlt)) := by
      rw [h.alt]
      cases alt <;> subst hlo
      · have hw' : q.bytesLeft < 0xD ∧ q.bytesLeft > 0x8 := h.window hw rfl rfl
        refine ⟨?_, Or.inr (and_assoc.1 ⟨hw', rfl⟩)⟩
        rintro (⟨-, -, hf⟩ | ⟨-, hf, -⟩)
        · cases hf
        · bv_omega
      · have hw' : q.bytesLeft < 0x5 ∧ q.bytesLeft > 0x0 := h.window hw rfl rfl
        refine ⟨?_, Or.inl (and_assoc.1 ⟨hw', rfl⟩)⟩
        rintro (⟨-, hf, -⟩ | ⟨-, -, hf⟩)
        · bv_omega
        · cases hf
    change shown (q.comb _) = some (ifMatch loc msg _)
    simp only [ItchRegs.comb, wordAt_ipDataV, if_true, h.state, ItchRegs.onExecute, if_neg hwin.1,
      if_pos hwin.2, h.field hS hw o 32 32 21 25 (by omega), hmsg]
    rw [← toNat_field msg (show 8 * (21 - 13) ≤ 64 by omega), ← hl.orderId,
      ← toNat_field msg (show 8 * (25 - 21) ≤ 32 by omega)]
    exact (shown_book _ _ _).trans (congrArg some (ofBook_matched hl))

theorem executeP_run (hS : S.length % 4 = 0) (h : InMsg S e .executeP alt n q) (he : e = o + 38)
    (hn : n ≤ o + 7) : Sends S loc n q e (decodeBody loc (slice S o e) .executeP) := by
  generalize hmsg : slice S o e = msg
  apply h.two_windows loc hS (by decide) 12 msg (fun id => id = bits 64 (slice msg 13 21)) rfl
    (by omega) (fun l _ hq => hq)
  · intro n q h hw
    have hwin : q.bytesLeft < 0x15 ∧ q.bytesLeft > 0x10 := h.window hw rfl rfl
    refine h.matched _ (bits 64 (slice msg 13 21)) rfl ?_
    simp only [ItchRegs.comb, wordAt_ipDataV, if_true, h.state, ItchRegs.onExecuteP, if_pos hwin,
      h.field hS hw o 40 64 13 21 (by omega), h.field hS hw o 168 16 3 5 (by omega), hmsg]
  · intro n q h hw hl
    have hwin : q.bytesLeft < 0x11 ∧ q.bytesLeft > 0xC := h.window hw rfl rfl
    have hwin' : ¬ (q.bytesLeft < 0x15 ∧ q.bytesLeft > 0x10) := by
      rintro ⟨-, hf⟩
      bv_omega
    change shown (q.comb _) = some (ifMatch loc msg _)
    simp only [ItchRegs.comb, wordAt_ipDataV, if_true, h.state, ItchRegs.onExecuteP, if_neg hwin',
      if_pos hwin, h.field hS hw o 40 32 21 25 (by omega), hmsg]
    rw [← toNat_field msg (show 8 * (21 - 13) ≤ 64 by omega), ← hl.orderId,
      ← toNat_field msg (show 8 * (25 - 21) ≤ 32 by omega)]
    exact (shown_book _ _ _).trans (congrArg some (ofBook_matched hl))

/-- A delete goes through the extra stage. -/
theorem shown_del (q : ItchRegs) (i : ItchIn) (hasRep : Bool) (orderId : BitVec 64) (d : DecBook) :
    shown { q.count i with
      decBook := { (q.count i).decBook with orderId, hasRep }, decBookDel := d } = some (ofBook d) :=
  rfl

theorem delete_run (hS : S.length % 4 = 0) (h : InMsg S e .delete alt n q) (he : e = o + 21)
    (hn : n ≤ o + 7) : Sends S loc n q e (decodeBody loc (slice S o e) .delete) := by
  generalize hmsg : slice S o e = msg
  apply h.two_windows loc hS (by decide) 0 msg (fun _ => True) rfl (by omega)
  · intro l hl hq
    change 8 < l
    omega
  · intro n q h hw
    have hwin : q.bytesLeft < 0x9 ∧ q.bytesLeft > 0x4 := h.window hw rfl rfl
    refine h.matched _ (q.count (wordAt S loc n)).decBook.orderId trivial ?_
    simp only [ItchRegs.comb, wordAt_ipDataV, if_true, h.state, ItchRegs.onDelete, if_pos hwin,
      h.field hS hw o 128 16 3 5 (by omega), hmsg]
  · intro n q h hw hl
    have hwin : q.bytesLeft < 0x5 ∧ q.bytesLeft > 0x0 := h.window hw rfl rfl
    have hwin' : ¬ (q.bytesLeft < 0x9 ∧ q.bytesLeft > 0x4) := by
      rintro ⟨-, hf⟩
      bv_omega
    change shown (q.comb _) = some (ifMatch loc msg _)
    simp only [ItchRegs.comb, wordAt_ipDataV, if_true, h.state, ItchRegs.onDelete, if_neg hwin',
      if_pos hwin, h.field hS hw o 32 64 13 21 (by omega), hmsg]
    rw [← toNat_field msg (show 8 * (21 - 13) ≤ 64 by omega)]
    exact (shown_del _ _ _ _ _).trans (congrArg some (ofBook_matched hl))

theorem ifMatch_append (loc : BitVec 16) (msg : List Byte) (a b : List Decoded) :
    ifMatch loc msg a ++ ifMatch loc msg b = ifMatch loc msg (a ++ b) := by
  unfold ifMatch
  split_ifs
  · rfl
  · rfl

/-! ### Case `REPLACE`

The first two windows send the delete, the last two the replace. -/

section Replace

variable {msg : List Byte}

theorem InMsg.comb_replace (h : InMsg S e .replace alt n q) :
    q.comb (wordAt S loc n) = q.onReplace (wordAt S loc n) (q.count (wordAt S loc n)) := by
  simp only [ItchRegs.comb, wordAt_ipDataV, if_true, h.state]

variable (loc) in
theorem replace_match (hS : S.length % 4 = 0) (h : InMsg S e .replace alt n q) (he : e = o + 37)
    (hmsg : slice S o e = msg) (hw : Window 20 (e - n)) :
    itchCore.out q (wordAt S loc n) = some [] ∧
      Latched loc msg (fun _ => True) (itchCore.next q (wordAt S loc n)) := by
  have hwin : q.bytesLeft < 0x19 ∧ q.bytesLeft > 0x14 := h.window hw rfl rfl
  refine h.matched _ (q.count (wordAt S loc n)).decBook.orderId trivial ?_
  simp only [ItchRegs.comb, wordAt_ipDataV, if_true, h.state, ItchRegs.onReplace, if_pos hwin,
    h.field hS hw o 128 16 3 5 (by omega), hmsg]

theorem replace_del (hS : S.length % 4 = 0) (h : InMsg S e .replace alt n q) (he : e = o + 37)
    (hmsg : slice S o e = msg) (hw : Window 16 (e - n)) (hl : Latched loc msg (fun _ => True) q) :
    itchCore.out q (wordAt S loc n) =
        some (ifMatch loc msg [.delete true (fromBytes (slice msg 13 21))]) ∧
      (itchCore.next q (wordAt S loc n)).matchLocate = q.matchLocate := by
  have hwin : q.bytesLeft < 0x15 ∧ q.bytesLeft > 0x10 := h.window hw rfl rfl
  have hwin' : ¬ (q.bytesLeft < 0x19 ∧ q.bytesLeft > 0x14) := by
    rintro ⟨-, hf⟩
    bv_omega
  have hcomb : q.comb (wordAt S loc n) = _ := h.comb_replace
  rw [ItchRegs.onReplace, if_neg hwin', if_pos hwin, h.field hS hw o 32 64 13 21 (by omega),
    hmsg] at hcomb
  constructor
  · change shown (q.comb _) = _
    rw [hcomb, ← toNat_field msg (show 8 * (21 - 13) ≤ 64 by omega)]
    exact (shown_del _ _ _ _ _).trans (congrArg some (ofBook_matched hl))
  · exact congrArg ItchRegs.Comb.matchLocate hcomb

variable (loc) in
theorem replace_latch (hS : S.length % 4 = 0) (h : InMsg S e .replace alt n q) (he : e = o + 37)
    (hmsg : slice S o e = msg) (hw : Window 4 (e - n)) :
    itchCore.out q (wordAt S loc n) = some [] ∧
      (itchCore.next q (wordAt S loc n)).matchLocate = q.matchLocate ∧
      (itchCore.next q (wordAt S loc n)).decBook.orderId = bits 64 (slice msg 21 29) := by
  have hwin : q.bytesLeft < 0x9 ∧ q.bytesLeft > 0x4 := h.window hw rfl rfl
  have hwin1 : ¬ (q.bytesLeft < 0x19 ∧ q.bytesLeft > 0x14) := by
    rintro ⟨-, hf⟩
    bv_omega
  have hwin2 : ¬ (q.bytesLeft < 0x15 ∧ q.bytesLeft > 0x10) := by
    rintro ⟨-, hf⟩
    bv_omega
  have hcomb : q.comb (wordAt S loc n) = _ := h.comb_replace
  rw [ItchRegs.onReplace, if_neg hwin1, if_neg hwin2, if_pos hwin,
    h.field hS hw o 64 64 21 29 (by omega), hmsg] at hcomb
  refine ⟨?_, ?_, ?_⟩
  · change shown (q.comb _) = _
    rw [hcomb]
    rfl
  · exact congrArg ItchRegs.Comb.matchLocate hcomb
  · rw [next_orderId h.del, hcomb]
    rfl

theorem replace_send (hS : S.length % 4 = 0) (h : InMsg S e .replace alt n q) (he : e = o + 37)
    (hmsg : slice S o e = msg) (hw : Window 0 (e - n))
    (hl : Latched loc msg (fun id => id = bits 64 (slice msg 21 29)) q) :
    itchCore.out q (wordAt S loc n) = some (ifMatch loc msg
      [.replace false (fromBytes (slice msg 21 29)) (fromBytes (slice msg 29 33))
        (fromBytes (slice msg 33 37))]) := by
  have hwin : q.bytesLeft < 0x5 ∧ q.bytesLeft > 0x0 := h.window hw rfl rfl
  have hwin1 : ¬ (q.bytesLeft < 0x19 ∧ q.bytesLeft > 0x14) := by
    rintro ⟨-, hf⟩
    bv_omega
  have hwin2 : ¬ (q.bytesLeft < 0x15 ∧ q.bytesLeft > 0x10) := by
    rintro ⟨-, hf⟩
    bv_omega
  have hwin3 : ¬ (q.bytesLeft < 0x9 ∧ q.bytesLeft > 0x4) := by
    rintro ⟨-, hf⟩
    bv_omega
  change shown (q.comb _) = _
  rw [h.comb_replace, ItchRegs.onReplace, if_neg hwin1, if_neg hwin2, if_neg hwin3, if_pos hwin]
  simp only [h.field hS hw o 64 32 29 33 (by omega), h.field hS hw o 32 32 33 37 (by omega), hmsg]
  rw [← toNat_field msg (show 8 * (29 - 21) ≤ 64 by omega), ← hl.orderId,
    ← toNat_field msg (show 8 * (33 - 29) ≤ 32 by omega),
    ← toNat_field msg (show 8 * (37 - 33) ≤ 32 by omega)]
  exact (shown_book _ _ _).trans (congrArg some (ofBook_matched hl))

theorem replace_run (hS : S.length % 4 = 0) (h : InMsg S e .replace alt n q) (he : e = o + 37)
    (hn : n ≤ o + 7) : Sends S loc n q e (decodeBody loc (slice S o e) .replace) := by
  have hst : IpState.replace ≠ .idle := by decide
  obtain ⟨n1, q1, s1, h1, hlo1, hhi1, -⟩ := h.hold_to loc hst 20 (by omega) rfl
    fun l hl hl' => ⟨by omega, by omega⟩
  obtain ⟨out1, hl1⟩ := replace_match loc hS h1 he rfl ⟨rfl, hlo1, hhi1⟩
  have h2 := h1.more loc hst (by omega)
  obtain ⟨out2, hm2⟩ := replace_del hS h2 he rfl ⟨rfl, by omega, by omega⟩ hl1
  have h3 := h2.more loc hst (by omega)
  obtain ⟨n4, q4, s4, h4, hlo4, hhi4, hk4⟩ := h3.hold_to loc hst 4 (by omega) rfl
    fun l hl hl' => ⟨by omega, by omega⟩
  obtain ⟨out4, hm4, hid4⟩ := replace_latch loc hS h4 he rfl ⟨rfl, hlo4, hhi4⟩
  have h5 := h4.more loc hst (by omega)
  have hl5 : Latched loc (slice S o e) (fun id => id = bits 64 (slice (slice S o e) 21 29)) _ :=
    ⟨hm4.trans (hk4.matchLocate.trans (hm2.trans hl1.matchLocate)), hid4⟩
  have out5 := replace_send hS h5 he rfl ⟨rfl, by omega, by omega⟩ hl5
  have s := s1.silent_trans ((Steps.single out1).silent_trans ((Steps.single out2).trans
    (s4.silent_trans ((Steps.single out4).silent_trans (Steps.single out5)))))
  rw [Option.bind_some, Option.map_some, ifMatch_append] at s
  exact ⟨_, _, s, h5.last loc hst (h5.room hS) (by omega)⟩

end Replace

theorem ignore_run (hS : S.length % 4 = 0) (h : InMsg S e .ignore alt n q) :
    Sends S loc n q e (decodeBody loc (slice S o e) .ignore) :=
  h.finish loc hS fun _ _ _ => trivial

/-! ### The start of a message -/

namespace AtStart

theorem shift_eq (h : AtStart S o n q) (hn : n < S.length) : shift q = o + 4 - n := by
  have hle := h.le
  have hlt := h.lt
  have hleft := h.left
  rw [if_neg (by omega)] at hleft
  rw [shift]
  split_ifs <;> omega

variable (loc)

/-- The length field and the type, in the first word with a type. -/
theorem line_fields (h : AtStart S o n q) (hS : S.length % 4 = 0) (hn : n < S.length) :
    (q.lineShifted (wordAt S loc n)).extractLsb' 48 16 = bits 16 (slice S o (o + 2)) ∧
      (q.lineShifted (wordAt S loc n)).extractLsb' 40 8 = byteAt S (o + 2) := by
  have h4 := h.reads.aligned
  have hle := h.le
  have hlt := h.lt
  have hshift := h.shift_eq hn
  constructor
  · exact line_field h.reads (by omega) 6 2 rfl rfl (by omega) (by omega) (by omega)
  · exact line_field h.reads (by omega) 5 1 rfl rfl (by omega) (by omega) (by omega)

/-- **A message begins.** The type is in the table and the length is as there, or it is an error. -/
theorem begins (h : AtStart S o n q) (hS : S.length % 4 = 0) (hn : n < S.length) :
    itchCore.out q (wordAt S loc n) = some [] ∧
        (∃ len alt st, ItchRegs.idleTable (byteAt S (o + 2)) = some (len, alt, st) ∧
          bits 16 (slice S o (o + 2)) = len) ∨
      itchCore.out q (wordAt S loc n) = none ∧
        ∀ len alt st, ItchRegs.idleTable (byteAt S (o + 2)) = some (len, alt, st) →
          bits 16 (slice S o (o + 2)) ≠ len := by
  obtain ⟨hlen, htype⟩ := h.line_fields loc hS hn
  have hcomb : q.comb (wordAt S loc n) = q.onIdle (wordAt S loc n) := by
    simp only [ItchRegs.comb, wordAt_ipDataV, if_true, h.state]
  change shown (q.comb _) = _ ∧ _ ∨ shown (q.comb _) = _ ∧ _
  rw [hcomb, ItchRegs.onIdle, hlen, htype]
  rcases ItchRegs.idleTable (byteAt S (o + 2)) with - | ⟨len, alt, st⟩
  · exact Or.inr ⟨rfl, by rintro len alt st ⟨⟩⟩
  · by_cases heq : bits 16 (slice S o (o + 2)) = len
    · refine Or.inl ⟨?_, len, alt, st, rfl, heq⟩
      rw [heq]
      simp [shown, ItchRegs.Comb.ipError, ItchRegs.hold, fresh, ofCtrl, ofBook, DecBook.zero]
    · refine Or.inr ⟨?_, ?_⟩
      · simp [shown, ItchRegs.Comb.ipError, heq]
      · rintro len' alt' st' ⟨⟩
        exact heq

/-- The parser is then in the case of its type, whatever the length. -/
theorem enter (h : AtStart S o n q) (hS : S.length % 4 = 0) {len : BitVec 16} {alt : Bool}
    {st : IpState} (htable : ItchRegs.idleTable (byteAt S (o + 2)) = some (len, alt, st)) {l : ℕ}
    (hl : fromBytes (slice S o (o + 2)) = l) (h6 : 6 ≤ l) (h254 : l ≤ 254)
    (he : o + 2 + l ≤ S.length) :
    InMsg S (o + 2 + l) st alt (n + 4) (itchCore.next q (wordAt S loc n)) := by
  have h4 := h.reads.aligned
  have hle := h.le
  have hlt := h.lt
  have hn : n < S.length := by omega
  have hleft := h.left
  rw [if_neg (by omega)] at hleft
  obtain ⟨hlen', htype⟩ := h.line_fields loc hS hn
  have hcomb : q.comb (wordAt S loc n) = q.onIdle (wordAt S loc n) := by
    simp only [ItchRegs.comb, wordAt_ipDataV, if_true, h.state]
  rw [ItchRegs.onIdle, hlen', htype, htable] at hcomb
  refine ⟨h.reads.next (by omega), ?_, ?_, rfl, ?_, by omega, he⟩
  · exact congrArg ItchRegs.Comb.state hcomb
  · exact congrArg ItchRegs.Comb.msgAlt hcomb
  · change (q.comb _).bytesLeft.toNat = _
    rw [hcomb]
    have hlow : ((bits 16 (slice S o (o + 2))).extractLsb' 0 8).toNat = l := by
      rw [BitVec.extractLsb'_toNat, Nat.shiftRight_zero, toNat_field S (by omega), hl]
      omega
    have htwo : (q.bytesLeft.extractLsb' 0 2).toNat = (o + 4 - n) % 4 := by
      rw [BitVec.extractLsb'_toNat, Nat.shiftRight_zero]
      exact hleft
    dsimp only
    rw [htwo]
    generalize (bits 16 (slice S o (o + 2))).extractLsb' 0 8 = low at hlow
    obtain ⟨k, hk⟩ := Nat.exists_eq_add_of_le hle
    have hk4 : k < 4 := by omega
    interval_cases k
    · rw [show (o + 4 - n) % 4 = 0 by omega]
      bv_omega
    · rw [show (o + 4 - n) % 4 = 3 by omega]
      bv_omega
    · rw [show (o + 4 - n) % 4 = 2 by omega]
      bv_omega
    · rw [show (o + 4 - n) % 4 = 1 by omega]
      bv_omega

end AtStart

/-! ### A whole message -/

/-- What the table says of the length of a message that the case `st` reads. -/
def BodyLen (len : BitVec 16) (alt : Bool) : IpState → Prop
  | .idle => False
  | .sysEvent => len = 12
  | .directory => len = 39
  | .tradingAction => len = 25
  | .opHalt => len = 21
  | .add => len = if alt then 40 else 36
  | .execute => len = if alt then 23 else 31
  | .executeP => len = 36
  | .delete => len = 19
  | .replace => len = 35
  | .ignore => True

theorem idleTable_spec {b : BitVec 8} {len : BitVec 16} {alt : Bool} {st : IpState}
    (h : ItchRegs.idleTable b = some (len, alt, st)) :
    (12 ≤ len.toNat ∧ len.toNat ≤ 50) ∧ BodyLen len alt st := by
  rw [ItchRegs.idleTable] at h
  split at h <;> cases h <;> exact ⟨by decide, by first | rfl | trivial⟩

theorem body_run (hS : S.length % 4 = 0) {st : IpState} {len : BitVec 16}
    (h : InMsg S e st alt n q) (hlen : BodyLen len alt st) (he : e = o + 2 + len.toNat)
    (hn : n ≤ o + 7) : Sends S loc n q e (decodeBody loc (slice S o e) st) := by
  cases st with
  | idle => cases hlen
  | sysEvent =>
    obtain rfl := hlen
    exact sysEvent_run hS h he hn
  | directory =>
    obtain rfl := hlen
    exact directory_run hS h he hn
  | tradingAction =>
    obtain rfl := hlen
    exact tradingAction_run hS h he hn
  | opHalt =>
    obtain rfl := hlen
    exact opHalt_run hS h he hn
  | add =>
    obtain rfl := hlen
    refine add_run hS h rfl ?_ hn
    cases alt <;> exact he
  | execute =>
    obtain rfl := hlen
    refine execute_run hS h rfl ?_ hn
    cases alt <;> exact he
  | executeP =>
    obtain rfl := hlen
    exact executeP_run hS h he hn
  | delete =>
    obtain rfl := hlen
    exact delete_run hS h he hn
  | replace =>
    obtain rfl := hlen
    exact replace_run hS h he hn
  | ignore => exact ignore_run hS h

/-- **A whole message.** An ignored one may have another length, which is an error but is counted. -/
theorem message_run (loc) (hS : S.length % 4 = 0) (h : AtStart S o n q) {len : BitVec 16}
    {st : IpState} (htable : ItchRegs.idleTable (byteAt S (o + 2)) = some (len, alt, st)) {l : ℕ}
    (hl : fromBytes (slice S o (o + 2)) = l) (hlen : l = len.toNat ∨ st = .ignore ∧ 6 ≤ l ∧ l ≤ 254)
    (he : e = o + 2 + l) (hle : e ≤ S.length) :
    Sends S loc n q e (decodeMsg loc (slice S o e)) := by
  obtain ⟨⟨h12, h50⟩, hbody⟩ := idleTable_spec htable
  have hnlt := h.lt
  have hl6 : 6 ≤ l ∧ l ≤ 254 := by
    rcases hlen with rfl | ⟨-, h6, h254⟩
    · omega
    · exact ⟨h6, h254⟩
  have hmsg : decodeMsg loc (slice S o e) =
      if l ≠ len.toNat then none else decodeBody loc (slice S o e) st := by
    rw [decodeMsg, byteAt, Ref.slice_slice S (by omega), Ref.slice_slice S (by omega),
      show o + (2 + 1) = o + 2 + 1 from rfl, ← byteAt, htable, Nat.add_zero]
    simp only [hl]
  have henter := h.enter loc hS htable hl hl6.1 hl6.2 (by omega)
  subst he
  have hbits : bits 16 (slice S o (o + 2)) = len ↔ l = len.toNat := by
    rw [BitVec.toNat_eq, toNat_field S (by omega), hl]
  rw [hmsg]
  by_cases hcase : l = len.toNat
  · rw [if_neg (not_not.2 hcase)]
    obtain ⟨hout, -⟩ | ⟨-, hne⟩ := h.begins loc hS (by omega)
    · exact (Steps.single hout).sends loc (body_run hS henter hbody (by rw [hcase]) (by omega))
    · exact absurd (hbits.2 hcase) (hne len alt st htable)
  · obtain ⟨rfl, -⟩ := hlen.resolve_left hcase
    rw [if_pos hcase]
    obtain ⟨-, len', alt', st', htable', hlen'⟩ | ⟨hout, -⟩ := h.begins loc hS (by omega)
    · rw [htable] at htable'
      cases htable'
      exact absurd (hbits.1 hlen') hcase
    · obtain ⟨n', q', hs, hstart⟩ := henter.finish loc hS fun _ _ _ => trivial
      exact ⟨n', q', (Steps.single hout).trans hs, hstart⟩

end Cases

end ItchOrderBook.Decode
