import ItchOrderBook.Decode.Line

/-!
# One message, word by word

Positions are those of `Line.lean`: the message being read ends at position `e`, and
`bytes_left_q` is what is missing of it before the next word, so that the window a case waits for
is a range of `e - n`. Between its windows a case does nothing (`hold_to`); at a window its fields
are slices of the message (`InMsg.field`). A case has one window (`one_window`) or two that are one
word apart (`two_windows`).
-/

namespace ItchOrderBook.Decode

open Ref (Byte slice fromBytes)
open Rtl (DecCtrl DecBook ItchIn ItchOut ItchRegs IpState)

/-! ### What a message decodes to -/

/-- The byte at position `i`. -/
def byteAt (msg : List Byte) (i : ℕ) : BitVec 8 := bits 8 (slice msg i (i + 1))

/-- The book messages are kept if the stock locate matches. -/
def ifMatch (loc : BitVec 16) (msg : List Byte) (out : List Decoded) : List Decoded :=
  if bits 16 (slice msg 3 5) = loc then out else []

/-- What the case `st` sends for a message, unless a code is invalid. -/
def decodeBody (loc : BitVec 16) (msg : List Byte) : IpState → Option (List Decoded)
  | .idle => none
  | .sysEvent => (ItchRegs.eventCodeOf (byteAt msg 13)).map fun code => [.event (eventCode code)]
  | .directory => some [.directory (fromBytes (slice msg 3 5)) (bits 64 (slice msg 13 21))]
  | .tradingAction => (ItchRegs.tradeActionOf (byteAt msg 21)).map fun code =>
    [.action (fromBytes (slice msg 3 5)) (bits 64 (slice msg 13 21)) (tradeAction code)]
  | .opHalt => (ItchRegs.marketOf (byteAt msg 21)).bind fun code =>
    (ItchRegs.haltOf (byteAt msg 22)).map fun isHalt =>
      [.halt (fromBytes (slice msg 3 5)) (bits 64 (slice msg 13 21)) (market code) isHalt]
  | .add => (ItchRegs.sideOf (byteAt msg 21)).map fun isBuy => ifMatch loc msg
    [.add false (fromBytes (slice msg 13 21)) isBuy (fromBytes (slice msg 22 26))
      (fromBytes (slice msg 34 38))]
  | .execute | .executeP => some (ifMatch loc msg
    [.reduce false (fromBytes (slice msg 13 21)) (fromBytes (slice msg 21 25))])
  | .delete => some (ifMatch loc msg [.delete false (fromBytes (slice msg 13 21))])
  | .replace => some (ifMatch loc msg
    [.delete true (fromBytes (slice msg 13 21)), .replace false (fromBytes (slice msg 21 29))
      (fromBytes (slice msg 29 33)) (fromBytes (slice msg 33 37))])
  | .ignore => some []

/-- What the RTL sends for a message, unless it raises an error. -/
def decodeMsg (loc : BitVec 16) (msg : List Byte) : Option (List Decoded) :=
  match ItchRegs.idleTable (byteAt msg 2) with
  | none => none
  | some (len, _, st) =>
    if fromBytes (slice msg 0 2) ≠ len.toNat then none else decodeBody loc msg st

/-! ### Positions -/

/-- The parser waits for the message at position `o`, after `n` bytes. -/
structure AtStart (S : List Byte) (o n : ℕ) (q : ItchRegs) : Prop where
  reads : Reads S n q
  state : q.state = .idle
  del : q.decBookDel.valid = false
  le : o ≤ n
  lt : n < o + 4
  left : if n = S.length then q.bytesLeft = 0 else q.bytesLeft.toNat % 4 = (o + 4 - n) % 4

/-- The parser is in the case `st`, in a message that ends at position `e`, after `n` bytes. -/
structure InMsg (S : List Byte) (e : ℕ) (st : IpState) (alt : Bool) (n : ℕ) (q : ItchRegs) :
    Prop where
  reads : Reads S n q
  state : q.state = st
  alt : q.msgAlt = alt
  del : q.decBookDel.valid = false
  left : q.bytesLeft.toNat = e - n
  lt : n < e
  le : e ≤ S.length

/-- The words of `S` from position `n` on. -/
def words (S : List Byte) (loc : BitVec 16) : ℕ → ℕ → List ItchIn
  | _, 0 => []
  | n, c + 1 => wordAt S loc n :: words S loc (n + 4) c

/-- From position `n` to position `n'`, the parser sends `out`. -/
def Steps (S : List Byte) (loc : BitVec 16) (n : ℕ) (q : ItchRegs) (n' : ℕ) (q' : ItchRegs)
    (out : Option (List Decoded)) : Prop :=
  ∃ c, n' = n + 4 * c ∧ itchCore.run q (words S loc n c) = q' ∧
    collect (itchCore.trace q (words S loc n c)) = out

section Steps

variable {S : List Byte} {loc : BitVec 16} {n n' n'' : ℕ} {q q' q'' : ItchRegs}
  {out out' : Option (List Decoded)}

theorem words_append (S : List Byte) (loc : BitVec 16) (n c c' : ℕ) :
    words S loc n (c + c') = words S loc n c ++ words S loc (n + 4 * c) c' := by
  induction c generalizing n with
  | zero => rw [Nat.zero_add]; rfl
  | succ c ih =>
    rw [Nat.succ_add, words, words, ih, show n + 4 + 4 * c = n + 4 * (c + 1) by omega]
    rfl

theorem Steps.refl : Steps S loc n q n q (some []) := ⟨0, rfl, rfl, rfl⟩

theorem Steps.single (h : itchCore.out q (wordAt S loc n) = out) :
    Steps S loc n q (n + 4) (itchCore.next q (wordAt S loc n)) out := by
  refine ⟨1, by omega, rfl, ?_⟩
  rw [words, words, Circuit.trace_cons, Circuit.trace_nil, h]
  cases out <;> simp

theorem Steps.trans (h : Steps S loc n q n' q' out) (h' : Steps S loc n' q' n'' q'' out') :
    Steps S loc n q n'' q'' (out.bind fun a => out'.map (a ++ ·)) := by
  obtain ⟨c, rfl, rfl, rfl⟩ := h
  obtain ⟨c', rfl, rfl, rfl⟩ := h'
  refine ⟨c + c', by omega, ?_, ?_⟩
  · rw [words_append, Circuit.run_append]
  · rw [words_append, Circuit.trace_append, collect_append]

/-- Steps that send nothing come before others unseen. -/
theorem Steps.silent_trans (h : Steps S loc n q n' q' (some []))
    (h' : Steps S loc n' q' n'' q'' out) : Steps S loc n q n'' q'' out := by
  have := h.trans h'
  rwa [Option.bind_some, show (fun a : List Decoded => [] ++ a) = id from rfl, Option.map_id, id]
    at this

/-- Steps that send nothing come after others unseen. -/
theorem Steps.trans_silent (h : Steps S loc n q n' q' out)
    (h' : Steps S loc n' q' n'' q'' (some [])) : Steps S loc n q n'' q'' out := by
  have := h.trans h'
  simpa using this

end Steps

/-! ### Reading on -/

/-- The word that is `l` bytes before the end of the message is the one that ends `lo` bytes before
it, or the first one behind. -/
structure Window (lo l : ℕ) : Prop where
  aligned : lo % 4 = 0
  lt : lo < l
  le : l ≤ lo + 4


namespace InMsg

variable {S : List Byte} (loc : BitVec 16) {e n : ℕ} {st : IpState} {alt : Bool} {q : ItchRegs}

/-- There is a word at every position inside a message. -/
theorem room (h : InMsg S e st alt n q) (hS : S.length % 4 = 0) : n + 4 ≤ S.length := by
  have h4 := h.reads.aligned
  have hlt := h.lt
  have hle := h.le
  omega

theorem more (h : InMsg S e st alt n q) (hst : st ≠ .idle) (hmore : n + 4 < e) :
    InMsg S e st alt (n + 4) (itchCore.next q (wordAt S loc n)) := by
  have hle := h.le
  have hleft := h.left
  obtain ⟨-, hb, ha, hs⟩ := comb_frame (i := wordAt S loc n) (q := q) rfl (by rw [h.state]; exact hst)
  have htlast : (wordAt S loc n).ipDataTlast = false := decide_eq_false (by omega)
  rw [htlast, if_neg Bool.false_ne_true] at hb
  rw [if_neg (by bv_omega), h.state] at hs
  refine ⟨h.reads.next (by omega), hs, ha.trans h.alt, rfl, ?_, hmore, hle⟩
  change (q.comb (wordAt S loc n)).bytesLeft.toNat = _
  rw [hb, BitVec.toNat_sub, hleft]
  have := q.bytesLeft.isLt
  rw [show (4 : BitVec 8).toNat = 4 from rfl]
  omega

theorem last (h : InMsg S e st alt n q) (hst : st ≠ .idle) (hn : n + 4 ≤ S.length)
    (hlast : e ≤ n + 4) : AtStart S e (n + 4) (itchCore.next q (wordAt S loc n)) := by
  have hlt := h.lt
  have hleft := h.left
  obtain ⟨-, hb, -, hs⟩ := comb_frame (i := wordAt S loc n) (q := q) rfl (by rw [h.state]; exact hst)
  rw [if_pos (by bv_omega)] at hs
  refine ⟨h.reads.next hn, hs, rfl, hlast, by omega, ?_⟩
  change if n + 4 = S.length then (q.comb (wordAt S loc n)).bytesLeft = 0
    else (q.comb (wordAt S loc n)).bytesLeft.toNat % 4 = _
  rw [hb]
  split_ifs with hend ht ht
  · rfl
  · exact absurd (decide_eq_true hend) ht
  · exact absurd (of_decide_eq_true ht) hend
  · rw [BitVec.toNat_sub, hleft, show (4 : BitVec 8).toNat = 4 from rfl]
    omega

/-- The comparisons of `bytes_left_q` that make out a window. -/
theorem window (h : InMsg S e st alt n q) {lo : ℕ} (hw : Window lo (e - n)) {a b : BitVec 8}
    (ha : a.toNat = lo + 5) (hb : b.toNat = lo) : q.bytesLeft < a ∧ q.bytesLeft > b := by
  have hleft := h.left
  have hlt := hw.lt
  have hle := hw.le
  exact ⟨by rw [BitVec.lt_def]; omega, by rw [gt_iff_lt, BitVec.lt_def]; omega⟩

variable {loc} in
/-- **A field in a window** is a slice of the message. -/
theorem field (h : InMsg S e st alt n q) (hS : S.length % 4 = 0) {lo : ℕ} (hw : Window lo (e - n))
    (o s k a b : ℕ) (hf : 32 ≤ s ∧ s + k ≤ 352 ∧ s % 8 = 0 ∧ k = 8 * (b - a) ∧ a ≤ b ∧
      o + b + s / 8 + lo = e + 4) :
    (q.lineShifted (wordAt S loc n)).extractLsb' s k = bits k (slice (slice S o e) a b) := by
  obtain ⟨h32, h352, hs, hk, hab, hb⟩ := hf
  obtain ⟨hmod, hlo, hhi⟩ := hw
  -- the word that is `lo + 1` to `lo + 4` bytes before the end is shifted to the same place
  have hshift : shift q = e - n - lo := by
    rw [shift, h.left]
    split_ifs <;> omega
  obtain ⟨c, rfl⟩ := Nat.exists_eq_add_of_le hab
  rw [line_field h.reads (h.room hS) (a := o + a) (s / 8) c (by omega) (by omega) (by omega)
    (by omega) (by omega), Ref.slice_slice S (by omega), Nat.add_assoc]

end InMsg

/-! ### Between the windows -/

/-- The case `st` does nothing with the word `l` bytes before the end of the message. -/
def QuietAt (alt : Bool) (l : ℕ) : IpState → Prop
  | .idle => False
  | .sysEvent | .opHalt => 4 < l
  | .directory => ¬ (20 < l ∧ l ≤ 24)
  | .tradingAction => ¬ (4 < l ∧ l ≤ 8)
  | .add => if alt then ¬ (4 < l ∧ l ≤ 12) else 8 < l
  | .execute => if alt then 8 < l else ¬ (8 < l ∧ l ≤ 16)
  | .executeP => ¬ (12 < l ∧ l ≤ 20)
  | .delete => 8 < l
  | .replace => ¬ (16 < l ∧ l ≤ 24) ∧ 8 < l
  | .ignore => True

theorem comb_of_quiet {q : ItchRegs} {i : ItchIn} (hi : i.ipDataV = true)
    (h : QuietAt q.msgAlt q.bytesLeft.toNat q.state) : q.comb i = q.count i := by
  rw [ItchRegs.comb, if_pos hi]
  cases hs : q.state <;> rw [hs] at h <;> simp only [QuietAt] at h
  case sysEvent =>
    exact if_neg (by bv_omega)
  case directory =>
    exact if_neg (by bv_omega)
  case tradingAction =>
    exact if_neg (by bv_omega)
  case opHalt =>
    exact if_neg (by bv_omega)
  case add =>
    cases ha : q.msgAlt <;> rw [ha] at h <;> simp only [ItchRegs.onAdd, ha] <;>
      simp only [Bool.false_eq_true, if_false, if_true, Bool.not_true, Bool.not_false, and_false,
        and_true, false_or, or_false] at h ⊢
    · rw [if_neg (by bv_omega), if_neg (by bv_omega)]
    · rw [if_neg (by bv_omega), if_neg (by bv_omega)]
  case execute =>
    cases ha : q.msgAlt <;> rw [ha] at h <;> simp only [ItchRegs.onExecute, ha] <;>
      simp only [Bool.false_eq_true, if_false, if_true, Bool.not_true, Bool.not_false, and_false,
        and_true, false_or, or_false] at h ⊢
    · rw [if_neg (by bv_omega), if_neg (by bv_omega)]
    · rw [if_neg (by bv_omega), if_neg (by bv_omega)]
  case executeP =>
    rw [ItchRegs.onExecuteP, if_neg (by bv_omega), if_neg (by bv_omega)]
  case delete =>
    rw [ItchRegs.onDelete, if_neg (by bv_omega), if_neg (by bv_omega)]
  case replace =>
    rw [ItchRegs.onReplace, if_neg (by bv_omega), if_neg (by bv_omega), if_neg (by bv_omega),
      if_neg (by bv_omega)]

/-- The order id kept by a word. -/
theorem next_orderId {q : ItchRegs} (hdel : q.decBookDel.valid = false) (i : ItchIn) :
    (itchCore.next q i).decBook.orderId =
      if (q.comb i).decBookDel.valid then (q.comb i).decBookDel.orderId
      else (q.comb i).decBook.orderId := latched_next hdel i

section Phases

variable {S : List Byte} (loc : BitVec 16) {e n : ℕ} {st : IpState} {alt : Bool} {q : ItchRegs}
  {out : Option (List Decoded)}

/-- What a case keeps for its later words. -/
structure Keeps (q q' : ItchRegs) : Prop where
  matchLocate : q'.matchLocate = q.matchLocate
  orderId : q'.decBook.orderId = q.decBook.orderId

/-- A word outside the windows. -/
theorem InMsg.hold (h : InMsg S e st alt n q) (hq : QuietAt alt (e - n) st) :
    itchCore.out q (wordAt S loc n) = some [] ∧
      Keeps q (itchCore.next q (wordAt S loc n)) := by
  have hcomb : q.comb (wordAt S loc n) = q.count (wordAt S loc n) := by
    apply comb_of_quiet rfl
    rw [h.alt, h.left, h.state]
    exact hq
  refine ⟨?_, congrArg ItchRegs.Comb.matchLocate hcomb, ?_⟩
  · change shown (q.comb _) = _
    rw [hcomb]
    rfl
  · rw [next_orderId h.del, hcomb]
    rfl

theorem QuietAt.ne_idle {l : ℕ} (h : QuietAt alt l st) : st ≠ .idle := by
  rintro rfl
  exact h

/-- Without windows ahead, the words are skipped up to the position `lo + 4` bytes before the end. -/
theorem InMsg.hold_to (h : InMsg S e st alt n q) (hst : st ≠ .idle) (lo : ℕ)
    (hlo : lo < e - n) (hmod : lo % 4 = 0) (hq : ∀ l, lo + 4 < l → l ≤ e - n → QuietAt alt l st) :
    ∃ n' q', Steps S loc n q n' q' (some []) ∧ InMsg S e st alt n' q' ∧ lo < e - n' ∧
      e - n' ≤ lo + 4 ∧ Keeps q q' := by
  induction hk : e - n using Nat.strong_induction_on generalizing n q with
  | _ k ih =>
    by_cases hnear : e - n ≤ lo + 4
    · exact ⟨n, q, Steps.refl, h, hlo, hnear, rfl, rfl⟩
    · obtain ⟨hout, hkeep⟩ := h.hold loc (hq _ (by omega) le_rfl)
      obtain ⟨n', q', hs, h', h1, h2, hkeep'⟩ := ih (e - (n + 4)) (by omega) (h.more loc hst (by omega))
        (by omega) (fun l hl hl' => hq l hl (by omega)) rfl
      exact ⟨n', q', (Steps.single hout).silent_trans hs, h', h1, h2,
        hkeep'.matchLocate.trans hkeep.matchLocate, hkeep'.orderId.trans hkeep.orderId⟩

/-- The parser sends `out` for the message that ends at `e`, and comes to the next one. -/
def Sends (S : List Byte) (loc : BitVec 16) (n : ℕ) (q : ItchRegs) (e : ℕ)
    (out : Option (List Decoded)) : Prop :=
  ∃ n' q', Steps S loc n q n' q' out ∧ AtStart S e n' q'

theorem Steps.sends {n' : ℕ} {q' : ItchRegs} (h : Steps S loc n q n' q' (some []))
    (h' : Sends S loc n' q' e out) : Sends S loc n q e out := by
  obtain ⟨n'', q'', hs, hstart⟩ := h'
  exact ⟨n'', q'', h.silent_trans hs, hstart⟩

/-- Without windows ahead, the message is skipped. -/
theorem InMsg.finish (hS : S.length % 4 = 0) (h : InMsg S e st alt n q)
    (hq : ∀ l, 0 < l → l ≤ e - n → QuietAt alt l st) :
    Sends S loc n q e (some []) := by
  have hlt := h.lt
  have hst := (hq (e - n) (by omega) le_rfl).ne_idle
  obtain ⟨n', q', hs, h', h1, h2, -⟩ := h.hold_to loc hst 0 (by omega) rfl
    fun l hl => hq l (by omega)
  obtain ⟨hout, -⟩ := h'.hold loc (hq _ (by omega) (by
    obtain ⟨c, hc, -⟩ := hs
    omega))
  exact ⟨n' + 4, _, hs.silent_trans (Steps.single hout), h'.last loc hst (h'.room hS) (by omega)⟩

/-- The word that sends the message, and the rest of it. -/
theorem InMsg.send (hS : S.length % 4 = 0) (h : InMsg S e st alt n q) (hst : st ≠ .idle)
    (lo : ℕ) (hhi : e - n ≤ lo + 4) (hout : itchCore.out q (wordAt S loc n) = out)
    (hq : ∀ l, 0 < l → l ≤ lo → QuietAt alt l st) :
    Sends S loc n q e out := by
  by_cases hlast : e ≤ n + 4
  · exact ⟨n + 4, _, Steps.single hout, h.last loc hst (h.room hS) hlast⟩
  · obtain ⟨n', q', hs, h'⟩ := (h.more loc hst (by omega)).finish loc hS
      fun l hl hl' => hq l hl (by omega)
    exact ⟨n', q', (Steps.single hout).trans_silent hs, h'⟩

/-- **A case with one window.** -/
theorem InMsg.one_window (hS : S.length % 4 = 0) (h : InMsg S e st alt n q) (hst : st ≠ .idle)
    (lo : ℕ) (hmod : lo % 4 = 0) (hlo : lo < e - n)
    (hq : ∀ l, 0 < l → ¬ (lo < l ∧ l ≤ lo + 4) → QuietAt alt l st)
    (hsend : ∀ n q, InMsg S e st alt n q → Window lo (e - n) →
      itchCore.out q (wordAt S loc n) = out) :
    Sends S loc n q e out := by
  obtain ⟨n1, q1, s1, h1, hlo1, hhi1, -⟩ := h.hold_to loc hst lo hlo hmod
    fun l hl _ => hq l (by omega) (by omega)
  exact s1.sends loc (h1.send loc hS hst lo hhi1 (hsend n1 q1 h1 ⟨hmod, hlo1, hhi1⟩)
    fun l hl hl' => hq l hl (by omega))

/-- What the last word of the book message `msg` needs from those before it. -/
structure Latched (loc : BitVec 16) (msg : List Byte) (known : BitVec 64 → Prop) (q : ItchRegs) :
    Prop where
  matchLocate : q.matchLocate = decide (bits 16 (slice msg 3 5) = loc)
  orderId : known q.decBook.orderId

/-- **A case with two windows**, one word apart: the stock locate is compared in the first one. -/
theorem InMsg.two_windows (hS : S.length % 4 = 0) (h : InMsg S e st alt n q) (hst : st ≠ .idle)
    (lo : ℕ) (msg : List Byte) (known : BitVec 64 → Prop) (hmod : lo % 4 = 0) (hlo : lo + 4 < e - n)
    (hq : ∀ l, 0 < l → ¬ (lo < l ∧ l ≤ lo + 8) → QuietAt alt l st)
    (hmatch : ∀ n q, InMsg S e st alt n q → Window (lo + 4) (e - n) →
      itchCore.out q (wordAt S loc n) = some [] ∧
        Latched loc msg known (itchCore.next q (wordAt S loc n)))
    (hsend : ∀ n q, InMsg S e st alt n q → Window lo (e - n) → Latched loc msg known q →
      itchCore.out q (wordAt S loc n) = out) :
    Sends S loc n q e out := by
  obtain ⟨n1, q1, s1, h1, hlo1, hhi1, -⟩ := h.hold_to loc hst (lo + 4) hlo (by omega)
    fun l hl _ => hq l (by omega) (by omega)
  obtain ⟨hout, hknown⟩ := hmatch n1 q1 h1 ⟨by omega, hlo1, hhi1⟩
  have h2 := h1.more loc hst (by omega)
  exact s1.sends loc ((Steps.single hout).sends loc (h2.send loc hS hst lo (by omega)
    (hsend _ _ h2 ⟨hmod, by omega, by omega⟩ hknown) fun l hl hl' => hq l hl (by omega)))

end Phases

end ItchOrderBook.Decode
