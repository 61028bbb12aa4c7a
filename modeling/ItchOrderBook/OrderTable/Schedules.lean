import ItchOrderBook.OrderTable.Bypass
import ItchOrderBook.OrderTable.Messages

/-!
# Schedules of messages to the order table

A schedule gives messages that are at least three cycles apart, each with the hash of its id in the two
cycles before it, in the first of which the table is ready (`Scheduled`). The write of a message is
under way for two cycles, and the memory is read two cycles before a message. So what counts as stored
includes the write that is under way (`stored`): idle cycles keep it (`stored_idle`), and a message sees
it (`line_read`). With the step of `message`, the table is a map up to its first error (`isMap_of_safe`).
-/

namespace ItchOrderBook.OrderTable

open Rtl (BookMsgType CamRegs DecBook L3In L3Line L3Out L3RamIn L3RamRegs L3Regs L3Word l3OrderTable)

/-! ### The table as a map -/

section Map

variable (q : L3Regs) (u : ℕ → L3In)

/-- The registers at the start of a cycle; the first one follows a reset. -/
def stateAt (t : ℕ) : L3Regs := l3OrderTable.state q.reset u t

/-- The outputs in a cycle. -/
def outAt (t : ℕ) : L3Out := l3OrderTable.out (stateAt q u t) (u t)

/-- The live orders after some cycles. -/
def livesFrom (m : Live) (u : ℕ → L3In) : ℕ → Live
  | 0 => m
  | t + 1 => if (u t).decBook.valid then (livesFrom m u t).after (u t).decBook else livesFrom m u t

theorem livesFrom_add (m : Live) (u : ℕ → L3In) (a b : ℕ) : livesFrom m u (a + b) =
    livesFrom (livesFrom m u a) (fun t => u (a + t)) b := by
  induction b with
  | zero => rfl
  | succ b ih => rw [← Nat.add_assoc, livesFrom, livesFrom, ih]

/-- The live orders at the start of a cycle. -/
def lives (t : ℕ) : Live := livesFrom ⟨fun _ => none, q.prevIsBuy⟩ u t

/-- There is no error in the cycles before. -/
def Silent (T : ℕ) : Prop := ∀ t < T, (outAt q u t).error = false

/-- The messages are at least three cycles apart and have fewer than `2 ^ 31` shares; in the two cycles
before a message its hash is given, and the table is ready in the first of them. -/
structure Scheduled : Prop where
  apart : ∀ t t', (u t).decBook.valid = true → (u t').decBook.valid = true → t < t' → t + 3 ≤ t'
  hashed : ∀ t, (u t).decBook.valid = true → ∃ n, t = n + 2 ∧ (outAt q u n).ready = true ∧
    (u n).oidHash = hash (u t).decBook.orderId ∧ (u (n + 1)).oidHash = hash (u t).decBook.orderId
  small : ∀ t, (u t).decBook.valid = true → (u t).decBook.shares.toNat < 2 ^ 31

/-- The message in a cycle is an error. -/
def FailsAt (t : ℕ) : Prop :=
  (lives q u t).Fails ((stateAt q u t).ram.ram.mem (hash (u t).decBook.orderId)) (stateAt q u t).cam.memArr
    (u t).decBook

/-- The table is a map, up to the first error: an error is raised for a message, in its cycle or in the
next one, exactly if the message is an error, and otherwise it is looked up in the next cycle. -/
structure IsMap : Prop where
  error : ∀ t, (u t).decBook.valid = true → Silent q u t →
    ((outAt q u t).error = true ∨ (outAt q u (t + 1)).error = true ↔ FailsAt q u t)
  lookup : ∀ t, (u t).decBook.valid = true → Silent q u (t + 2) →
    (outAt q u (t + 1)).lookup = (lives q u t).lookup (u t).decBook
  silent : ∀ t, (outAt q u t).error = true →
    (u t).decBook.valid = true ∨ ∃ n, t = n + 1 ∧ (u n).decBook.valid = true

end Map

/-! ### What is stored -/

/-- The lines and the slots, with the write that is under way. -/
def stored (q : L3Regs) : Store where
  mem := if q.ram.wea then Function.update q.ram.ram.mem q.ram.addra q.ram.dinaMod else q.ram.ram.mem
  slots := q.cam.memArrNext

section Cycles

variable {q : L3Regs} {i : L3In}

theorem comb_idle (hi : i.decBook.valid = false) : q.comb i.decBook = q.idle i.decBook := by
  rw [L3Regs.comb, hi]
  rfl

/-- After an idle cycle no write is under way. -/
theorem idle_next (hi : i.decBook.valid = false) : (q.next i).ram.wea = false ∧
    (q.next i).cam.wEn = false ∧ (q.next i).prevIsBuy = q.prevIsBuy := by
  have hcomb := comb_idle (q := q) hi
  exact ⟨congrArg (fun c => c.ramWea) hcomb, congrArg (fun c => c.camWEn) hcomb,
    congrArg (fun c => c.prevIsBuy) hcomb⟩

/-- In an idle cycle there is an error only for the write before. -/
theorem error_idle (hi : i.decBook.valid = false) : q.error i.decBook = q.cam.error := by
  rw [L3Regs.error, comb_idle hi]
  exact Bool.false_or _

theorem cam_error_of_wEn {c : CamRegs} (h : c.wEn = false) : c.error = false := by
  rw [CamRegs.error, h]
  rfl

theorem memArrNext_of_wEn {c : CamRegs} (h : c.wEn = false) : c.memArrNext = c.memArr := by
  rw [CamRegs.memArrNext, h]
  rfl

/-- The memory after the write that is under way. -/
theorem ram_next (i : L3In) (hr : q.ram.rstInProgress = false) : (q.next i).ram.ram.mem = (stored q).mem := by
  have hnext : (q.next i).ram.ram.mem = if (if q.ram.rstInProgress then true else q.ram.wea) then
      Function.update q.ram.ram.mem (if q.ram.rstInProgress then q.ram.count else q.ram.addra)
        q.ram.dinaNext else q.ram.ram.mem := rfl
  rw [hnext, L3RamRegs.dinaNext, hr]
  rfl

/-- **An idle cycle keeps what is stored.** -/
theorem stored_idle (hi : i.decBook.valid = false) (hr : q.ram.rstInProgress = false) :
    stored (q.next i) = stored q := by
  obtain ⟨hw, hc, -⟩ := idle_next (q := q) hi
  have hslots : (stored (q.next i)).slots = (stored q).slots := memArrNext_of_wEn hc
  have hmem : (stored (q.next i)).mem = (stored q).mem := by
    rw [stored, hw]
    exact ram_next i hr
  calc stored (q.next i) = ⟨(stored (q.next i)).mem, (stored (q.next i)).slots⟩ := rfl
    _ = ⟨(stored q).mem, (stored q).slots⟩ := by rw [hmem, hslots]

/-- What is stored where no write is under way. -/
theorem stored_eq (hw : q.ram.wea = false) (hc : q.cam.wEn = false) :
    stored q = ⟨q.ram.ram.mem, q.cam.memArr⟩ := by
  rw [stored, hw, memArrNext_of_wEn hc]
  rfl

/-- **A line is read with the write that is under way**, two cycles later. -/
theorem line_read (hr : q.ram.rstInProgress = false) (i' : L3In) :
    ((q.next i).next i').ram.doutb = (stored q).mem i.oidHash := by
  have hread : ((q.next i).next i').ram.doutb =
      if i.oidHash = q.ram.addra ∧ q.ram.wea then q.ram.dinaNext else q.ram.ram.mem i.oidHash := rfl
  rw [hread, L3RamRegs.dinaNext, hr, stored]
  cases q.ram.wea with
  | false => exact if_neg fun h => Bool.false_ne_true h.2
  | true =>
    by_cases ha : i.oidHash = q.ram.addra
    · rw [ha]
      simp
    · simp [ha]

/-- **A message is written to what is stored.** -/
theorem stored_next (hr : q.ram.rstInProgress = false)
    (hline : q.ram.doutb = (stored q).mem q.oidHash) :
    stored (q.next i) = (stored q).after q.oidHash (q.comb i.decBook) := by
  have hmem : (stored (q.next i)).mem = ((stored q).after q.oidHash (q.comb i.decBook)).mem := by
    rw [Store.after, ← hline, ← ram_next i hr]
    rfl
  have hslots : (stored (q.next i)).slots = ((stored q).after q.oidHash (q.comb i.decBook)).slots := rfl
  calc stored (q.next i) = ⟨(stored (q.next i)).mem, (stored (q.next i)).slots⟩ := rfl
    _ = _ := by rw [hmem, hslots]

end Cycles

/-! ### Runs -/

section Runs

variable {q : L3Regs} {u : ℕ → L3In}

theorem Silent.mono {T T' : ℕ} (h : Silent q u T') (hle : T ≤ T') : Silent q u T :=
  fun t ht => h t (ht.trans_le hle)

/-- The inputs of the memory in the table. -/
def ramInAt (q : L3Regs) (u : ℕ → L3In) (t : ℕ) : L3RamIn :=
  let q := stateAt q u t
  let c := q.comb (u t).decBook
  ⟨c.ramWea, q.oidHash, q.ram.doutb, c.wordIdx, c.writeWord, (u t).oidHash⟩

/-- The memory in the table. -/
theorem ram_state (q : L3Regs) (u : ℕ → L3In) (t : ℕ) :
    (stateAt q u t).ram = ramAt q.ram (ramInAt q u) t := by
  induction t with
  | zero => rfl
  | succ t ih =>
    have hnext : (stateAt q u (t + 1)).ram = (stateAt q u t).ram.next (ramInAt q u t) := rfl
    rw [hnext, ih]
    rfl

theorem ready_iff (t : ℕ) : (outAt q u t).ready = true ↔ 2048 ≤ t := by
  have hready : (outAt q u t).ready = (stateAt q u t).ram.rstDone := rfl
  rw [hready, ram_state]
  exact rstDone_iff q.ram (ramInAt q u) t

theorem swept {t : ℕ} (ht : 2048 ≤ t) : (stateAt q u t).ram.rstInProgress = false := by
  rw [ram_state]
  exact ((ram_countdown q.ram (ramInAt q u)).done ht).1

/-- The two cycles before a message. -/
theorem Scheduled.before (h : Scheduled q u) {t : ℕ} (hv : (u t).decBook.valid = true) : ∃ n,
    t = n + 2 ∧ 2048 ≤ n ∧ (u n).decBook.valid = false ∧ (u (n + 1)).decBook.valid = false ∧
      (u n).oidHash = hash (u t).decBook.orderId ∧ (u (n + 1)).oidHash = hash (u t).decBook.orderId := by
  obtain ⟨n, rfl, hready, h0, h1⟩ := h.hashed t hv
  have hidle : ∀ k, k < n + 2 → n ≤ k → (u k).decBook.valid = false := by
    intro k hlt hle
    by_contra hk
    have := h.apart k (n + 2) (by simpa using hk) hv hlt
    omega
  exact ⟨n, rfl, (ready_iff n).1 hready, hidle n (by omega) le_rfl,
    hidle (n + 1) (by omega) (by omega), h0, h1⟩

theorem Scheduled.idle (h : Scheduled q u) {t : ℕ} (ht : t < 2050) : (u t).decBook.valid = false := by
  by_contra hv
  obtain ⟨n, rfl, hn, -⟩ := h.before (by simpa using hv)
  omega

/-- Before the first message nothing is written but the sweep. -/
theorem Scheduled.fresh (h : Scheduled q u) {t : ℕ} (ht : t ≤ 2050) :
    (stateAt q u t).ram.wea = false ∧ (stateAt q u t).cam.wEn = false ∧
      (∀ s, ((stateAt q u t).cam.memArr s).valid = false) ∧
      (stateAt q u t).prevIsBuy = q.prevIsBuy ∧ lives q u t = ⟨fun _ => none, q.prevIsBuy⟩ := by
  induction t with
  | zero => exact ⟨rfl, rfl, fun _ => rfl, rfl, rfl⟩
  | succ t ih =>
    obtain ⟨-, hc, hslots, hside, hlives⟩ := ih (Nat.le_of_succ_le ht)
    have hi := h.idle (Nat.lt_of_succ_le ht)
    obtain ⟨hw', hc', hside'⟩ := idle_next hi
    refine ⟨hw', hc', fun s => ?_, hside'.trans hside, ?_⟩
    · have hnext : (stateAt q u (t + 1)).cam.memArr = (stateAt q u t).cam.memArrNext := rfl
      rw [hnext, memArrNext_of_wEn hc]
      exact hslots s
    · rw [lives, livesFrom, hi]
      exact hlives

/-- No error is raised apart from messages. -/
theorem silent_of_idle {t : ℕ} (hi : (u t).decBook.valid = false)
    (hprev : ∀ n, t = n + 1 → (u n).decBook.valid = false) : (outAt q u t).error = false := by
  have herr : (outAt q u t).error = (stateAt q u t).cam.error := error_idle hi
  have hwEn : (stateAt q u t).cam.wEn = false := by
    cases t with
    | zero => rfl
    | succ n => exact (idle_next (hprev n rfl)).2.1
  rw [herr, cam_error_of_wEn hwEn]

/-- An empty store holds no orders. -/
theorem stored_empty {mem : BitVec 11 → L3Line} {slots : Fin 8 → L3Word} (side : Bool)
    (hmem : ∀ a w, (mem a w).valid = false) (hslots : ∀ s, (slots s).valid = false) :
    Stored ⟨fun _ => none, side⟩ ⟨mem, slots⟩ := by
  have hway : ∀ a w, ¬ (mem a w).valid = true := fun a w => by simp [hmem a w]
  have hslot : ∀ s, ¬ (slots s).valid = true := fun s => by simp [hslots s]
  exact ⟨fun a w hv => absurd hv (hway a w), fun s hv => absurd hv (hslot s),
    fun _ hne => absurd rfl hne, fun a w _ hv => absurd hv (hway a w),
    fun s _ hv => absurd hv (hslot s), fun a w _ hv => absurd hv (hway a w),
    fun _ _ ho => absurd ho (by simp)⟩

/-- The table holds the live orders and the side of the order deleted last. -/
def Kept (q : L3Regs) (u : ℕ → L3In) (t : ℕ) : Prop :=
  Stored (lives q u t) (stored (stateAt q u t)) ∧
    (stateAt q u t).prevIsBuy = (lives q u t).lastSide

theorem Scheduled.kept_start (h : Scheduled q u) : Kept q u 2048 := by
  obtain ⟨hw, hc, hslots, hside, hlives⟩ := h.fresh (t := 2048) (by omega)
  rw [Kept, hlives, stored_eq hw hc]
  refine ⟨stored_empty _ (fun a w => ?_) hslots, hside⟩
  rw [ram_state, mem_swept]
  rfl

theorem kept_idle {t : ℕ} (ht : 2048 ≤ t) (hi : (u t).decBook.valid = false) (hk : Kept q u t) :
    Kept q u (t + 1) := by
  have hlives : lives q u (t + 1) = lives q u t := by
    rw [lives, livesFrom, hi]
    rfl
  rw [Kept, hlives]
  have hst : stored (stateAt q u (t + 1)) = stored (stateAt q u t) := stored_idle hi (swept ht)
  exact ⟨by rw [hst]; exact hk.1, (idle_next hi).2.2.trans hk.2⟩

/-- What a message finds: the table as it is stored. -/
theorem Scheduled.sees (h : Scheduled q u) {t : ℕ} (hv : (u t).decBook.valid = true) (hk : Kept q u t) :
    Sees (lives q u t) (stored (stateAt q u t)) (stateAt q u t) (u t).decBook.orderId ∧
      (stateAt q u t).oidHash = hash (u t).decBook.orderId ∧
      stored (stateAt q u t) = ⟨(stateAt q u t).ram.ram.mem, (stateAt q u t).cam.memArr⟩ := by
  obtain ⟨n, rfl, hn, hi0, hi1, hh0, hh1⟩ := h.before hv
  obtain ⟨hw, hc, -⟩ : (stateAt q u (n + 2)).ram.wea = false ∧
      (stateAt q u (n + 2)).cam.wEn = false ∧ _ := idle_next hi1
  have hst : stored (stateAt q u (n + 2)) = stored (stateAt q u n) :=
    (stored_idle hi1 (swept (by omega))).trans (stored_idle hi0 (swept hn))
  have hline : (stateAt q u (n + 2)).ram.doutb =
      (stored (stateAt q u (n + 2))).mem (hash (u (n + 2)).decBook.orderId) := by
    rw [hst, ← hh0]
    exact line_read (swept hn) _
  exact ⟨⟨hline, (memArrNext_of_wEn hc).symm, hc, hk.2⟩, hh1, stored_eq hw hc⟩

/-- What a message does to the table, with room for its error in the next cycle. -/
theorem Scheduled.message (h : Scheduled q u) {t : ℕ} (hv : (u t).decBook.valid = true)
    (hk : Kept q u t) (hsafe : Safe (stateAt q u t) (u t).decBook) :
    Answers (lives q u t) (stored (stateAt q u t)) (stateAt q u t) (u t).decBook ∧
      (raised (stateAt q u t) (u t).decBook = true ↔
        (outAt q u t).error = true ∨ (outAt q u (t + 1)).error = true) ∧
      stored (stateAt q u (t + 1)) = (stored (stateAt q u t)).after
        (hash (u t).decBook.orderId) ((stateAt q u t).comb (u t).decBook) ∧
      stored (stateAt q u t) = ⟨(stateAt q u t).ram.ram.mem, (stateAt q u t).cam.memArr⟩ := by
  obtain ⟨hsees, hoid, hst⟩ := h.sees hv hk
  obtain ⟨n, rfl, hn, -⟩ := h.before hv
  refine ⟨OrderTable.message hk.1 hsees hv (h.small _ hv) hsafe, ?_, ?_, hst⟩
  · -- the next cycle is idle, so its error is that of the CAM
    have hi3 : (u (n + 3)).decBook.valid = false := by
      by_contra hv3
      have := h.apart (n + 2) (n + 3) hv (by simpa using hv3) (by omega)
      omega
    have hnext : (outAt q u (n + 3)).error = (CamRegs.mk
        ((stateAt q u (n + 2)).comb (u (n + 2)).decBook).camWEn
        ((stateAt q u (n + 2)).comb (u (n + 2)).decBook).writeWord
        (stateAt q u (n + 2)).cam.memArr).error := by
      rw [← memArrNext_of_wEn hsees.wEn]
      exact error_idle hi3
    rw [hnext, ← Bool.or_eq_true]
    rfl
  · have hread : (stateAt q u (n + 2)).ram.doutb =
        (stored (stateAt q u (n + 2))).mem (stateAt q u (n + 2)).oidHash := by
      rw [hoid]
      exact hsees.line
    have hnext := stored_next (i := u (n + 2)) (swept (by omega)) hread
    rw [hoid] at hnext
    exact hnext

/-- After a message without an error the table holds the live orders again. -/
theorem Scheduled.kept_next (h : Scheduled q u) {t : ℕ} (hv : (u t).decBook.valid = true)
    (hk : Kept q u t) (hsafe : Safe (stateAt q u t) (u t).decBook)
    (hno : raised (stateAt q u t) (u t).decBook = false) : Kept q u (t + 1) := by
  obtain ⟨hans, -, hst, -⟩ := h.message hv hk hsafe
  have hlives : lives q u (t + 1) = (lives q u t).after (u t).decBook := by
    rw [lives, livesFrom, hv]
    rfl
  rw [Kept, hlives, hst]
  exact ⟨hans.stored hno, hans.side hno⟩

end Runs

/-! ### Scripts -/

/-- A table with nothing in it, in the sweep. -/
def blank (line count : BitVec 11) : L3Regs :=
  ⟨line, false, .zero, ⟨⟨fun _ _ => .zero, fun _ => .zero⟩, false, line, fun _ => .zero, Rtl.wayAt 0, .zero, line,
    false, line, fun _ => .zero, fun _ => .zero, true, count⟩, ⟨false, .zero, fun _ => .zero⟩⟩

/-- Messages for one line, one every three cycles, as soon as the table is ready. -/
def script (line : BitVec 11) (ds : List DecBook) (t : ℕ) : L3In :=
  if 2050 ≤ t ∧ t % 3 = 1 then ⟨line, ds.getD ((t - 2050) / 3) .zero⟩ else ⟨line, .zero⟩

section Script

variable {line : BitVec 11} {ds : List DecBook}

/-- The messages of a script. -/
theorem script_valid {t : ℕ} (hv : (script line ds t).decBook.valid = true) :
    ∃ k d, t = 2050 + 3 * k ∧ ds[k]? = some d ∧ (script line ds t).decBook = d := by
  unfold script at hv ⊢
  split_ifs at hv ⊢ with ht
  · rw [List.getD_eq_getElem?_getD] at hv ⊢
    rcases hd : ds[(t - 2050) / 3]? with - | d
    · rw [hd] at hv
      cases hv
    · exact ⟨(t - 2050) / 3, d, by omega, hd, rfl⟩
  · cases hv

theorem scheduled_script {q : L3Regs} (hds : ∀ d ∈ ds, hash d.orderId = line ∧ d.shares.toNat < 2 ^ 31) :
    Scheduled q (script line ds) := by
  have hhash : ∀ t, (script line ds t).oidHash = line := by
    intro t
    unfold script
    split_ifs <;> rfl
  constructor
  · intro t t' hv hv' hlt
    obtain ⟨k, -, rfl, -⟩ := script_valid hv
    obtain ⟨k', -, rfl, -⟩ := script_valid hv'
    omega
  · intro t hv
    obtain ⟨k, d, rfl, hd, he⟩ := script_valid hv
    refine ⟨2048 + 3 * k, by omega, (ready_iff _).2 (by omega), ?_⟩
    rw [he, (hds d (List.mem_of_getElem? hd)).1]
    exact ⟨hhash _, hhash _⟩
  · intro t hv
    obtain ⟨k, d, rfl, hd, he⟩ := script_valid hv
    rw [he]
    exact (hds d (List.mem_of_getElem? hd)).2

/-- The table at the end of the sweep. -/
def cleared (line : BitVec 11) : L3Regs :=
  { blank line 0 with ram := { (blank line 0).ram with rstInProgress := false } }

theorem blank_next (line c : BitVec 11) : (blank line c).next ⟨line, .zero⟩ =
    { blank line 0 with ram := { (blank line (if c = 0 then 0 else c - 1)).ram with
        rstInProgress := decide (c ≠ 0) } } := by
  have hmem : Function.update (fun _ _ => L3Word.zero) c (fun _ => L3Word.zero) =
      (fun _ _ => L3Word.zero : BitVec 11 → L3Line) := Function.update_eq_self c _
  have hnext : (blank line c).next ⟨line, .zero⟩ = { blank line (c - 1) with
      ram := { (blank line (c - 1)).ram with
        ram := ⟨Function.update (fun _ _ => L3Word.zero) c (fun _ => L3Word.zero), fun _ => .zero⟩
        doutb := if line = line ∧ false = true then fun _ => .zero else fun _ => .zero
        rstInProgress := decide (c ≠ 0)
        count := if true = true ∧ c ≠ 0 then c - 1 else 0 } } := rfl
  rw [hnext, hmem, ite_self]
  by_cases hc : c = 0
  · subst hc
    rfl
  · rw [if_neg hc, if_pos ⟨rfl, hc⟩]
    rfl

/-- The sweep of an empty table. -/
theorem blank_state (line : BitVec 11) (ds : List DecBook) {t : ℕ} (ht : t < 2048) :
    stateAt (blank line 0) (script line ds) t = blank line (BitVec.ofNat 11 (2047 - t)) := by
  induction t with
  | zero => rfl
  | succ t ih =>
    have hin : script line ds t = ⟨line, .zero⟩ := if_neg (by omega)
    have hne : BitVec.ofNat 11 (2047 - t) ≠ 0 := by
      intro he
      have := congrArg BitVec.toNat he
      simp only [BitVec.toNat_ofNat, BitVec.ofNat_eq_ofNat] at this
      omega
    have hsub : BitVec.ofNat 11 (2047 - t) - 1 = BitVec.ofNat 11 (2047 - (t + 1)) := by
      apply BitVec.eq_of_toNat_eq
      simp only [BitVec.toNat_sub, BitVec.toNat_ofNat, BitVec.ofNat_eq_ofNat]
      omega
    calc stateAt (blank line 0) (script line ds) (t + 1)
        = (stateAt (blank line 0) (script line ds) t).next (script line ds t) := rfl
      _ = (blank line (BitVec.ofNat 11 (2047 - t))).next ⟨line, .zero⟩ := by
        rw [ih (Nat.lt_of_succ_lt ht), hin]
      _ = blank line (BitVec.ofNat 11 (2047 - (t + 1))) := by
        rw [blank_next, if_neg hne, decide_eq_true hne, hsub]
        rfl

/-- The states after the sweep. -/
theorem script_state (line : BitVec 11) (ds : List DecBook) (k : ℕ) :
    stateAt (blank line 0) (script line ds) (2048 + k) =
      l3OrderTable.state (cleared line) (fun t => script line ds (2048 + t)) k := by
  have hend : stateAt (blank line 0) (script line ds) 2048 = cleared line := by
    have hin : script line ds 2047 = ⟨line, .zero⟩ := if_neg (by omega)
    calc stateAt (blank line 0) (script line ds) 2048
        = (stateAt (blank line 0) (script line ds) 2047).next (script line ds 2047) := rfl
      _ = (blank line 0).next ⟨line, .zero⟩ := by rw [blank_state line ds (by omega), hin]; rfl
      _ = cleared line := by rw [blank_next]; rfl
  rw [stateAt, Circuit.state_add]
  exact congrArg (fun q => l3OrderTable.state q _ k) hend

/-- The outputs after the sweep. -/
theorem script_out (line : BitVec 11) (ds : List DecBook) (k : ℕ) :
    outAt (blank line 0) (script line ds) (2048 + k) =
      l3OrderTable.out (l3OrderTable.state (cleared line) (fun t => script line ds (2048 + t)) k)
        (script line ds (2048 + k)) := by
  rw [outAt, script_state]

/-- No error is raised in the sweep. -/
theorem script_silent (hsched : Scheduled (blank line 0) (script line ds)) {K : ℕ}
    (h : ∀ k < K, (l3OrderTable.out
      (l3OrderTable.state (cleared line) (fun t => script line ds (2048 + t)) k)
      (script line ds (2048 + k))).error = false) :
    Silent (blank line 0) (script line ds) (2048 + K) := by
  intro t ht
  by_cases hlt : t < 2048
  · exact silent_of_idle (hsched.idle (by omega)) fun n hn => hsched.idle (by omega)
  · obtain ⟨k, rfl⟩ := Nat.exists_eq_add_of_le (not_lt.1 hlt)
    rw [script_out]
    exact h k (by omega)

/-- The live orders after the sweep. -/
theorem script_lives (hsched : Scheduled (blank line 0) (script line ds)) (k : ℕ) :
    lives (blank line 0) (script line ds) (2048 + k) =
      livesFrom ⟨fun _ => none, false⟩ (fun t => script line ds (2048 + t)) k := by
  have hstart := (hsched.fresh (t := 2048) (by omega)).2.2.2.2
  rw [lives, livesFrom_add]
  rw [lives] at hstart
  rw [hstart]
  rfl

end Script

/-- A message for an order of line 1. -/
def onLine (type : BookMsgType) (n : BitVec 64) (shares : BitVec 32) : DecBook :=
  ⟨true, type, false, n * 2048 + 1, true, shares, 10000⟩

/-- Eight orders fill the line, and a ninth goes to the CAM. -/
def nine : List DecBook :=
  [onLine .add 1 100, onLine .add 2 100, onLine .add 3 100, onLine .add 4 100, onLine .add 5 100,
    onLine .add 6 100, onLine .add 7 100, onLine .add 8 100, onLine .add 9 100]

/-- The order in the CAM is reduced to nothing, one in a way is deleted and replaced, and the id of
the first is used again. -/
def reuse : List DecBook :=
  nine ++ [onLine .reduce 9 100, onLine .delete 1 0, onLine .replace 10 60, onLine .add 9 100]

/-- The order in the CAM is deleted, and then it is reduced. -/
def leak : List DecBook := nine ++ [onLine .delete 9 0, onLine .reduce 9 1]

/-- An order of line 0. -/
def onLineZero (n : BitVec 64) : DecBook := ⟨true, .add, false, n * 2048, true, 100, 10000⟩

/-- Eight orders fill line 0, the order with the id 0 goes to the CAM, and then another one. -/
def spill : List DecBook :=
  [onLineZero 1, onLineZero 2, onLineZero 3, onLineZero 4, onLineZero 5, onLineZero 6, onLineZero 7,
    onLineZero 8, onLineZero 0, onLineZero 9]

/-! ### The main theorem -/

section Main

variable {q : L3Regs} {u : ℕ → L3In}
variable (hsafe : ∀ t, (u t).decBook.valid = true → Silent q u t →
  Safe (stateAt q u t) (u t).decBook)
include hsafe

/-- **The table holds the live orders** in every cycle up to the first error. -/
theorem Scheduled.kept (h : Scheduled q u) {t : ℕ} (ht : 2048 ≤ t) (hs : Silent q u (t + 1)) :
    Kept q u t := by
  induction t, ht using Nat.le_induction with
  | base => exact h.kept_start
  | succ t ht ih =>
    have hk := ih (hs.mono (Nat.le_succ _))
    cases hi : (u t).decBook.valid with
    | false => exact kept_idle ht hi hk
    | true =>
      have hsafe' := hsafe t hi (hs.mono (by omega))
      refine h.kept_next hi hk hsafe' ?_
      rw [← Bool.not_eq_true, (h.message hi hk hsafe').2.1, hs t (by omega), hs (t + 1) (by omega)]
      simp

theorem Scheduled.kept_message (h : Scheduled q u) {t : ℕ} (hv : (u t).decBook.valid = true)
    (hs : Silent q u t) : Kept q u t := by
  obtain ⟨n, rfl, hn, -, hi1, -⟩ := h.before hv
  exact kept_idle (by omega) hi1 (h.kept hsafe (by omega) hs)

/-- A message is looked up, in the next cycle. -/
theorem Scheduled.lookup_eq (h : Scheduled q u) {t : ℕ} (hv : (u t).decBook.valid = true)
    (hs : Silent q u (t + 2)) : (outAt q u (t + 1)).lookup = (lives q u t).lookup (u t).decBook := by
  have hs' := hs.mono (Nat.le_add_right t 2)
  obtain ⟨hans, hraised, -⟩ := h.message hv (h.kept_message hsafe hv hs') (hsafe t hv hs')
  refine hans.lookup ?_
  rw [← Bool.not_eq_true, hraised, hs t (by omega), hs (t + 1) (by omega)]
  simp

/-- **The order table is a map up to its first error**, in every schedule in which no delete comes for
an order in the CAM, but for the id 0 and no shares in the message, and no new order spills whose id
more than one slot carries. -/
theorem isMap_of_safe (h : Scheduled q u) : IsMap q u := by
  constructor
  · intro t hv hs
    obtain ⟨hans, hraised, -, hst⟩ := h.message hv (h.kept_message hsafe hv hs) (hsafe t hv hs)
    rw [← hraised, hans.error, hst]
    rfl
  · exact fun t hv hs => h.lookup_eq hsafe hv hs
  · intro t herr
    by_contra hne
    rw [not_or, not_exists] at hne
    obtain ⟨hi, hprev⟩ := hne
    have hidle : (outAt q u t).error = false :=
      silent_of_idle (by simpa using hi) fun n hn => by simpa using fun hv => hprev n ⟨hn, hv⟩
    rw [hidle] at herr
    cases herr

end Main

theorem isMap_of_safe_reuse : IsMap (blank 1 0) (script 1 reuse) := by
  refine isMap_of_safe (fun t hv _ => ?_) (scheduled_script (by decide))
  obtain ⟨k, d, rfl, hd, -⟩ := script_valid hv
  have hk : k < 13 := (List.getElem?_eq_some_iff.1 hd).1
  have hsafe : ∀ k < 13, Safe
      (l3OrderTable.state (cleared 1) (fun t => script 1 reuse (2048 + t)) (2 + 3 * k))
      (script 1 reuse (2050 + 3 * k)).decBook := by decide +kernel
  have heq : 2050 + 3 * k = 2048 + (2 + 3 * k) := by omega
  rw [show stateAt (blank 1 0) (script 1 reuse) (2050 + 3 * k) =
    stateAt (blank 1 0) (script 1 reuse) (2048 + (2 + 3 * k)) by rw [heq], script_state]
  exact hsafe k hk

/-- **The order table is not a map**: a deleted order is still found. -/
theorem not_isMap_leak : Scheduled (blank 1 0) (script 1 leak) ∧ ¬ IsMap (blank 1 0) (script 1 leak) := by
  have hsched : Scheduled (blank 1 0) (script 1 leak) := scheduled_script (by decide)
  refine ⟨hsched, fun h => ?_⟩
  have hv : (script 1 leak 2080).decBook.valid = true := by decide
  have htype : (script 1 leak 2080).decBook.msgType = .reduce := by decide
  have hgone : (lives (blank 1 0) (script 1 leak) 2080).order (script 1 leak 2080).decBook.orderId = none := by
    rw [show 2080 = 2048 + 32 from rfl, script_lives hsched]
    decide +kernel
  have hfails : FailsAt (blank 1 0) (script 1 leak) 2080 := by
    rw [FailsAt, Live.Fails, htype, hgone]
    trivial
  have hsilent : Silent (blank 1 0) (script 1 leak) (2048 + 34) := script_silent hsched (by decide +kernel)
  have herr := (h.error 2080 hv (hsilent.mono (by omega))).2 hfails
  rw [hsilent 2080 (by omega), hsilent 2081 (by omega)] at herr
  simp at herr

/-- After an add of an order that is not live an error means that the table is full. -/
theorem IsMap.full {q : L3Regs} {u : ℕ → L3In} (h : IsMap q u) {t : ℕ}
    (hv : (u t).decBook.valid = true) (hs : Silent q u t) (htype : (u t).decBook.msgType = .add)
    (hnew : (lives q u t).order (u t).decBook.orderId = none) (herr : (outAt q u (t + 1)).error = true) :
    (lives q u t).Full ((stateAt q u t).ram.ram.mem (hash (u t).decBook.orderId))
      (stateAt q u t).cam.memArr := by
  have hfails := (h.error t hv hs).1 (Or.inr herr)
  rw [FailsAt, Live.Fails, htype, hnew] at hfails
  exact hfails

/-- **Nor is it a map** without a delete: an order may take all slots. -/
theorem not_isMap_spill : Scheduled (blank 0 0) (script 0 spill) ∧ ¬ IsMap (blank 0 0) (script 0 spill) := by
  have hsched : Scheduled (blank 0 0) (script 0 spill) := scheduled_script (by decide)
  refine ⟨hsched, fun h => ?_⟩
  have hv : (script 0 spill 2077).decBook.valid = true := by decide
  have htype : (script 0 spill 2077).decBook.msgType = .add := by decide
  have hnew : (lives (blank 0 0) (script 0 spill) 2077).order (script 0 spill 2077).decBook.orderId = none := by
    rw [show 2077 = 2048 + 29 from rfl, script_lives hsched]
    decide +kernel
  have hsilent : Silent (blank 0 0) (script 0 spill) (2048 + 29) := script_silent hsched (by decide +kernel)
  have herr : (outAt (blank 0 0) (script 0 spill) (2077 + 1)).error = true := by
    rw [show 2077 + 1 = 2048 + 30 from rfl, script_out]
    decide +kernel
  -- the order with the id 0 is in all slots
  have hsame : ((stateAt (blank 0 0) (script 0 spill) 2077).cam.memArr 0).orderId =
      ((stateAt (blank 0 0) (script 0 spill) 2077).cam.memArr 1).orderId := by
    rw [show 2077 = 2048 + 29 from rfl, script_state]
    decide +kernel
  exact (h.full hv (hsilent.mono (by omega)) htype hnew herr).slot_ne (by decide) hsame

end ItchOrderBook.OrderTable
