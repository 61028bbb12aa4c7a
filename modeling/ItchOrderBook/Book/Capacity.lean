import ItchOrderBook.Book.Lifecycle

/-!
# Where a new order goes when its line is full

`L3Memory.__setitem__` means to put a new id into its hash line, else into the CAM, else to raise
`MemoryError`, which `L3.process_msg` turns into an error result. On a full line the arguments of
the debug log are evaluated first, and they raise. So an insertion spills over as it should exactly
when it does not have to (`spill_iff`).
-/

namespace ItchOrderBook.Book

open Ref

variable {cfg : Params}

/-- The CAM is not full. -/
def CamFree (m : L3Memory cfg) : Prop := m.cam.keys.card < cfg.l3CamSize

/-- An id that is not stored goes to its line, else to the CAM, else there is a `MemoryError`. -/
structure SpillsOver (m : L3Memory cfg) (key : ℕ) (value : L3Entry) : Prop where
  line : LineFree m key → ∃ m', m.setItem key value = .ok m' ∧ m'.cam = m.cam ∧
    ∀ i, m'.ram i = if i = oidHash cfg key then (m.ram i).insert key value else m.ram i
  cam : ¬ LineFree m key → CamFree m → ∃ m', m.setItem key value = .ok m' ∧ m'.ram = m.ram ∧
    m'.cam = m.cam.insert key value
  full : ¬ LineFree m key → ¬ CamFree m → ∃ text, m.setItem key value = .error (.memoryError text)

theorem setItem_line {m : L3Memory cfg} {key : ℕ} (hkey : key ∉ m.toDict) (value : L3Entry)
    (hroom : LineFree m key) : ∃ m', m.setItem key value = .ok m' ∧ m'.cam = m.cam ∧
      ∀ i, m'.ram i = if i = oidHash cfg key then (m.ram i).insert key value else m.ram i := by
  rw [mem_toDict, not_or] at hkey
  simp only [L3Memory.setItem, dif_neg hkey.1, dif_neg hkey.2]
  refine ⟨_, dif_pos hroom, rfl, fun i => ?_⟩
  simp only [L3Memory.setLine]
  split_ifs with hi
  · rw [hi]
  · rfl

theorem spillsOver_iff {m : L3Memory cfg} {key : ℕ} (hkey : key ∉ m.toDict) (value : L3Entry) :
    SpillsOver m key value ↔ LineFree m key := by
  constructor
  · intro h
    by_contra hfull
    rcases setItem_of_notMem hkey value with ⟨hroom, -⟩ | ⟨-, hraise⟩
    · exact hfull hroom
    · by_cases hcam : CamFree m
      · obtain ⟨m', hok, -⟩ := h.cam hfull hcam
        rw [hraise] at hok
        cases hok
      · obtain ⟨text, herr⟩ := h.full hfull hcam
        rw [hraise] at herr
        cases herr
  · intro hroom
    exact ⟨fun _ => setItem_line hkey value hroom, fun hfull => absurd hroom hfull,
      fun hfull => absurd hroom hfull⟩

/-- The line of an id and the CAM are full. -/
def IsFull : L3Store cfg → ℕ → Prop
  | .ideal _, _ => False
  | .hw m, k => ¬ LineFree m k ∧ ¬ CamFree m

/-- An add or a replace is answered, and refuses an id that is not stored only for want of room. -/
def InsertionAnswered (s : L3 cfg) (msg : BookMsg) : Prop :=
  msg.msgType.isAdd = true → (∀ e, (s.processMsg msg).1 ≠ .raise e) ∧
    ((s.processMsg msg).1.IsErr → msg.orderId ∉ s.memory.toDict → IsFull s.memory msg.orderId)

/-- An add or a replace of an id that is not stored finds room in the line of the id. -/
def InsertionFits (s : L3 cfg) (msg : BookMsg) : Prop :=
  msg.msgType.isAdd = true → msg.orderId ∉ s.memory.toDict → HasRoom s.memory msg.orderId

variable {s : L3 cfg} {msg : BookMsg} {msgs : List BookMsg}

theorem mem_of_step_none (ha : msg.msgType.isAdd = true)
    (hside : msg.msgType = .replace → s.lastDelIsBuy ≠ none) (hs : (orderMap s).step msg = none) :
    msg.orderId ∈ s.memory.toDict := by
  cases msg with
  | add l i b n p =>
    simp only [OrderMap.step] at hs
    split_ifs at hs with hi
    exact hi
  | reduce l i n => cases ha
  | delete l i => cases ha
  | replace l i n p =>
    simp only [OrderMap.step] at hs
    split_ifs at hs with hi
    · exact hi
    · exact absurd (Option.map_eq_none_iff.1 hs) (hside rfl)

theorem not_raise_of_mem (ha : msg.msgType.isAdd = true) (hi : msg.orderId ∈ s.memory.toDict)
    (e : Exn) : (s.processMsg msg).1 ≠ .raise e := by
  cases msg with
  | add l i b n p =>
    have hi' : i ∈ s.memory.toDict := hi
    simp [L3.processMsg, contains_eq, hi']
  | reduce l i n => cases ha
  | delete l i => cases ha
  | replace l i n p =>
    have hi' : i ∈ s.memory.toDict := hi
    simp [L3.processMsg, contains_eq, hi']

/-- One insertion. -/
theorem insertionAnswered_iff (hside : msg.msgType = .replace → s.lastDelIsBuy ≠ none) :
    InsertionAnswered s msg ↔ InsertionFits s msg := by
  refine forall_congr' fun ha => ?_
  rcases l3_processMsg s msg with ⟨lk, s', hp, hs, -, hroom⟩ | ⟨c, hp, hs⟩ | ⟨e, hp, -, hfull⟩
  · rw [hp]
    rw [(OrderMap.step_fields hs).1] at hroom
    exact ⟨fun _ _ => hroom ha, fun _ => ⟨fun e he => (by cases he), fun he => absurd he (by simp)⟩⟩
  · rw [hp]
    have hi := mem_of_step_none ha hside hs
    exact ⟨fun _ hi' => absurd hi hi', fun _ => ⟨fun e he => (by cases he), fun _ hi' => absurd hi hi'⟩⟩
  · constructor
    · intro h
      exact absurd (by rw [hp]) (h.1 e)
    · intro h
      have hi : msg.orderId ∉ s.memory.toDict := fun hi => not_raise_of_mem ha hi e (by rw [hp])
      cases hs : (orderMap s).step msg with
      | none => exact absurd (mem_of_step_none ha hside hs) hi
      | some out => exact absurd (h hi) (hfull out.1 out.2 hs).2

/-- Every replace has a delete that L3 accepted somewhere before it. -/
def ReplacesLater (s : L3 cfg) (msgs : List BookMsg) : Prop :=
  ∀ pre l j n p post, msgs = pre ++ .replace l j n p :: post →
    ∃ before l' i between, pre = before ++ .delete l' i :: between ∧
      ((l3Calls cfg).out ((l3Calls cfg).run s before) (.delete l' i)).IsRet

theorem ReplacesFollow.later (hr : ReplacesFollow s msgs) : ReplacesLater s msgs := by
  intro pre l j n p post hsplit
  obtain ⟨before, l', i, hpre, hret⟩ := hr pre l j n p post hsplit
  exact ⟨before, l', i, [], hpre, hret⟩

/-- The side of the last delete is never forgotten. -/
theorem side_step (hside : s.lastDelIsBuy ≠ none) (msg : BookMsg) :
    ((l3Calls cfg).next s msg).lastDelIsBuy ≠ none := by
  change (s.processMsg msg).2.lastDelIsBuy ≠ none
  rcases l3_processMsg s msg with ⟨lk, s', hp, hs, -⟩ | ⟨c, hp, -⟩ | ⟨e, hp, -⟩
  · have hs' : s'.lastDelIsBuy = (orderMap s').lastDelIsBuy := rfl
    rw [hp, hs']
    cases msg with
    | add l i b n p =>
      simp only [OrderMap.step] at hs
      split_ifs at hs
      rw [← congrArg (fun x => x.2.lastDelIsBuy) (Option.some.inj hs)]
      exact hside
    | reduce l i n =>
      simp only [OrderMap.step] at hs
      split at hs
      · cases hs
      · split_ifs at hs
        rw [← congrArg (fun x => x.2.lastDelIsBuy) (Option.some.inj hs)]
        exact hside
    | delete l i =>
      simp only [OrderMap.step] at hs
      split at hs
      · cases hs
      · rw [← congrArg (fun x => x.2.lastDelIsBuy) (Option.some.inj hs)]
        exact Option.some_ne_none _
    | replace l i n p =>
      simp only [OrderMap.step] at hs
      split_ifs at hs
      obtain ⟨b, -, hb⟩ := Option.map_eq_some_iff.1 hs
      rw [← congrArg (fun x => x.2.lastDelIsBuy) hb]
      exact hside
  · rw [hp]
    exact hside
  · rw [hp]
    exact hside

theorem side_run (hside : s.lastDelIsBuy ≠ none) (msgs : List BookMsg) :
    ((l3Calls cfg).run s msgs).lastDelIsBuy ≠ none := by
  induction msgs generalizing s with
  | nil => exact hside
  | cons msg msgs ih => exact ih (side_step hside msg)

theorem ReplacesLater.side {pre post : List BookMsg}
    (hr : ReplacesLater s (pre ++ msg :: post)) (hm : msg.msgType = .replace) :
    ((l3Calls cfg).run s pre).lastDelIsBuy ≠ none := by
  cases msg with
  | replace l j n p =>
    obtain ⟨before, l', i, between, rfl, hret⟩ := hr pre l j n p post rfl
    obtain ⟨e, -, hside⟩ := side_of_delete hret
    rw [Circuit.run_append, Circuit.run_cons]
    apply side_run
    rw [hside]
    exact Option.some_ne_none _
  | _ => cases hm

/-- **Spilling over.** In every memory a new id is inserted as it should be exactly when its line
has room; and in every run whose replaces follow a delete, all insertions are answered as they
should be exactly when each finds room in its line. -/
theorem spill_iff :
    (∀ (m : L3Memory cfg) key value, key ∉ m.toDict →
      (SpillsOver m key value ↔ LineFree m key)) ∧
    ∀ msgs, ReplacesLater (.new cfg false) msgs →
      ((∀ pre msg post, msgs = pre ++ msg :: post →
          InsertionAnswered ((l3Calls cfg).run (.new cfg false) pre) msg) ↔
        ∀ pre msg post, msgs = pre ++ msg :: post →
          InsertionFits ((l3Calls cfg).run (.new cfg false) pre) msg) := by
  refine ⟨fun m key value hkey => spillsOver_iff hkey value, fun msgs hr => ?_⟩
  refine forall_congr' fun pre => forall_congr' fun msg => forall_congr' fun post =>
    forall_congr' fun hsplit => ?_
  subst hsplit
  exact insertionAnswered_iff hr.side

theorem spill_iff_shortDay :
    SpillsOver (.empty : L3Memory {}) 1 ⟨true, 100, 10500⟩ ∧
      ((∀ pre msg post, shortDay = pre ++ msg :: post →
          InsertionAnswered ((l3Calls {}).run (.new {} false) pre) msg) ↔
        ∀ pre msg post, shortDay = pre ++ msg :: post →
          InsertionFits ((l3Calls {}).run (.new {} false) pre) msg) := by
  constructor
  · refine (spill_iff.1 _ 1 _ ?_).2 (show (0 : ℕ) < 8 by decide)
    rw [toDict_empty]
    exact Finmap.notMem_empty
  · exact spill_iff.2 shortDay replacesFollow_shortDay.later

/-- Eight orders of one hash line, and a ninth. -/
def crowded : List BookMsg :=
  (List.range 9).map fun i => .add 7 (2048 * i + 1) true 100 10500

/-- The ninth order of a line is refused with a `ValueError`. -/
theorem crowded_raises :
    ∃ pre msg, crowded = pre ++ [msg] ∧ ReplacesLater (.new {} false) crowded ∧
      (((l3Calls {}).run (.new {} false) pre).processMsg msg).1 =
        .raise (.valueError "Unknown format code 'h' for object of type 'int'") ∧
      ¬ InsertionAnswered ((l3Calls {}).run (.new {} false) pre) msg := by
  refine ⟨crowded.take 8, .add 7 16385 true 100 10500, rfl, ?_, rfl, fun h => (h rfl).1 _ rfl⟩
  intro pre l j n p post hsplit
  have hmem : BookMsg.replace l j n p ∈ crowded := by simp [hsplit]
  simp [crowded] at hmem

end ItchOrderBook.Book
