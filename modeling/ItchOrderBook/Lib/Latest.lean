import Mathlib.Data.List.Induction

/-!
# The latest word

Some items of a history say what a register is to hold. A register that is set by each of them holds what the
latest one has said (`latest_foldl`), whatever else happens in between; `latest_eq_iff` finds the item.
-/

namespace ItchOrderBook

variable {α β σ : Type*} {word : α → Option β} {start b : β}

/-- What the latest item says that says anything; `start` if none does. -/
def latest (word : α → Option β) (start : β) (items : List α) : β :=
  items.foldl (fun held a => (word a).getD held) start

@[simp] theorem latest_nil : latest word start [] = start := rfl

theorem latest_snoc (items : List α) (a : α) :
    latest word start (items ++ [a]) = (word a).getD (latest word start items) := by
  unfold latest
  rw [List.foldl_append]
  rfl

/-- The latest item that says anything says `b`. -/
def LatestIs (word : α → Option β) (b : β) (items : List α) : Prop :=
  ∃ before a after, items = before ++ a :: after ∧ word a = some b ∧ ∀ x ∈ after, word x = none

theorem not_latestIs_nil : ¬ LatestIs word b [] := by
  rintro ⟨before, a, after, h, -⟩
  cases before <;> cases h

theorem latestIs_snoc (items : List α) (a : α) :
    LatestIs word b (items ++ [a]) ↔ word a = some b ∨ word a = none ∧ LatestIs word b items := by
  constructor
  · rintro ⟨before, x, after, h, hx, hafter⟩
    rcases List.eq_nil_or_concat after with rfl | ⟨after, y, rfl⟩
    · obtain ⟨-, hlast⟩ := List.append_inj' h rfl
      obtain ⟨rfl, -⟩ := List.cons.inj hlast
      exact Or.inl hx
    · have h' : items ++ [a] = (before ++ x :: after) ++ [y] := by
        rw [h]
        simp
      obtain ⟨rfl, hlast⟩ := List.append_inj' h' rfl
      obtain ⟨rfl, -⟩ := List.cons.inj hlast
      exact Or.inr ⟨hafter _ (by simp), before, x, after, rfl, hx, fun z hz => hafter z (by simp [hz])⟩
  · rintro (ha | ⟨ha, before, x, after, rfl, hx, hafter⟩)
    · exact ⟨items, a, [], rfl, ha, fun _ hx => absurd hx List.not_mem_nil⟩
    · refine ⟨before, x, after ++ [a], by simp, hx, fun z hz => ?_⟩
      rcases List.mem_append.1 hz with hz | hz
      · exact hafter z hz
      · rw [List.mem_singleton.1 hz]
        exact ha

/-- **The latest word**, and who has said it. -/
theorem latest_eq_iff (items : List α) : latest word start items = b ↔
    LatestIs word b items ∨ (∀ a ∈ items, word a = none) ∧ start = b := by
  induction items using List.reverseRecOn with
  | nil => simp [not_latestIs_nil]
  | append_singleton items a ih =>
    have hall : (∀ x ∈ items ++ [a], word x = none) ↔ (∀ x ∈ items, word x = none) ∧ word a = none := by
      rw [List.forall_mem_append, List.forall_mem_singleton]
    rw [latest_snoc, latestIs_snoc, hall]
    cases word a with
    | none => simp [ih]
    | some held => simp

/-- **A register that the items set** holds the latest word, if every step keeps what it needs. -/
theorem latest_foldl {step : σ → α → σ} {register : σ → β} {I : σ → Prop}
    (hkeep : ∀ s a, I s → I (step s a))
    (hset : ∀ s a, I s → register (step s a) = (word a).getD (register s)) {s : σ} (hs : I s)
    (items : List α) : register (items.foldl step s) = latest word (register s) items := by
  have hall : I (items.foldl step s) ∧ register (items.foldl step s) = latest word (register s) items := by
    induction items using List.reverseRecOn with
    | nil => exact ⟨hs, rfl⟩
    | append_singleton items a ih =>
      rw [List.foldl_append, List.foldl_cons, List.foldl_nil, latest_snoc, ← ih.2]
      exact ⟨hkeep _ a ih.1, hset _ a ih.1⟩
  exact hall.2

end ItchOrderBook
