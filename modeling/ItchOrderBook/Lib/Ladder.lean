import Mathlib.Data.List.Sort
import Mathlib.Data.Finset.Sort
import Mathlib.Algebra.BigOperators.Group.List.Basic
import Mathlib.Algebra.Order.Ring.Int
import Mathlib.Data.Int.ConditionallyCompleteOrder

/-!
# Ladders: sorted listings of a quantity per key

A quantity function `f : α → M` of finite support is listed as a *ladder*: the keys of nonzero
quantity with their quantities, strictly increasing in an order `lt` of the keys. A ladder is
determined by its function (`IsLadder.unique`); around a key it splits into the keys before it,
at most one rung at it, and the keys after it (`IsLadder.exists_split`); and changing the
function at one key changes that rung only (`IsLadder.update`).

The second half is about the first `n` rungs of a ladder, its *window*, under a change of one
rung.
-/

namespace ItchOrderBook

variable {α M : Type*} [Zero M] (lt : α → α → Prop) {f g : α → M}
  {l l' pre post : List (α × M)} {a : α}

/-- Two lists in the same strict order with the same members are equal. -/
theorem eq_of_pairwise_of_mem_iff {β : Type*} {R : β → β → Prop} {k k' : List β}
    (hirr : ∀ x, ¬ R x x) (htrans : ∀ x y z, R x y → R y z → R x z) (hk : k.Pairwise R)
    (hk' : k'.Pairwise R) (hmem : ∀ x, x ∈ k ↔ x ∈ k') : k = k' := by
  have : Std.Irrefl R := ⟨hirr⟩
  have : Std.Antisymm R := ⟨fun x y hxy hyx => absurd (htrans x y x hxy hyx) (hirr x)⟩
  exact hk.eq_of_mem_iff hk' hmem

/-- The elements of a finite set, smallest first. -/
def ascending {β : Type*} [LinearOrder β] (s : Finset β) : List β := s.sort (· ≤ ·)

/-- The elements of a finite set, largest first. -/
def descending {β : Type*} [LinearOrder β] (s : Finset β) : List β := s.sort (· ≥ ·)

/-- `l` lists the keys of nonzero quantity of `f`, with their quantities, in the order `lt`. -/
structure IsLadder (f : α → M) (l : List (α × M)) : Prop where
  sorted : l.Pairwise fun x y => lt x.1 y.1
  mem_iff : ∀ a m, (a, m) ∈ l ↔ m ≠ 0 ∧ f a = m

/-- The rung at `a` for the quantity `m`, which is absent when `m` is zero. -/
def rung [DecidableEq M] (a : α) (m : M) : List (α × M) := if m = 0 then [] else [(a, m)]

section Rung

variable [DecidableEq M]

@[simp] theorem rung_zero : rung a (0 : M) = [] := if_pos rfl

theorem rung_of_ne {m : M} (h : m ≠ 0) : rung a m = [(a, m)] := if_neg h

theorem mem_rung {a b : α} {m k : M} : (b, k) ∈ rung a m ↔ b = a ∧ k = m ∧ m ≠ 0 := by
  unfold rung
  split_ifs with h <;> simp [h]

end Rung

variable {lt} in
theorem IsLadder.congr (h : IsLadder lt f l) (hg : ∀ a, g a = f a) : IsLadder lt g l where
  sorted := h.sorted
  mem_iff a m := by rw [h.mem_iff, hg]

section Order

variable {lt} [IsStrictTotalOrder α lt]

/-- **A ladder is determined by its quantity function.** -/
theorem IsLadder.unique (h : IsLadder lt f l) (h' : IsLadder lt f l') : l = l' := by
  refine eq_of_pairwise_of_mem_iff (fun x => irrefl x.1)
    (fun _ _ _ => IsTrans.trans _ _ _) h.sorted h'.sorted fun ⟨a, m⟩ => ?_
  rw [h.mem_iff, h'.mem_iff]

/-- The part of a ladder before a key, its rung at the key, and the part after it. -/
theorem IsLadder.exists_split [DecidableEq M] (h : IsLadder lt f l) (a : α) :
    ∃ pre post, (∀ x ∈ pre, lt x.1 a) ∧ (∀ x ∈ post, lt a x.1) ∧
      l = pre ++ rung a (f a) ++ post := by
  classical
  refine ⟨l.filter fun x => lt x.1 a, l.filter fun x => lt a x.1, fun x hx => ?_,
    fun x hx => ?_, ?_⟩
  · simpa using (List.mem_filter.1 hx).2
  · simpa using (List.mem_filter.1 hx).2
  · refine eq_of_pairwise_of_mem_iff (fun x => irrefl x.1)
      (fun _ _ _ => IsTrans.trans _ _ _) h.sorted ?_ fun ⟨b, m⟩ => ?_
    · simp only [List.pairwise_append, List.append_assoc, List.mem_append, List.mem_filter,
        decide_eq_true_eq]
      refine ⟨h.sorted.filter _, ⟨?_, h.sorted.filter _, ?_⟩, ?_⟩
      · unfold rung; split_ifs <;> simp
      · rintro ⟨b, m⟩ hb y hy
        rw [(mem_rung.1 hb).1]; exact hy.2
      · rintro x hx ⟨b, m⟩ (hb | hb)
        · rw [(mem_rung.1 hb).1]; exact hx.2
        · exact IsTrans.trans _ _ _ hx.2 hb.2
    · simp only [List.mem_append, List.mem_filter, mem_rung, decide_eq_true_eq]
      constructor
      · intro hb
        rcases trichotomous_of lt b a with hlt | rfl | hgt
        · exact Or.inl (Or.inl ⟨hb, hlt⟩)
        · obtain ⟨hm, hf⟩ := (h.mem_iff b m).1 hb
          exact Or.inl (Or.inr ⟨rfl, hf.symm, by rw [hf]; exact hm⟩)
        · exact Or.inr ⟨hb, hgt⟩
      · rintro ((⟨hb, -⟩ | ⟨rfl, rfl, hm⟩) | ⟨hb, -⟩)
        · exact hb
        · exact (h.mem_iff b _).2 ⟨hm, rfl⟩
        · exact hb

/-- **Changing the quantity of one key changes its rung.** -/
theorem IsLadder.update [DecidableEq M] (h : IsLadder lt f (pre ++ rung a (f a) ++ post))
    (hpre : ∀ x ∈ pre, lt x.1 a) (hpost : ∀ x ∈ post, lt a x.1) (hg : ∀ x, x ≠ a → g x = f x) :
    IsLadder lt g (pre ++ rung a (g a) ++ post) where
  sorted := by
    have hs := h.sorted
    simp only [List.pairwise_append, List.append_assoc, List.mem_append] at hs ⊢
    refine ⟨hs.1, ⟨?_, hs.2.1.2.1, ?_⟩, ?_⟩
    · unfold rung; split_ifs <;> simp
    · rintro ⟨b, m⟩ hb y hy
      rw [(mem_rung.1 hb).1]; exact hpost y hy
    · rintro x hx ⟨b, m⟩ (hb | hb)
      · rw [(mem_rung.1 hb).1]; exact hpre x hx
      · exact hs.2.2 x hx _ (Or.inr hb)
  mem_iff b m := by
    have hm := h.mem_iff b m
    simp only [List.mem_append, mem_rung] at hm ⊢
    by_cases hba : b = a
    · subst hba
      have h1 : (b, m) ∉ pre := fun hb => absurd (hpre _ hb) (irrefl b)
      have h2 : (b, m) ∉ post := fun hb => absurd (hpost _ hb) (irrefl b)
      simp only [h1, h2, false_or, or_false, true_and]
      exact ⟨fun ⟨e, h0⟩ => ⟨e ▸ h0, e.symm⟩, fun ⟨h0, e⟩ => ⟨e.symm, e ▸ h0⟩⟩
    · simpa only [hba, false_and, or_false, hg b hba] using hm

end Order

/-! ### The first rungs under a change -/

section Window

variable {β : Type*} {p q : List β} {x y : β} {n : ℕ}

theorem take_mid (h : p.length < n) :
    (p ++ x :: q).take n = p ++ x :: q.take (n - p.length - 1) := by
  rw [List.take_append, List.take_of_length_le (by omega),
    show n - p.length = (n - p.length - 1) + 1 by omega, List.take_succ_cons]
  simp

theorem drop_mid (h : p.length < n) :
    (p ++ x :: q).drop n = q.drop (n - p.length - 1) := by
  rw [List.drop_append, List.drop_of_length_le (by omega),
    show n - p.length = (n - p.length - 1) + 1 by omega, List.drop_succ_cons]
  simp

theorem take_append_of_le (h : n ≤ p.length) : (p ++ q).take n = p.take n := by
  rw [List.take_append, show n - p.length = 0 by omega]; simp

theorem drop_append_of_le (h : n ≤ p.length) : (p ++ q).drop n = p.drop n ++ q := by
  rw [List.drop_append, show n - p.length = 0 by omega]; simp

/-- The `k`-th element opens what lies past the first `k`. -/
theorem drop_eq_getElem?_toList_append (l : List β) (k : ℕ) :
    l.drop k = l[k]?.toList ++ l.drop (k + 1) := by
  by_cases h : k < l.length
  · rw [List.getElem?_eq_getElem h, List.drop_eq_getElem_cons h]; rfl
  · rw [List.getElem?_eq_none (by omega), List.drop_of_length_le (by omega),
      List.drop_of_length_le (by omega)]; rfl

theorem take_succ_eq_append (l : List β) (k : ℕ) : l.take (k + 1) = l.take k ++ l[k]?.toList :=
  List.take_add_one

/-- Removing an element of the window leaves the window that is one shorter. -/
theorem eraseIdx_take_mid (h : p.length < n) :
    ((p ++ x :: q).take n).eraseIdx p.length = (p ++ q).take (n - 1) := by
  rw [take_mid h, List.eraseIdx_append_of_length_le le_rfl, Nat.sub_self,
    List.eraseIdx_cons_zero, List.take_append,
    List.take_of_length_le (show p.length ≤ n - 1 by omega),
    show n - 1 - p.length = n - p.length - 1 by omega]

theorem drop_mid_eq (h : p.length < n) : (p ++ x :: q).drop n = (p ++ q).drop (n - 1) := by
  rw [drop_mid h, List.drop_append, List.drop_of_length_le (show p.length ≤ n - 1 by omega),
    show n - 1 - p.length = n - p.length - 1 by omega, List.nil_append]

/-- Overwriting an element of the window. -/
theorem set_take_mid (h : p.length < n) :
    ((p ++ x :: q).take n).set p.length y = (p ++ y :: q).take n := by
  rw [take_mid h, take_mid h, List.set_append_right _ _ (by omega), Nat.sub_self, List.set_cons_zero]

theorem insertIdx_length (p r : List β) : (p ++ r).insertIdx p.length x = p ++ x :: r := by
  induction p with
  | nil => rfl
  | cons y p ih => simpa using ih

/-- Inserting an element into the window, before anything is evicted. -/
theorem insertIdx_take_append (h : p.length < n) :
    ((p ++ q).take n).insertIdx p.length x = (p ++ x :: q).take (n + 1) := by
  rw [take_mid (show p.length < n + 1 by omega), List.take_append,
    List.take_of_length_le (show p.length ≤ n by omega),
    show n + 1 - p.length - 1 = n - p.length by omega]
  exact insertIdx_length p _

/-- In a list where the better elements satisfy `P` when a worse one does, filtering by `P` keeps
the index of an element that satisfies it. -/
theorem getElem?_filter_of_pairwise {P : β → Bool} {R : β → β → Prop} {l : List β} {k : ℕ}
    (hl : l.Pairwise R) (hP : ∀ x ∈ l, ∀ y, R x y → P y → P x) (hk : l[k]? = some y) (hy : P y) :
    (l.filter P)[k]? = some y := by
  induction l generalizing k with
  | nil => simp at hk
  | cons x l ih =>
    rw [List.pairwise_cons] at hl
    cases k with
    | zero =>
      rw [List.getElem?_cons_zero, Option.some.injEq] at hk
      subst hk
      rw [List.filter_cons_of_pos hy, List.getElem?_cons_zero]
    | succ k =>
      rw [List.getElem?_cons_succ] at hk
      have hx : P x := hP x List.mem_cons_self y (hl.1 y (List.mem_of_getElem? hk)) hy
      rw [List.filter_cons_of_pos hx, List.getElem?_cons_succ]
      exact ih hl.2 (fun z hz => hP z (List.mem_cons_of_mem _ hz)) hk

end Window

/-- The total quantity of a list of rungs. -/
def volume {α M : Type*} [Add M] [Zero M] (l : List (α × M)) : M := (l.map Prod.snd).sum

section Volume

variable {α M : Type*} [AddMonoid M] {x : α × M} {l l' : List (α × M)}

@[simp] theorem volume_nil : volume ([] : List (α × M)) = 0 := rfl
@[simp] theorem volume_cons : volume (x :: l) = x.2 + volume l := by simp [volume]
@[simp] theorem volume_append : volume (l ++ l') = volume l + volume l' := by simp [volume]

theorem volume_rung [DecidableEq M] (a : α) (m : M) : volume (rung a m) = m := by
  unfold rung
  split_ifs with h <;> simp [h]

/-- The total quantity of the rungs whose key satisfies `P`. -/
def volumeIn (P : α → Bool) (l : List (α × M)) : M := volume (l.filter fun x => P x.1)

variable {P : α → Bool}

@[simp] theorem volumeIn_nil : volumeIn P ([] : List (α × M)) = 0 := rfl
@[simp] theorem volumeIn_cons :
    volumeIn P (x :: l) = (if P x.1 then x.2 else 0) + volumeIn P l := by
  unfold volumeIn
  split_ifs with h <;> simp [h]
@[simp] theorem volumeIn_append : volumeIn P (l ++ l') = volumeIn P l + volumeIn P l' := by
  simp [volumeIn]

theorem volumeIn_rung [DecidableEq M] (a : α) (m : M) :
    volumeIn P (rung a m) = if P a then m else 0 := by
  unfold rung
  split_ifs <;> simp [*]

end Volume

end ItchOrderBook
