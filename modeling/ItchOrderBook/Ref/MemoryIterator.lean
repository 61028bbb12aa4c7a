import Mathlib.Data.Multiset.Basic

/-!
# The iterators of the reference memories

`L3MemoryIterator` and `L2MemoryIterator` are the same class: a list of keys, and the index of the
next one.
-/

namespace ItchOrderBook.Ref

/-- `L3MemoryIterator` and `L2MemoryIterator`. -/
structure MemoryIterator (κ : Type) where
  items : List κ
  index : ℕ

namespace MemoryIterator

variable {κ : Type}

/-- `L3MemoryIterator(items)`. -/
def new (items : List κ) : MemoryIterator κ := ⟨items, 0⟩

/-- `__next__`: the next key, or `StopIteration`. -/
def next (it : MemoryIterator κ) : Option (κ × MemoryIterator κ) :=
  match it.items[it.index]? with
  | some item => some (item, { it with index := it.index + 1 })
  | none => none

theorem next_index {it it' : MemoryIterator κ} {item : κ} (h : it.next = some (item, it')) :
    it'.items = it.items ∧ it'.index = it.index + 1 ∧ it.items[it.index]? = some item := by
  unfold next at h
  split at h
  · rename_i heq
    cases h
    exact ⟨rfl, rfl, heq⟩
  · cases h

/-- `list(iterator)`: `__next__` is called until it raises `StopIteration`. -/
def toList (it : MemoryIterator κ) : List κ :=
  match _hnext : it.next with
  | none => []
  | some (item, it') => item :: it'.toList
termination_by it.items.length - it.index
decreasing_by
  obtain ⟨h1, h2, h3⟩ := next_index _hnext
  obtain ⟨hlt, -⟩ := List.getElem?_eq_some_iff.1 h3
  rw [h1, h2]
  omega

/-- An iterator gives the items from its index on. -/
theorem toList_eq_drop (it : MemoryIterator κ) : it.toList = it.items.drop it.index := by
  fun_induction toList it with
  | case1 it h =>
    unfold next at h
    split at h
    · cases h
    · rename_i heq
      exact (List.drop_eq_nil_of_le (List.getElem?_eq_none_iff.1 heq)).symm
  | case2 it item it' h ih =>
    obtain ⟨h1, h2, h3⟩ := next_index h
    obtain ⟨hlt, rfl⟩ := List.getElem?_eq_some_iff.1 h3
    rw [ih, h1, h2, List.getElem_cons_drop]

theorem toList_new (items : List κ) : (new items).toList = items := toList_eq_drop _

/-- The keys an iterator over `keys` gives, in whatever order they were collected. -/
def yielded (keys : Multiset κ) : Multiset κ :=
  Quot.liftOn keys (fun items => ((new items).toList : Multiset κ)) fun a b h => by
    rw [toList_new, toList_new]
    exact Multiset.coe_eq_coe.2 h

@[simp] theorem yielded_eq (keys : Multiset κ) : yielded keys = keys := by
  induction keys using Quot.inductionOn with
  | h items => exact congrArg _ (toList_new items)

end MemoryIterator

end ItchOrderBook.Ref
