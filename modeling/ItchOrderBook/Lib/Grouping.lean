import ItchOrderBook.Lib.Tally

/-!
# Sums by key

`group key val s` is the finite map that a loop over `s` builds by adding `val x` to the entry of `key x`.
Its entry at a key is the sum over the items with this key, if there are any (`lookup_group`); in which
order the loop goes does not matter.
-/

namespace ItchOrderBook

variable {κ ν M : Type*} [DecidableEq κ] [AddCommMonoid M]

/-- The value is added to the entry of the key. -/
def addTo (d : Finmap fun _ : κ => M) (k : κ) (m : M) : Finmap fun _ : κ => M :=
  d.insert k ((d.lookup k).getD 0 + m)

theorem lookup_addTo (d : Finmap fun _ : κ => M) (k k' : κ) (m : M) :
    (addTo d k m).lookup k' = if k' = k then some ((d.lookup k').getD 0 + m) else d.lookup k' := by
  unfold addTo
  split_ifs with h
  · subst h
    rw [Finmap.lookup_insert]
  · rw [Finmap.lookup_insert_of_ne _ h]

/-- Two values may be added in either order. -/
theorem addTo_right_comm (d : Finmap fun _ : κ => M) (k k' : κ) (m m' : M) :
    addTo (addTo d k m) k' m' = addTo (addTo d k' m') k m := by
  apply Finmap.ext_lookup
  intro x
  simp only [lookup_addTo]
  split_ifs
  · rw [Option.getD_some, Option.getD_some, add_right_comm]
  · rfl
  · rfl
  · rfl

/-- The sums of the values by key. -/
def group (key : ν → κ) (val : ν → M) (s : Multiset ν) : Finmap fun _ : κ => M :=
  have : RightCommutative fun (d : Finmap fun _ : κ => M) x => addTo d (key x) (val x) :=
    ⟨fun d x y => addTo_right_comm d (key x) (key y) (val x) (val y)⟩
  s.foldl (fun d x => addTo d (key x) (val x)) ∅

variable (key : ν → κ) (val : ν → M)

theorem lookup_foldl_addTo (l : List ν) (d : Finmap fun _ : κ => M) (k : κ) :
    (l.foldl (fun d x => addTo d (key x) (val x)) d).lookup k =
      if k ∈ l.map key then some ((d.lookup k).getD 0 + ((l.filter fun x => key x = k).map val).sum)
      else d.lookup k := by
  induction l generalizing d with
  | nil => simp
  | cons y l ih =>
    rw [List.foldl_cons, ih, lookup_addTo, List.map_cons]
    by_cases hy : k = key y
    · subst hy
      rw [if_pos rfl, if_pos List.mem_cons_self, Option.getD_some,
        List.filter_cons_of_pos (by simp), List.map_cons, List.sum_cons, ← add_assoc]
      split_ifs with hl
      · rfl
      · -- no other item has the key
        have hnil : (l.filter fun x => key x = key y) = [] := by
          rw [List.filter_eq_nil_iff]
          intro x hx hxy
          exact hl (of_decide_eq_true hxy ▸ List.mem_map_of_mem hx)
        rw [hnil, List.map_nil, List.sum_nil, add_zero]
    · rw [if_neg hy, List.filter_cons_of_neg (by simpa using Ne.symm hy)]
      simp only [List.mem_cons, hy, false_or]

/-- **The sum of a key.** -/
theorem lookup_group (s : Multiset ν) (k : κ) :
    (group key val s).lookup k =
      if k ∈ s.map key then some ((s.filter fun x => key x = k).map val).sum else none := by
  induction s using Quotient.inductionOn with
  | h l =>
    refine (lookup_foldl_addTo key val l ∅ k).trans ?_
    rw [Finmap.lookup_empty, Option.getD_none, zero_add]
    rfl

end ItchOrderBook
