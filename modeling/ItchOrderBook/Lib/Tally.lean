import Mathlib.Data.Finmap
import Mathlib.Algebra.BigOperators.Group.Finset.Basic
import Mathlib.Algebra.Order.BigOperators.Group.Multiset
import Mathlib.Algebra.Order.Ring.Int

/-!
# Tallies over finite maps

`tally f d` is the sum of `f k v` over the entries of the finite map `d`, in any commutative
additive monoid. An insertion of a new key adds its summand, an erasure removes the summand of
the erased entry, and overwriting a key exchanges one summand for the other.
-/

namespace ItchOrderBook

variable {κ ν M : Type*} [AddCommMonoid M]

/-- The sum of `f k v` over all entries of a finite map. -/
def tally (f : κ → ν → M) (d : Finmap fun _ : κ => ν) : M :=
  (d.entries.map fun e => f e.1 e.2).sum

variable (f : κ → ν → M) (d : Finmap fun _ : κ => ν) {k : κ} {v w : ν}

@[simp] theorem tally_empty : tally f (∅ : Finmap fun _ : κ => ν) = 0 := rfl

variable [DecidableEq κ]

theorem tally_insert_of_notMem (h : k ∉ d) : tally f (d.insert k v) = f k v + tally f d := by
  rw [tally, Finmap.entries_insert_of_notMem h, Multiset.map_cons, Multiset.sum_cons, tally]

theorem insert_erase_self (h : d.lookup k = some v) : (d.erase k).insert k v = d := by
  refine Finmap.ext_lookup fun x => ?_
  by_cases hx : x = k
  · subst hx; rw [Finmap.lookup_insert, h]
  · rw [Finmap.lookup_insert_of_ne _ hx, Finmap.lookup_erase_ne hx]

theorem insert_erase_insert : (d.erase k).insert k v = d.insert k v := by
  refine Finmap.ext_lookup fun x => ?_
  by_cases hx : x = k
  · subst hx; simp only [Finmap.lookup_insert]
  · simp only [Finmap.lookup_insert_of_ne _ hx, Finmap.lookup_erase_ne hx]

/-- An entry's summand and the tally without the entry make up the whole. -/
theorem tally_erase (h : d.lookup k = some v) : tally f d = f k v + tally f (d.erase k) := by
  conv_lhs => rw [← insert_erase_self d h]
  exact tally_insert_of_notMem f _ Finmap.notMem_erase_self

/-- Overwriting an entry exchanges its summand. -/
theorem tally_insert_of_lookup (h : d.lookup k = some v) :
    f k v + tally f (d.insert k w) = f k w + tally f d := by
  rw [← insert_erase_insert, tally_insert_of_notMem f _ Finmap.notMem_erase_self,
    tally_erase f d h]
  ac_rfl

variable {f d} in
theorem tally_eq_zero (hd : ∀ k v, d.lookup k = some v → f k v = 0) : tally f d = 0 := by
  refine Multiset.sum_eq_zero fun x hx => ?_
  obtain ⟨⟨k, v⟩, he, rfl⟩ := Multiset.mem_map.1 hx
  exact hd k v (Finmap.lookup_eq_some_iff.2 he)

section Ordered

variable {N : Type*} [AddCommMonoid N] [PartialOrder N] [IsOrderedAddMonoid N] {h : κ → ν → N}
  {d : Finmap fun _ : κ => ν} {k : κ} {v : ν}

theorem tally_nonneg (hd : ∀ k v, d.lookup k = some v → 0 ≤ h k v) : 0 ≤ tally h d := by
  refine Multiset.sum_nonneg fun x hx => ?_
  obtain ⟨⟨k, v⟩, he, rfl⟩ := Multiset.mem_map.1 hx
  exact hd k v (Finmap.lookup_eq_some_iff.2 he)

/-- No summand exceeds a tally of nonnegative summands. -/
theorem le_tally (hd : ∀ k v, d.lookup k = some v → 0 ≤ h k v) (hk : d.lookup k = some v) :
    h k v ≤ tally h d := by
  rw [tally_erase h d hk]
  refine le_add_of_nonneg_right (tally_nonneg fun x w hw => hd x w ?_)
  by_cases hx : x = k
  · subst hx; rw [Finmap.lookup_erase] at hw; cases hw
  · rwa [Finmap.lookup_erase_ne hx] at hw

/-- A tally grows with its summands. -/
theorem tally_le_tally {g : κ → ν → N} (hd : ∀ k v, d.lookup k = some v → h k v ≤ g k v) :
    tally h d ≤ tally g d :=
  Multiset.sum_map_le_sum_map _ _ fun e he => hd e.1 e.2 (Finmap.lookup_eq_some_iff.2 he)

omit [DecidableEq κ] in
theorem card_keys (d : Finmap fun _ : κ => ν) : d.keys.card = d.entries.card := by
  rw [Finset.card_def]
  exact Multiset.card_map _ _

/-- A tally of bounded summands. -/
theorem tally_le_card {b : N} (hd : ∀ k v, d.lookup k = some v → h k v ≤ b) :
    tally h d ≤ d.keys.card • b := by
  rw [card_keys, ← Multiset.card_map (fun e => h e.1 e.2) d.entries]
  refine Multiset.sum_le_card_nsmul _ _ fun x hx => ?_
  obtain ⟨⟨k, v⟩, he, rfl⟩ := Multiset.mem_map.1 hx
  exact hd k v (Finmap.lookup_eq_some_iff.2 he)

end Ordered

omit [DecidableEq κ] in
/-- Tallies are added summand by summand. -/
theorem sum_tally {ι : Type*} (s : Finset ι) (f : ι → κ → ν → M) :
    ∑ i ∈ s, tally (f i) d = tally (fun k v => ∑ i ∈ s, f i k v) d :=
  Multiset.sum_map_sum_map s.1 d.entries

end ItchOrderBook
