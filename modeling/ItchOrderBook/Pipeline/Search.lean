import ItchOrderBook.Rtl.L2PriceTable
import Mathlib.Data.List.Sort
import Mathlib.Order.Bounds.Defs

/-!
# The search for the next price level

The existence bits are searched in two cycles: in each block of orderings, then over the blocks. For
the bids the blocks and the places in them are gone through from the top, below the given ordering;
for the offers from the bottom, above it. Either way the places searched in a block are those of the
existing orderings on the right side of the mask (`bidLocalEnc_eq`, `offLocalEnc_eq`), and going
through the blocks in the same direction gives the ordering next to it (`searches_exact`).
-/

namespace ItchOrderBook.Pipeline

open Rtl.Search

/-- No element with the property comes before the one that a search finds. -/
theorem not_before_find? {α : Type*} {R : α → α → Prop} {l : List α} {p : α → Bool} {a b : α}
    (hl : l.Pairwise R) (hR : ∀ a b, R a b → ¬ R b a) (hfind : l.find? p = some a) (hb : b ∈ l)
    (hp : p b = true) : ¬ R b a := by
  obtain ⟨-, pre, post, rfl, hpre⟩ := List.find?_eq_some_iff_append.1 hfind
  rcases List.mem_append.1 hb with hmem | hmem
  · have hnot := hpre b hmem
    rw [hp] at hnot
    cases hnot
  · rcases List.mem_cons.1 hmem with rfl | hmem
    · exact fun h => hR b b h h
    · have htail := (List.pairwise_append.1 hl).2.1
      exact hR a b ((List.pairwise_cons.1 htail).1 b hmem)

variable {logCnt logW : ℕ}

/-! ### Blocks and places -/

theorem toNat_blockOrdering (b : Fin (2 ^ logCnt)) (i : Fin (2 ^ logW)) :
    (blockOrdering logCnt logW b i).toNat = b * 2 ^ logW + i := by
  have hb : (b : ℕ) * 2 ^ logW + 2 ^ logW ≤ 2 ^ (logCnt + logW) := by
    rw [pow_add, ← Nat.succ_mul]
    exact Nat.mul_le_mul_right _ b.isLt
  have hi := i.isLt
  rw [blockOrdering, BitVec.toNat_ofNat, Nat.shiftLeft_eq]
  exact Nat.mod_eq_of_lt (by omega)

/-- The block and the place of an ordering. -/
theorem exists_blockOrdering (k : BitVec (logCnt + logW)) : ∃ b i, k = blockOrdering logCnt logW b i := by
  have hk := k.isLt
  rw [pow_add, Nat.mul_comm] at hk
  refine ⟨⟨k.toNat / 2 ^ logW, Nat.div_lt_of_lt_mul hk⟩,
    ⟨k.toNat % 2 ^ logW, Nat.mod_lt _ (Nat.two_pow_pos _)⟩, ?_⟩
  apply BitVec.eq_of_toNat_eq
  rw [toNat_blockOrdering]
  exact (Nat.div_add_mod' _ _).symm

/-- Orderings go by the block first, then by the place. -/
theorem blockOrdering_lt {b b' : Fin (2 ^ logCnt)} {i i' : Fin (2 ^ logW)} :
    blockOrdering logCnt logW b i < blockOrdering logCnt logW b' i' ↔ b < b' ∨ b = b' ∧ i < i' := by
  have hi := i.isLt
  have hi' := i'.isLt
  rw [BitVec.lt_def, toNat_blockOrdering, toNat_blockOrdering, Fin.lt_def, Fin.lt_def, Fin.ext_iff]
  rcases lt_trichotomy (b : ℕ) b' with h | h | h
  · have hle := Nat.mul_le_mul_right (2 ^ logW) (Nat.succ_le_of_lt h)
    rw [Nat.succ_mul] at hle
    omega
  · rw [h]
    omega
  · have hle := Nat.mul_le_mul_right (2 ^ logW) (Nat.succ_le_of_lt h)
    rw [Nat.succ_mul] at hle
    omega

/-- The block bits and the place bits of an ordering. -/
theorem extract_ordering (b : Fin (2 ^ logCnt)) (i : Fin (2 ^ logW)) :
    ((blockOrdering logCnt logW b i).extractLsb' logW logCnt).toNat = b ∧
      ((blockOrdering logCnt logW b i).extractLsb' 0 logW).toNat = i := by
  rw [BitVec.extractLsb'_toNat, BitVec.extractLsb'_toNat, Nat.shiftRight_eq_div_pow,
    toNat_blockOrdering, Nat.shiftRight_zero, Nat.mul_comm, Nat.mul_add_mod,
    Nat.mul_add_div (Nat.two_pow_pos _), Nat.div_eq_of_lt i.isLt, Nat.add_zero]
  exact ⟨Nat.mod_eq_of_lt b.isLt, Nat.mod_eq_of_lt i.isLt⟩

/-! ### The encoders -/

section Encoders

variable {exist : BitVec (logCnt + logW) → Bool} {ordering : BitVec (logCnt + logW)}
  {b : Fin (2 ^ logCnt)}

theorem find?_none {l : List (Fin (2 ^ logW))} {p : Fin (2 ^ logW) → Bool} (h : ∀ i, p i = false) :
    localEnc logW (l.find? p) = ⟨false, 0⟩ := by
  rw [List.find?_eq_none.2 fun i _ => by simp [h i]]
  rfl

/-- The encoder of a block on the bid side goes through the existing orderings below the mask. -/
theorem bidLocalEnc_eq (exist : BitVec (logCnt + logW) → Bool) (ordering : BitVec (logCnt + logW))
    (b : Fin (2 ^ logCnt)) :
    bidLocalEnc logCnt logW exist ordering b =
      localEnc logW ((List.finRange (2 ^ logW)).reverse.find? fun i =>
        exist (blockOrdering logCnt logW b i) &&
          decide (blockOrdering logCnt logW b i < ordering)) := by
  obtain ⟨b₀, i₀, rfl⟩ := exists_blockOrdering ordering
  obtain ⟨hhi, hlo⟩ := extract_ordering b₀ i₀
  simp only [bidLocalEnc, hhi, hlo, blockOrdering_lt, ← Fin.lt_def, ← Fin.ext_iff]
  rcases lt_trichotomy b b₀ with h | h | h
  · simp only [h, if_true, true_or, decide_true, Bool.and_true]
  · simp only [h, lt_irrefl, if_false, if_true, false_or, true_and]
  · rw [if_neg h.not_gt, if_neg h.ne']
    refine (find?_none fun i => ?_).symm
    rw [decide_eq_false (by omega), Bool.and_false]

/-- The encoder of a block on the offer side goes through the existing orderings above the mask. -/
theorem offLocalEnc_eq (exist : BitVec (logCnt + logW) → Bool) (ordering : BitVec (logCnt + logW))
    (b : Fin (2 ^ logCnt)) :
    offLocalEnc logCnt logW exist ordering b =
      localEnc logW ((List.finRange (2 ^ logW)).find? fun i =>
        exist (blockOrdering logCnt logW b i) &&
          decide (ordering < blockOrdering logCnt logW b i)) := by
  obtain ⟨b₀, i₀, rfl⟩ := exists_blockOrdering ordering
  obtain ⟨hhi, hlo⟩ := extract_ordering b₀ i₀
  simp only [offLocalEnc, hhi, hlo, blockOrdering_lt, gt_iff_lt, ← Fin.lt_def, ← Fin.ext_iff]
  rcases lt_trichotomy b b₀ with h | h | h
  · rw [if_neg h.not_gt, if_neg h.ne]
    refine (find?_none fun i => ?_).symm
    rw [decide_eq_false (by omega), Bool.and_false]
  · simp only [h, lt_irrefl, if_false, if_true, false_or, true_and]
  · simp only [h, if_true, true_or, decide_true, Bool.and_true]

theorem enc_append (b : Fin (2 ^ logCnt)) (i : Fin (2 ^ logW)) :
    BitVec.ofNat logCnt b ++ BitVec.ofNat logW i = blockOrdering logCnt logW b i := by
  apply BitVec.eq_of_toNat_eq
  rw [toNat_blockOrdering, BitVec.toNat_append]
  simp only [BitVec.toNat_ofNat]
  rw [Nat.mod_eq_of_lt i.isLt, Nat.mod_eq_of_lt b.isLt, ← Nat.shiftLeft_add_eq_or_of_lt i.isLt,
    Nat.shiftLeft_eq]

variable {P : BitVec (logCnt + logW) → Bool} {blocks : List (Fin (2 ^ logCnt))}
  {places : List (Fin (2 ^ logW))}

/-- A block is valid if it has a place with the property. -/
theorem localEnc_valid (hplaces : ∀ i, i ∈ places) {p : Fin (2 ^ logW) → Bool} :
    (localEnc logW (places.find? p)).valid = true ↔ ∃ i, p i = true := by
  constructor
  · intro h
    cases hfind : places.find? p with
    | none =>
      rw [hfind] at h
      cases h
    | some i => exact ⟨i, List.find?_some hfind⟩
  · rintro ⟨i, hi⟩
    obtain ⟨j, hj⟩ := Option.isSome_iff_exists.1 (List.find?_isSome.2 ⟨i, hplaces i, hi⟩)
    rw [hj]
    rfl

/-- **The two encoders** find an ordering with the property, and none with the property comes before
it in the order in which the blocks and the places are gone through. -/
theorem exists_globalEnc {Rb : Fin (2 ^ logCnt) → Fin (2 ^ logCnt) → Prop}
    {Ri : Fin (2 ^ logW) → Fin (2 ^ logW) → Prop} (hb : blocks.Pairwise Rb) (hi : places.Pairwise Ri)
    (hRb : ∀ a b, Rb a b → ¬ Rb b a) (hRi : ∀ a b, Ri a b → ¬ Ri b a) (hblocks : ∀ b, b ∈ blocks)
    (hplaces : ∀ i, i ∈ places) (h : ∃ k, P k = true) :
    ∃ b i, globalEnc logCnt logW
        (fun b => localEnc logW (places.find? fun i => P (blockOrdering logCnt logW b i))) blocks =
          blockOrdering logCnt logW b i ∧
      P (blockOrdering logCnt logW b i) = true ∧
      ∀ b' i', P (blockOrdering logCnt logW b' i') = true → ¬ Rb b' b ∧ (b' = b → ¬ Ri i' i) := by
  obtain ⟨k, hk⟩ := h
  obtain ⟨b₁, i₁, rfl⟩ := exists_blockOrdering k
  have hvalid : ∀ b i, P (blockOrdering logCnt logW b i) = true →
      (localEnc logW (places.find? fun i => P (blockOrdering logCnt logW b i))).valid = true :=
    fun b i hP => (localEnc_valid hplaces).2 ⟨i, hP⟩
  obtain ⟨b, hbfind⟩ : ∃ b, blocks.find? (fun b =>
      (localEnc logW (places.find? fun i => P (blockOrdering logCnt logW b i))).valid) = some b :=
    Option.isSome_iff_exists.1 (List.find?_isSome.2 ⟨b₁, hblocks b₁, hvalid b₁ i₁ hk⟩)
  have hbvalid := List.find?_some hbfind
  obtain ⟨i₂, hi₂⟩ := (localEnc_valid hplaces).1 hbvalid
  obtain ⟨i, hifind⟩ : ∃ i, places.find? (fun i => P (blockOrdering logCnt logW b i)) = some i :=
    Option.isSome_iff_exists.1 (List.find?_isSome.2 ⟨i₂, hplaces i₂, hi₂⟩)
  have hivalid := List.find?_some hifind
  refine ⟨b, i, ?_, hivalid, fun b' i' hP => ⟨?_, ?_⟩⟩
  · rw [globalEnc, hbfind]
    dsimp only
    rw [hifind]
    exact enc_append b i
  · exact not_before_find? hb hRb hbfind (hblocks b') (hvalid b' i' hP)
  · rintro rfl
    exact not_before_find? hi hRi hifind (hplaces i') hP

/-! ### The search -/

/-- The orderings that the bid search looks for. -/
def below (exist : BitVec (logCnt + logW) → Bool) (ordering : BitVec (logCnt + logW)) :
    Set (BitVec (logCnt + logW)) := {k | k < ordering ∧ exist k = true}

/-- The orderings that the offer search looks for. -/
def above (exist : BitVec (logCnt + logW) → Bool) (ordering : BitVec (logCnt + logW)) :
    Set (BitVec (logCnt + logW)) := {k | ordering < k ∧ exist k = true}

theorem isGreatest_bidEnc (h : (below exist ordering).Nonempty) :
    IsGreatest (below exist ordering)
      (bidEnc logCnt logW (bidLocalEnc logCnt logW exist ordering)) := by
  obtain ⟨k, hlt, hk⟩ := h
  obtain ⟨b, i, henc, hP, hfirst⟩ := exists_globalEnc
    (P := fun k => exist k && decide (k < ordering))
    (List.pairwise_reverse.2 (List.pairwise_lt_finRange (2 ^ logCnt)))
    (List.pairwise_reverse.2 (List.pairwise_lt_finRange (2 ^ logW)))
    (fun _ _ => lt_asymm) (fun _ _ => lt_asymm)
    (fun b => List.mem_reverse.2 (List.mem_finRange b))
    (fun i => List.mem_reverse.2 (List.mem_finRange i)) ⟨k, by simp [hlt, hk]⟩
  rw [bidEnc, funext (bidLocalEnc_eq exist ordering), henc]
  rw [Bool.and_eq_true, decide_eq_true_eq] at hP
  refine ⟨⟨hP.2, hP.1⟩, ?_⟩
  rintro j ⟨hjlt, hj⟩
  obtain ⟨b', i', rfl⟩ := exists_blockOrdering j
  obtain ⟨hb, hi⟩ := hfirst b' i' (by simp [hjlt, hj])
  rw [← BitVec.not_lt, blockOrdering_lt]
  rintro (hlt | ⟨heq, hlt⟩)
  · exact hb hlt
  · exact hi heq.symm hlt

theorem isLeast_offEnc (h : (above exist ordering).Nonempty) :
    IsLeast (above exist ordering)
      (offEnc logCnt logW (offLocalEnc logCnt logW exist ordering)) := by
  obtain ⟨k, hlt, hk⟩ := h
  obtain ⟨b, i, henc, hP, hfirst⟩ := exists_globalEnc
    (P := fun k => exist k && decide (ordering < k))
    (List.pairwise_lt_finRange (2 ^ logCnt)) (List.pairwise_lt_finRange (2 ^ logW))
    (fun _ _ => lt_asymm) (fun _ _ => lt_asymm) List.mem_finRange List.mem_finRange
    ⟨k, by simp [hlt, hk]⟩
  rw [offEnc, funext (offLocalEnc_eq exist ordering), henc]
  rw [Bool.and_eq_true, decide_eq_true_eq] at hP
  refine ⟨⟨hP.2, hP.1⟩, ?_⟩
  rintro j ⟨hjlt, hj⟩
  obtain ⟨b', i', rfl⟩ := exists_blockOrdering j
  obtain ⟨hb, hi⟩ := hfirst b' i' (by simp [hjlt, hj])
  rw [← BitVec.not_lt, blockOrdering_lt]
  rintro (hlt | ⟨heq, hlt⟩)
  · exact hb hlt
  · exact hi heq hlt

theorem bidLocalEnc_invalid (h : ¬ (below exist ordering).Nonempty) (b : Fin (2 ^ logCnt)) :
    (bidLocalEnc logCnt logW exist ordering b).valid = false := by
  rw [bidLocalEnc_eq, find?_none]
  intro i
  rw [Bool.and_eq_false_iff, decide_eq_false_iff_not, ← Bool.not_eq_true]
  by_contra hne
  rw [not_or, not_not, not_not] at hne
  exact h ⟨_, hne.2, hne.1⟩

theorem offLocalEnc_invalid (h : ¬ (above exist ordering).Nonempty) (b : Fin (2 ^ logCnt)) :
    (offLocalEnc logCnt logW exist ordering b).valid = false := by
  rw [offLocalEnc_eq, find?_none]
  intro i
  rw [Bool.and_eq_false_iff, decide_eq_false_iff_not, ← Bool.not_eq_true]
  by_contra hne
  rw [not_or, not_not, not_not] at hne
  exact h ⟨_, hne.2, hne.1⟩

end Encoders

/-- **The search is exact.** Two cycles after a mask is presented with the existence bits, the bid side
has encoded the greatest existing ordering below it and the offer side the least one above it, if there
is one; if there is none, no block is marked as valid. -/
theorem searches_exact (q : Regs logCnt logW) (i i' : In logCnt logW) :
    ((below i.existArr i.updtOrdering).Nonempty →
      IsGreatest (below i.existArr i.updtOrdering) (bidNext (bidNext q i) i').enc) ∧
    (¬ (below i.existArr i.updtOrdering).Nonempty →
      ∀ b, ((bidNext q i).localEncArr b).valid = false) ∧
    ((above i.existArr i.updtOrdering).Nonempty →
      IsLeast (above i.existArr i.updtOrdering) (offNext (offNext q i) i').enc) ∧
    (¬ (above i.existArr i.updtOrdering).Nonempty →
      ∀ b, ((offNext q i).localEncArr b).valid = false) :=
  ⟨isGreatest_bidEnc, bidLocalEnc_invalid, isLeast_offEnc, offLocalEnc_invalid⟩

/-! ### The search of the price table -/

section Table

/-- The registers of the search on one side of the price table. -/
def encoders (s : Rtl.SearchRegs) : Regs 6 5 := ⟨s.localEncArr, s.enc⟩

/-- The price table has a search on each side, which sees its existence bits. -/
theorem l2_next_encoders (q : Rtl.L2Regs) (i : Rtl.L2In) :
    encoders (q.next i).bid = bidNext (encoders q.bid) ⟨q.existArr, q.bid.updtOrdering⟩ ∧
      encoders (q.next i).off = offNext (encoders q.off) ⟨q.existArr, q.off.updtOrdering⟩ :=
  ⟨rfl, rfl⟩

variable {exist : BitVec 11 → Bool} {ordering k : BitVec 11}

/-- The bid search finds the greatest existing ordering below the given one. -/
theorem bidEnc_eq (hlt : k < ordering) (hk : exist k = true)
    (hno : ∀ j, k < j → j < ordering → exist j = false) :
    Rtl.bidEnc (Rtl.bidLocalEnc exist ordering) = k := by
  have hgreatest : IsGreatest {j | j < ordering ∧ exist j = true} k := by
    refine ⟨⟨hlt, hk⟩, ?_⟩
    rintro j ⟨hj, hexist⟩
    by_contra hkj
    rw [BitVec.not_le] at hkj
    rw [hno j hkj hj] at hexist
    cases hexist
  have hfound := @isGreatest_bidEnc 6 5 exist ordering ⟨k, hlt, hk⟩
  exact BitVec.le_antisymm (hgreatest.2 hfound.1) (hfound.2 hgreatest.1)

/-- The offer search finds the least existing ordering above the given one. -/
theorem offEnc_eq (hlt : ordering < k) (hk : exist k = true)
    (hno : ∀ j, ordering < j → j < k → exist j = false) :
    Rtl.offEnc (Rtl.offLocalEnc exist ordering) = k := by
  have hleast : IsLeast {j | ordering < j ∧ exist j = true} k := by
    refine ⟨⟨hlt, hk⟩, ?_⟩
    rintro j ⟨hj, hexist⟩
    by_contra hkj
    rw [BitVec.not_le] at hkj
    rw [hno j hj hkj] at hexist
    cases hexist
  have hfound := @isLeast_offEnc 6 5 exist ordering ⟨k, hlt, hk⟩
  exact BitVec.le_antisymm (hfound.2 hleast.1) (hleast.2 hfound.1)

end Table

end ItchOrderBook.Pipeline
