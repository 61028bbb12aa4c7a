import ItchOrderBook.Pipeline.Levels
import ItchOrderBook.Pipeline.Search
import ItchOrderBook.Pipeline.Shown

/-!
# The level that is fetched ahead

The price table searches for the next level past the second best one before it is known that this is
asked for, and hence in the existence bits of the orders before the message. As no bid is above an
offer, the search cannot run into the other side (`search_finds`), and where the half asks for a level it
is the one found (`exists_next`).
-/

namespace ItchOrderBook.Pipeline

open Book (Better Orders Placed covered ladder levelPrices levelShares sharesAt windowMax)
open Ref (BBOHalf)
open Rtl (LocalEnc bidEnc bidLocalEnc offEnc offLocalEnc)

/-- `bid_local_enc_arr_d` or `off_local_enc_arr_d`. -/
def localSearch (c : Bool) (exist : BitVec 11 → Bool) (ordering : BitVec 11) : Fin 64 → LocalEnc :=
  if c then bidLocalEnc exist ordering else offLocalEnc exist ordering

/-- `bid_enc_d` or `off_enc_d`. -/
def globalSearch (c : Bool) (arr : Fin 64 → LocalEnc) : BitVec 11 := if c then bidEnc arr else offEnc arr

section Next

variable {base k j : ℕ} {d : Orders} {c : Bool} {exist : BitVec 11 → Bool} {x y : ℤ × ℤ}

/-- The levels next to each other in a ladder have none between them. -/
theorem not_between {R : ℤ × ℤ → ℤ × ℤ → Prop} {l : List (ℤ × ℤ)} {i : ℕ} {z : ℤ × ℤ}
    (hirr : ∀ x, ¬ R x x) (htrans : ∀ x y z, R x y → R y z → R x z) (hl : l.Pairwise R)
    (hy : l[i]? = some y) (hx : l[i + 1]? = some x) (hz : z ∈ l) (hyz : R y z) : ¬ R z x := by
  intro hzx
  obtain ⟨hi, rfl⟩ := List.getElem?_eq_some_iff.1 hy
  obtain ⟨hi', rfl⟩ := List.getElem?_eq_some_iff.1 hx
  obtain ⟨j, hj, rfl⟩ := List.getElem_of_mem hz
  have hlt := List.pairwise_iff_getElem.1 hl
  rcases lt_trichotomy j i with h | rfl | h
  · exact hirr _ (htrans _ _ _ hyz (hlt _ _ hj hi h))
  · exact hirr _ hyz
  · rcases Nat.eq_or_lt_of_le h with rfl | h
    · exact hirr _ hzx
    · exact hirr _ (htrans _ _ _ hzx (hlt _ _ hi' hj h))

/-- A price with shares is one of the live prices of a side. -/
theorem exists_mem_of_sharesAt {p : ℤ} (hd : Placed {} false base d) (h : 0 < sharesAt d p) :
    ∃ b, p ∈ levelPrices d b := by
  by_cases hb : levelShares d true p = 0
  · refine ⟨false, (Book.mem_levelPrices_iff hd.positive).2 fun h' => ?_⟩
    rw [sharesAt, hb, h'] at h
    omega
  · exact ⟨true, (Book.mem_levelPrices_iff hd.positive).2 hb⟩

theorem sharesAt_of_ladder (hd : Placed {} false base d) (hx : x ∈ ladder d c) :
    sharesAt d x.1 = x.2 ∧ 0 < x.2 := by
  obtain ⟨-, hlev⟩ := ((Book.isLadder_ladder hd.positive).mem_iff x.1 x.2).1 hx
  exact ⟨(Book.sharesAt_of_mem hd (Book.mem_levelPrices_of_ladder hx)).trans hlev,
    ladder_pos hd.positive x hx⟩

/-- **The search finds the next level.** Past the second level of a side, in the direction of the
search, there is nothing before the third one. -/
theorem search_finds (hd : Placed {} false base d) (hexist : HoldsExist base (sharesAt d) exist)
    (hy : (ladder d c)[1]? = some y) (hx : (ladder d c)[2]? = some x) (hj : j < 2048) (hk : k < 2048)
    (hyj : y.1 = base + 50 * j) (hxk : x.1 = base + 50 * k) :
    globalSearch c (localSearch c exist (BitVec.ofNat 11 j)) = BitVec.ofNat 11 k := by
  have hsorted : List.Pairwise (fun x y => Better c x.1 y.1) (ladder d c) :=
    (Book.isLadder_ladder hd.positive).sorted
  have hmemy := List.mem_of_getElem? hy
  have hmemx := List.mem_of_getElem? hx
  have hyx : Better c y.1 x.1 := by
    obtain ⟨hi, rfl⟩ := List.getElem?_eq_some_iff.1 hy
    obtain ⟨hi', rfl⟩ := List.getElem?_eq_some_iff.1 hx
    exact List.pairwise_iff_getElem.1 hsorted _ _ hi hi' (by omega)
  have hkx : exist (BitVec.ofNat 11 k) = true := by
    obtain ⟨hs, hpos⟩ := sharesAt_of_ladder hd hmemx
    rw [hexist k hk, decide_eq_true_iff, ← hxk, hs]
    exact hpos
  -- a price between the two would be a level between them, or a level of the other side
  have hno : ∀ n : ℕ, n < 2048 → Better c y.1 (base + 50 * n) → Better c (base + 50 * n) x.1 →
      exist (BitVec.ofNat 11 n) = false := by
    intro n hn h1 h2
    rw [hexist n hn, decide_eq_false_iff_not]
    intro hpos
    obtain ⟨b, hb⟩ := exists_mem_of_sharesAt hd hpos
    by_cases hbc : b = c
    · subst hbc
      have hz : ((base + 50 * n : ℤ), levelShares d b (base + 50 * n)) ∈ ladder d b :=
        List.mem_map.2 ⟨_, Book.mem_sortPrices.2 hb, rfl⟩
      exact not_between (R := fun x y => Better b x.1 y.1) (fun x => irrefl x.1)
        (fun _ _ _ => IsTrans.trans _ _ _) hsorted hy hx hz h1 h2
    · have hmem := Book.mem_levelPrices_of_ladder hmemy
      cases c with
      | true =>
        have := hd.uncrossed _ hmem _ (Bool.eq_false_of_not_eq_true hbc ▸ hb)
        simp only [Better, if_true] at h1
        omega
      | false =>
        have := hd.uncrossed _ (Bool.eq_true_of_not_eq_false hbc ▸ hb) _ hmem
        simp only [Better, Bool.false_eq_true, if_false] at h1
        omega
  have hbetween : ∀ o : BitVec 11, ∃ n : ℕ, n < 2048 ∧ o = BitVec.ofNat 11 n ∧ o.toNat = n :=
    fun o => ⟨o.toNat, o.isLt, by simp, rfl⟩
  have hmodj : (BitVec.ofNat 11 j).toNat = j := by
    rw [BitVec.toNat_ofNat, Nat.mod_eq_of_lt hj]
  have hmodk : (BitVec.ofNat 11 k).toNat = k := by
    rw [BitVec.toNat_ofNat, Nat.mod_eq_of_lt hk]
  cases c with
  | true =>
    simp only [Better, if_true] at hyx hno
    refine bidEnc_eq ?_ hkx fun o h1 h2 => ?_
    · rw [BitVec.lt_def, hmodj, hmodk]
      omega
    · obtain ⟨n, hn, rfl, hon⟩ := hbetween o
      rw [BitVec.lt_def, hon] at h1 h2
      exact hno n hn (by omega) (by omega)
  | false =>
    simp only [Better, Bool.false_eq_true, if_false] at hyx hno
    refine offEnc_eq ?_ hkx fun o h1 h2 => ?_
    · rw [BitVec.lt_def, hmodj, hmodk]
      omega
    · obtain ⟨n, hn, rfl, hon⟩ := hbetween o
      rw [BitVec.lt_def, hon] at h1 h2
      exact hno n hn (by omega) (by omega)

/-- A live price that is covered has a place in the window. -/
theorem exists_place_of_mem {p : ℤ} (hbase : base % 50 = 0) (hd : Placed {} false base d)
    (hp : p ∈ levelPrices d c) (hcov : covered {} false base p = true) :
    ∃ k : ℕ, k < 2048 ∧ p = base + 50 * k := by
  obtain ⟨i, e, he, -, rfl⟩ := Book.mem_levelPrices.1 hp
  have htick := hd.tick i e he
  rw [Book.covered_hw, windowMax, show ({} : Ref.Params).l2MemSize = 2048 from rfl] at hcov
  exact ⟨((e.price - base) / 50).toNat, by omega, by omega⟩

/-- **The level asked for.** A half that shows one level while some other is in range gets the second
one, which has a place in the window. -/
theorem exists_next (hbase : base % 50 = 0) (hd : Placed {} false base d)
    (hr : 0 < (shown base 1 d c).outsideSharesInRange) :
    ∃ (x : ℤ × ℤ) (k : ℕ), (ladder d c)[1]? = some x ∧ k < 2048 ∧ x.1 = base + 50 * k ∧
      covered {} false base x.1 = true := by
  obtain ⟨x, hx, hmem, hcov⟩ := Book.exists_refill hd shown_window shown_halfAt hr
  obtain ⟨k, hk, hxk⟩ := exists_place_of_mem hbase hd hmem hcov
  exact ⟨x, k, hx, hk, hxk, hcov⟩

/-- With the third level, the second one is covered. -/
theorem exists_second (hbase : base % 50 = 0) (hd : Placed {} false base d)
    (hx : (ladder d c)[2]? = some x) (hcov : covered {} false base x.1 = true) :
    ∃ (y : ℤ × ℤ) (j : ℕ), (ladder d c)[1]? = some y ∧ j < 2048 ∧ y.1 = base + 50 * j := by
  obtain ⟨hi, rfl⟩ := List.getElem?_eq_some_iff.1 hx
  have hsorted : List.Pairwise (fun x y => Better c x.1 y.1) (ladder d c) :=
    (Book.isLadder_ladder hd.positive).sorted
  have hbetter : Better c (ladder d c)[1].1 (ladder d c)[2].1 :=
    List.pairwise_iff_getElem.1 hsorted _ _ (by omega) hi (by omega)
  have hmem := Book.mem_levelPrices_of_ladder (List.getElem_mem (show 1 < (ladder d c).length by omega))
  obtain ⟨j, hj, hyj⟩ := exists_place_of_mem hbase hd hmem (Book.covered_of_better hd hmem hbetter hcov)
  exact ⟨_, j, List.getElem?_eq_getElem _, hj, hyj⟩

end Next

end ItchOrderBook.Pipeline
