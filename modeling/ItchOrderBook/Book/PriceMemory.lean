import ItchOrderBook.Book.PriceStore
import ItchOrderBook.Lib.Mapping

/-!
# The bounded price memory is a dict on its window

`L2Memory` as a mapping. The hash is a bijection from the ticks of the window onto the array, with the
table of `init_params` as its inverse, and so an array of shares is a dict from prices to shares:
every request for prices of the window is answered as by the plain dict (`l2Memory_refines`).
-/

namespace ItchOrderBook.Book

open Ref

variable {cfg : Params} {base p : ℤ}

/-- A tick of the window. -/
def InWindow (cfg : Params) (base p : ℤ) : Prop := p % 50 = 0 ∧ covered cfg false base p

theorem l2MemSize_pos (cfg : Params) : 0 < cfg.l2MemSize := by
  rw [Params.l2MemSize, Nat.one_shiftLeft]
  exact Nat.two_pow_pos _

/-! ### The hash -/

theorem slot_lt (cfg : Params) (p : ℤ) : slot cfg p < cfg.l2MemSize := by
  have hpos : (0 : ℤ) < cfg.l2MemSize := by exact_mod_cast l2MemSize_pos cfg
  have hlt := Int.emod_lt_of_pos (p / 2) hpos
  unfold slot
  omega

theorem inWindow_iff (hbase : base % 50 = 0) : InWindow cfg base p ↔ p ∈ L2Memory.ticks cfg base := by
  rw [InWindow, covered_hw, windowMax, mem_ticks]
  constructor
  · rintro ⟨htick, hlo, hhi⟩
    exact ⟨((p - base) / 50).toNat, by omega, by omega⟩
  · rintro ⟨k, hk, rfl⟩
    omega

theorem slot_injOn (hbase : base % 50 = 0) {q : ℤ} (hp : InWindow cfg base p)
    (hq : InWindow cfg base q) (h : slot cfg p = slot cfg q) : p = q :=
  slot_inj hbase hp.1 hq.1 hp.2 hq.2 h

/-- Every index of the array is the hash of a tick: there are as many of the one as of the other. -/
theorem exists_slot (hbase : base % 50 = 0) {i : ℕ} (hi : i < cfg.l2MemSize) :
    ∃ p, InWindow cfg base p ∧ slot cfg p = i := by
  have hwindow : ∀ k < cfg.l2MemSize, InWindow cfg base (base + 50 * (k : ℕ)) :=
    fun k hk => (inWindow_iff hbase).2 (mem_ticks.2 ⟨k, hk, rfl⟩)
  have hsurj := Finset.surj_on_of_inj_on_of_card_le
    (s := Finset.range cfg.l2MemSize) (t := Finset.range cfg.l2MemSize)
    (fun k _ => slot cfg (base + 50 * (k : ℕ)))
    (fun k _ => Finset.mem_range.2 (slot_lt cfg _))
    (fun k k' hk hk' h => by
      have := slot_injOn hbase (hwindow k (Finset.mem_range.1 hk)) (hwindow k' (Finset.mem_range.1 hk')) h
      omega)
    le_rfl i (Finset.mem_range.2 hi)
  obtain ⟨k, hk, rfl⟩ := hsurj
  exact ⟨_, hwindow k (Finset.mem_range.1 hk), rfl⟩

/-! ### The inverse of the hash -/

theorem lookup_foldl_insert_of_notMem {f : ℤ → ℕ} {l : List ℤ} {i : ℕ} (hi : ∀ q ∈ l, f q ≠ i)
    (lut : HashLut) : (l.foldl (fun lut q => lut.insert (f q) q) lut).lookup i = lut.lookup i := by
  induction l generalizing lut with
  | nil => rfl
  | cons q l ih =>
    rw [List.foldl_cons, ih (fun q' hq' => hi q' (List.mem_cons_of_mem _ hq'))]
    exact Finmap.lookup_insert_of_ne _ (hi q List.mem_cons_self).symm

theorem lookup_foldl_insert {f : ℤ → ℕ} {l : List ℤ} (hf : ∀ q ∈ l, ∀ q' ∈ l, f q = f q' → q = q')
    (hp : p ∈ l) (lut : HashLut) :
    (l.foldl (fun lut q => lut.insert (f q) q) lut).lookup (f p) = some p := by
  induction l generalizing lut with
  | nil => cases hp
  | cons q l ih =>
    rw [List.foldl_cons]
    by_cases hpl : p ∈ l
    · exact ih (fun a ha b hb => hf a (List.mem_cons_of_mem _ ha) b (List.mem_cons_of_mem _ hb)) hpl _
    · obtain rfl := (List.mem_cons.1 hp).resolve_right hpl
      rw [lookup_foldl_insert_of_notMem, Finmap.lookup_insert]
      intro q hq he
      exact hpl (hf q (List.mem_cons_of_mem _ hq) p hp he ▸ hq)

/-- **The table inverts the hash** on the window. -/
theorem lookup_windowLut (hbase : base % 50 = 0) (hp : InWindow cfg base p) :
    (windowLut cfg base).lookup (slot cfg p) = some p := by
  refine lookup_foldl_insert (fun q hq q' hq' h => ?_) ((inWindow_iff hbase).1 hp) ∅
  exact slot_injOn hbase ((inWindow_iff hbase).2 hq) ((inWindow_iff hbase).2 hq') h

/-! ### The memory as a dict -/

/-- The methods of `L2Memory`. -/
def l2Mapping (cfg : Params) : Mapping (L2Memory cfg) ℤ ℤ Exn where
  set := L2Memory.setItem
  get := L2Memory.getItem
  del := L2Memory.delItem
  contains := L2Memory.contains
  len := L2Memory.len
  iter m := m.iter.map fun it => (it.toList : Multiset ℤ)

/-- The requests a window takes: positive shares are set, and stored prices are looked up. -/
def Offered (cfg : Params) (base : ℤ) (d : PriceDict) : MapOp ℤ ℤ → Prop
  | .set p v => InWindow cfg base p ∧ 0 < v
  | .get p => p ∈ d
  | .del p | .contains p => InWindow cfg base p
  | .len | .iter => True

/-- The memory holds the entries of a dict. -/
structure Presents (base : ℤ) (m : L2Memory cfg) (d : PriceDict) : Prop where
  entry : ∀ {p v}, d.lookup p = some v → InWindow cfg base p ∧ 0 < v
  arr : ∀ p, InWindow cfg base p → m.arr (slot cfg p) = (d.lookup p).getD 0
  lut : m.inverseHashLut = windowLut cfg base

section Presents

variable {m : L2Memory cfg} {d : PriceDict} (h : Presents base m d)
include h

theorem Presents.inWindow (hp : p ∈ d) : InWindow cfg base p := by
  obtain ⟨v, hv⟩ := Finmap.mem_iff.1 hp
  exact (h.entry hv).1

/-- A price is stored exactly when its share count is positive. -/
theorem Presents.arr_pos (hp : InWindow cfg base p) : 0 < m.arr (slot cfg p) ↔ p ∈ d := by
  rw [h.arr p hp]
  cases hv : d.lookup p with
  | none => exact iff_of_false (lt_irrefl 0) (Finmap.lookup_eq_none.1 hv)
  | some v => exact iff_of_true (h.entry hv).2 (Finmap.mem_of_lookup_eq_some hv)

theorem Presents.getItem {v : ℤ} (hv : d.lookup p = some v) : m.getItem p = .ok v := by
  obtain ⟨hp, -⟩ := h.entry hv
  rw [L2Memory.getItem, priceHash_tick hp.1]
  refine congrArg Except.ok ((h.arr p hp).trans ?_)
  rw [hv, Option.getD_some]

/-- Writing the share count of a price changes the dict at this price only. -/
theorem Presents.write (hbase : base % 50 = 0) (hp : InWindow cfg base p) {v : ℤ} {d' : PriceDict}
    (hv : (d'.lookup p).getD 0 = v) (hpos : ∀ w, d'.lookup p = some w → 0 < w)
    (hoff : ∀ q, q ≠ p → d'.lookup q = d.lookup q) :
    Presents base
      ({ m with arr := fun i => if i = slot cfg p then v else m.arr i } : L2Memory cfg) d' where
  entry {q w} hq := by
    by_cases hqp : q = p
    · exact hqp ▸ ⟨hp, hpos w (hqp ▸ hq)⟩
    · exact h.entry (hoff q hqp ▸ hq)
  arr q hq := by
    by_cases hqp : q = p
    · rw [hqp]
      exact (if_pos rfl).trans hv.symm
    · rw [hoff q hqp, ← h.arr q hq]
      exact if_neg fun he => hqp (slot_injOn hbase hq hp he)
  lut := h.lut

theorem Presents.setItem (hbase : base % 50 = 0) (hp : InWindow cfg base p) {v : ℤ} (hv : 0 < v) :
    ∃ m', m.setItem p v = .ok m' ∧ Presents base m' (d.insert p v) := by
  refine ⟨_, by rw [L2Memory.setItem, priceHash_tick hp.1]; rfl, h.write hbase hp ?_ ?_ ?_⟩
  · rw [Finmap.lookup_insert, Option.getD_some]
  · intro w hw
    rw [Finmap.lookup_insert] at hw
    exact Option.some.inj hw ▸ hv
  · exact fun q hq => Finmap.lookup_insert_of_ne _ hq

theorem Presents.delItem (hbase : base % 50 = 0) (hp : p ∈ d) :
    ∃ m', m.delItem p = .ok m' ∧ Presents base m' (d.erase p) := by
  obtain ⟨v, hv⟩ := Finmap.mem_iff.1 hp
  obtain ⟨hwin, hpos⟩ := h.entry hv
  refine ⟨{ m with arr := fun i => if i = slot cfg p then 0 else m.arr i }, ?_, h.write hbase hwin ?_ ?_ ?_⟩
  · rw [L2Memory.delItem, h.getItem hv, L2Memory.setItem, priceHash_tick hwin.1]
    exact if_neg (not_le.2 hpos)
  · rw [Finmap.lookup_erase, Option.getD_none]
  · intro w hw
    rw [Finmap.lookup_erase] at hw
    cases hw
  · exact fun q hq => Finmap.lookup_erase_ne hq

theorem Presents.delItem_of_notMem (hwin : InWindow cfg base p) (hp : p ∉ d) :
    m.delItem p = .error (.keyError "") := by
  have hzero : m.getItem p = .ok 0 := by
    rw [L2Memory.getItem, priceHash_tick hwin.1]
    refine congrArg Except.ok ((h.arr p hwin).trans ?_)
    rw [Finmap.lookup_eq_none.2 hp, Option.getD_none]
  rw [L2Memory.delItem, hzero]
  exact if_pos le_rfl

theorem Presents.contains (hwin : InWindow cfg base p) : m.contains p = .ok (decide (p ∈ d)) := by
  rw [L2Memory.contains, priceHash_tick hwin.1]
  exact congrArg Except.ok (decide_eq_decide.2 (h.arr_pos hwin))

/-! ### Iteration -/

/-- The indices of positive shares. -/
def used (m : L2Memory cfg) : List ℕ := (List.range cfg.l2MemSize).filter fun key => m.arr key > 0

omit h in
theorem mapM_ok {α β : Type} {f : α → Except Exn β} {g : α → β} {l : List α}
    (hf : ∀ a ∈ l, f a = .ok (g a)) : l.mapM f = .ok (l.map g) := by
  induction l with
  | nil => rfl
  | cons a l ih =>
    rw [List.mapM_cons, hf a List.mem_cons_self, ih fun b hb => hf b (List.mem_cons_of_mem _ hb)]
    rfl

/-- **Iteration** gives each stored price once. -/
theorem Presents.iter (hbase : base % 50 = 0) :
    ∃ items : List ℤ, m.iter = .ok (.new items) ∧ (items : Multiset ℤ) = d.keys.val ∧
      m.len = items.length := by
  -- the price of an index, as the table has it
  obtain ⟨price, hprice⟩ : ∃ price : ℕ → ℤ, ∀ i < cfg.l2MemSize, InWindow cfg base (price i) ∧
      slot cfg (price i) = i := by
    refine ⟨fun i => ((windowLut cfg base).lookup i).getD 0, fun i hi => ?_⟩
    obtain ⟨p, hp, rfl⟩ := exists_slot hbase hi
    have hp' : ((windowLut cfg base).lookup (slot cfg p)).getD 0 = p := by
      rw [lookup_windowLut hbase hp, Option.getD_some]
    dsimp only
    rw [hp']
    exact ⟨hp, rfl⟩
  have hused : ∀ i, i ∈ used m ↔ i < cfg.l2MemSize ∧ 0 < m.arr i := fun i => by
    rw [used, List.mem_filter, List.mem_range, decide_eq_true_eq]
  have hinverse : ∀ i ∈ used m, m.priceInverseHash i = .ok (price i) := by
    intro i hi
    obtain ⟨hwin, hslot⟩ := hprice i ((hused i).1 hi).1
    have hlookup := lookup_windowLut hbase hwin
    rw [hslot] at hlookup
    rw [L2Memory.priceInverseHash, h.lut, hlookup]
  refine ⟨(used m).map price, congrArg (Except.map MemoryIterator.new) (mapM_ok hinverse), ?_,
    (List.length_map price).symm⟩
  have hinj : ∀ i ∈ used m, ∀ j ∈ used m, price i = price j → i = j := by
    intro i hi j hj hij
    rw [← (hprice i ((hused i).1 hi).1).2, ← (hprice j ((hused j).1 hj).1).2, hij]
  refine (Multiset.Nodup.ext ?_ d.keys.nodup).2 fun p => ?_
  · exact Multiset.coe_nodup.2 ((List.nodup_map_iff_inj_on (List.nodup_range.filter _)).2 hinj)
  · rw [Multiset.mem_coe, List.mem_map, Finset.mem_val, Finmap.mem_keys]
    constructor
    · rintro ⟨i, hi, rfl⟩
      obtain ⟨hlt, hpos⟩ := (hused i).1 hi
      obtain ⟨hwin, hslot⟩ := hprice i hlt
      exact (h.arr_pos hwin).1 (hslot.symm ▸ hpos)
    · intro hp
      have hwin := h.inWindow hp
      obtain ⟨hwin', hslot'⟩ := hprice _ (slot_lt cfg p)
      exact ⟨slot cfg p, (hused _).2 ⟨slot_lt cfg p, (h.arr_pos hwin).2 hp⟩,
        slot_injOn hbase hwin' hwin hslot'⟩

omit h in
theorem foldlM_getItem {l : List ℤ} (hl : ∀ q ∈ l, ∃ v, d.lookup q = some v ∧ m.getItem q = .ok v)
    (acc : PriceDict) :
    ∃ out : PriceDict,
      l.foldlM (fun acc key => (m.getItem key).map fun shares => acc.insert key shares) acc = .ok out ∧
      ∀ q, out.lookup q = if q ∈ l then d.lookup q else acc.lookup q := by
  induction l generalizing acc with
  | nil => exact ⟨acc, rfl, fun q => (if_neg List.not_mem_nil).symm⟩
  | cons p l ih =>
    obtain ⟨v, hv, hget⟩ := hl p List.mem_cons_self
    obtain ⟨out, hout, hlookup⟩ := ih (fun q hq => hl q (List.mem_cons_of_mem _ hq)) (acc.insert p v)
    refine ⟨out, ?_, fun q => ?_⟩
    · rw [List.foldlM_cons, hget]
      exact hout
    · rw [hlookup]
      by_cases hqp : q = p
      · subst hqp
        rw [Finmap.lookup_insert, hv, if_pos List.mem_cons_self, ite_self]
      · simp only [List.mem_cons, hqp, false_or, Finmap.lookup_insert_of_ne _ hqp]

/-- `dict(memory)` is the dict. -/
theorem Presents.toDict (hbase : base % 50 = 0) : m.toDict = .ok d := by
  obtain ⟨items, hiter, hkeys, -⟩ := h.iter hbase
  have hmem : ∀ q, q ∈ items ↔ q ∈ d := fun q => by
    rw [← Multiset.mem_coe, hkeys, Finset.mem_val, Finmap.mem_keys]
  obtain ⟨out, hout, hlookup⟩ := @foldlM_getItem _ m d items (fun q hq => by
    obtain ⟨v, hv⟩ := Finmap.mem_iff.1 ((hmem q).1 hq)
    exact ⟨v, hv, h.getItem hv⟩) ∅
  have hd : out = d := Finmap.ext_lookup fun q => by
    rw [hlookup]
    split_ifs with hq
    · rfl
    · rw [Finmap.lookup_empty, Finmap.lookup_eq_none.2 fun hd => hq ((hmem q).2 hd)]
  rw [L2Memory.toDict, hiter]
  dsimp only
  rw [MemoryIterator.toList_new, hout, hd]

end Presents

/-! ### Requests -/

/-- **One request.** It is answered as by the dict of the memory, and the dict follows it. -/
theorem l2_dictStep (hbase : base % 50 = 0) {m : L2Memory cfg} {d : PriceDict} (h : Presents base m d)
    {op : MapOp ℤ ℤ} (hop : Offered cfg base d op) :
    ∃ d', DictStep Exn.IsKeyError False d op ((l2Mapping cfg).service.out m op) d' ∧
      Presents base ((l2Mapping cfg).service.next m op) d' := by
  cases op with
  | set p v =>
    obtain ⟨m', hm, h'⟩ := h.setItem hbase hop.1 hop.2
    refine ⟨d.insert p v, ?_, ?_⟩
    · change DictStep _ _ _ _ (Mapping.report _ (m.setItem p v)) _
      rw [hm]
      exact .set p v
    · change Presents _ (Mapping.commit m (m.setItem p v)) _
      rwa [hm]
  | get p =>
    obtain ⟨v, hv⟩ := Finmap.mem_iff.1 (show p ∈ d from hop)
    refine ⟨d, ?_, h⟩
    change DictStep _ _ _ _ (Mapping.report _ (m.getItem p)) _
    rw [h.getItem hv]
    exact .get hv
  | del p =>
    by_cases hp : p ∈ d
    · obtain ⟨m', hm, h'⟩ := h.delItem hbase hp
      refine ⟨d.erase p, ?_, ?_⟩
      · change DictStep _ _ _ _ (Mapping.report _ (m.delItem p)) _
        rw [hm]
        exact .del hp
      · change Presents _ (Mapping.commit m (m.delItem p)) _
        rwa [hm]
    · have hm := h.delItem_of_notMem hop hp
      refine ⟨d, ?_, ?_⟩
      · change DictStep _ _ _ _ (Mapping.report _ (m.delItem p)) _
        rw [hm]
        exact .delMissing ⟨"", rfl⟩ hp
      · change Presents _ (Mapping.commit m (m.delItem p)) _
        rwa [hm]
  | contains p =>
    refine ⟨d, ?_, h⟩
    change DictStep _ _ _ _ (Mapping.report _ (m.contains p)) _
    rw [h.contains hop]
    exact .contains p
  | len =>
    obtain ⟨items, -, hkeys, hlen⟩ := h.iter hbase
    refine ⟨d, ?_, h⟩
    have hcard : m.len = d.keys.card := by
      rw [hlen, ← Multiset.coe_card, hkeys]
      rfl
    change DictStep _ _ _ _ (.count m.len) _
    rw [hcard]
    exact .len
  | iter =>
    obtain ⟨items, hiter, hkeys, -⟩ := h.iter hbase
    refine ⟨d, ?_, h⟩
    change DictStep _ _ _ _ (Mapping.report _ (m.iter.map fun it => (it.toList : Multiset ℤ))) _
    rw [hiter]
    change DictStep _ _ _ _ (.keys ((MemoryIterator.new items).toList : Multiset ℤ)) _
    rw [MemoryIterator.toList_new, hkeys]
    exact .iter

/-- A new memory presents the empty dict once its price base is set. -/
theorem presents_initialised (cfg : Params) (base : ℤ) :
    Presents base (⟨true, base, fun _ => 0, windowLut cfg base⟩ : L2Memory cfg) ∅ where
  entry hp := by cases hp
  arr p _ := rfl
  lut := rfl

/-- **The bounded price memory refines a dict.** For a price base on a tick, the memory can be set up;
the hash is then a bijection from the ticks of the window onto the array, and `price_inverse_hash` is
its inverse; whatever is asked of the memory, the answers are those of a plain dict; and the memory
lists exactly the prices with positive shares, with their shares. -/
theorem l2Memory_refines (hbase : base % 50 = 0) {ops : List (MapOp ℤ ℤ)}
    (hops : Admits Exn.IsKeyError False (Offered cfg base) ∅ ops) :
    ∃ m₀ : L2Memory cfg, L2Memory.empty.initParams base = .ok m₀ ∧
      (∀ p, InWindow cfg base p → ∃ i < cfg.l2MemSize,
        priceHash cfg p = .ok i ∧ m₀.priceInverseHash i = .ok p) ∧
      (∀ i < cfg.l2MemSize, ∃! p, InWindow cfg base p ∧ priceHash cfg p = .ok i) ∧
      ∃ d, DictRun Exn.IsKeyError False ∅ ops ((l2Mapping cfg).service.trace m₀ ops) d ∧
        ((l2Mapping cfg).service.run m₀ ops).toDict = .ok d ∧
        ∀ p v, d.lookup p = some v ↔ InWindow cfg base p ∧ 0 < v ∧
          ((l2Mapping cfg).service.run m₀ ops).getItem p = .ok v := by
  refine ⟨_, memory_initParams.2 ⟨hbase, rfl⟩, fun p hp => ?_, fun i hi => ?_, ?_⟩
  · refine ⟨slot cfg p, slot_lt cfg p, priceHash_tick hp.1, ?_⟩
    rw [L2Memory.priceInverseHash, lookup_windowLut hbase hp]
  · obtain ⟨p, hp, hslot⟩ := exists_slot hbase hi
    refine ⟨p, ⟨hp, hslot ▸ priceHash_tick hp.1⟩, fun q hq => ?_⟩
    have hq' := hq.2
    rw [priceHash_tick hq.1.1] at hq'
    exact slot_injOn hbase hq.1 hp ((Except.ok.inj hq').trans hslot.symm)
  · obtain ⟨d, hrun, h⟩ := run_refines (Presents base) (fun m d op h hop => l2_dictStep hbase h hop)
      (presents_initialised cfg base) hops
    refine ⟨d, hrun, h.toDict hbase, fun p v => ⟨fun hv => ?_, ?_⟩⟩
    · exact ⟨(h.entry hv).1, (h.entry hv).2, h.getItem hv⟩
    · rintro ⟨hp, hv, hget⟩
      obtain ⟨w, hw⟩ : ∃ w, d.lookup p = some w := by
        rw [L2Memory.getItem, priceHash_tick hp.1] at hget
        refine Finmap.mem_iff.1 ((h.arr_pos hp).1 ?_)
        exact (Except.ok.inj hget).symm ▸ hv
      rw [h.getItem hw] at hget
      rw [hw, Except.ok.inj hget]

/-- A level is set, looked up and deleted. -/
def oneLevel : List (MapOp ℤ ℤ) := [.set 100050 5, .get 100050, .del 100050, .len]

theorem l2Memory_refines_oneLevel :
    ∃ m₀ : L2Memory {}, L2Memory.empty.initParams 100000 = .ok m₀ ∧
      ∃ d, DictRun Exn.IsKeyError False ∅ oneLevel ((l2Mapping {}).service.trace m₀ oneLevel) d := by
  have hwin : InWindow {} 100000 100050 := ⟨by decide, by decide⟩
  have hops : Admits Exn.IsKeyError False (Offered {} 100000) ∅ oneLevel := by
    refine ⟨⟨hwin, by decide⟩, fun a d h => ?_⟩
    cases h with
    | refused _ _ hb => exact hb.elim
    | set =>
      refine ⟨Finmap.mem_insert.2 (Or.inl rfl), fun a d h => ?_⟩
      cases h <;> exact ⟨hwin, fun a d h => ⟨trivial, fun a d h => trivial⟩⟩
  obtain ⟨m₀, hinit, -, -, d, hrun, -⟩ := @l2Memory_refines {} 100000 (by decide) oneLevel hops
  exact ⟨m₀, hinit, d, hrun⟩

end ItchOrderBook.Book
