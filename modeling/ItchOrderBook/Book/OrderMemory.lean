import ItchOrderBook.Book.OrderStore
import ItchOrderBook.Lib.Mapping
import ItchOrderBook.Ref.MemoryIterator

/-!
# The bounded order memory is a dict

`L3Memory` as a mapping. It keeps a key in the line of its hash or in the CAM, depending on the line
at the time the key came, and leaves it there. Since a line holds only keys of its own hash, and a key
of the CAM is not in its line, the places never disagree: every request is answered as by the plain
dict of the requests that were not refused (`l3Memory_refines`).
-/

namespace ItchOrderBook.Book

open Ref

variable {cfg : Params}

/-- The methods of `L3Memory`. -/
def l3Mapping (cfg : Params) : Mapping (L3Memory cfg) ℕ L3Entry Exn where
  set := L3Memory.setItem
  get := L3Memory.getItem
  del := L3Memory.delItem
  contains m item := .ok (m.contains item)
  len := L3Memory.len
  iter m := .ok (MemoryIterator.yielded m.combinedItems)

/-! ### The stored keys -/

section Keys

variable (m : L3Memory cfg)

theorem mem_foldr_union {k : ℕ} {is : List ℕ} :
    k ∈ is.foldr (fun i d => m.ram i ∪ d) m.cam ↔
      (k ∈ m.ram (oidHash cfg k) ∧ oidHash cfg k ∈ is) ∨ k ∈ m.cam := by
  rw [← Finmap.lookup_isSome, lookup_foldr_union]
  split_ifs with h
  · exact iff_of_true (Finmap.lookup_isSome.2 h.1) (Or.inl h)
  · rw [Finmap.lookup_isSome]
    exact ⟨Or.inr, fun hk => hk.resolve_left h⟩

/-- No key of a line is in another line or in the CAM. -/
theorem keys_foldr_union {is : List ℕ} (his : is.Nodup) :
    (is.map fun i => (m.ram i).keys.val).sum + m.cam.keys.val =
      (is.foldr (fun i d => m.ram i ∪ d) m.cam).keys.val := by
  induction is with
  | nil => exact zero_add _
  | cons i is ih =>
    obtain ⟨hi, his⟩ := List.nodup_cons.1 his
    have hdisj : Disjoint (m.ram i).keys (is.foldr (fun i d => m.ram i ∪ d) m.cam).keys := by
      rw [Finset.disjoint_left]
      intro k hk hk'
      rw [Finmap.mem_keys] at hk hk'
      have hhome := m.home i k hk
      rcases (mem_foldr_union m).1 hk' with ⟨-, hmem⟩ | hcam
      · exact hi (hhome ▸ hmem)
      · exact m.apart k hcam (hhome.symm ▸ hk)
    rw [List.map_cons, List.sum_cons, add_assoc, ih his, List.foldr_cons, Finmap.keys_union,
      ← Finset.disjUnion_eq_union _ _ hdisj]
    rfl

/-- The iterator collects each stored key once. -/
theorem combinedItems_eq : m.combinedItems = m.toDict.keys.val :=
  keys_foldr_union m List.nodup_range

/-- The length counts the stored keys. -/
theorem len_eq : m.len = m.toDict.keys.card := by
  have hcard : m.len = Multiset.card m.combinedItems := by
    rw [L3Memory.len, L3Memory.combinedItems, Multiset.card_add]
    congr 1
    generalize List.range (1 <<< cfg.l3LogAddrSize) = is
    induction is with
    | nil => rfl
    | cons i is ih =>
      rw [List.map_cons, List.sum_cons, List.map_cons, List.sum_cons, Multiset.card_add, ih]
      rfl
  rw [hcard, combinedItems_eq]
  rfl

/-- The lines and the CAM bound the number of stored keys. -/
theorem card_toDict_le :
    m.toDict.keys.card ≤ (1 <<< cfg.l3LogAddrSize) * (1 <<< cfg.l3LogLineSize) + cfg.l3CamSize := by
  rw [← len_eq, L3Memory.len]
  refine Nat.add_le_add ?_ m.cam_le
  have hline : ∀ n ∈ (List.range (1 <<< cfg.l3LogAddrSize)).map fun i => (m.ram i).keys.card,
      n ≤ 1 <<< cfg.l3LogLineSize := by
    intro n hn
    obtain ⟨i, -, rfl⟩ := List.mem_map.1 hn
    exact m.line_le i
  have hsum := List.sum_le_card_nsmul _ _ hline
  rw [List.length_map, List.length_range] at hsum
  exact hsum

/-- The bounded table holds no more orders than its memory has places. -/
theorem card_live_le {s : L3 cfg} (hk : isIdeal s.memory = false) : (orderMap s).live.keys.card ≤
    (1 <<< cfg.l3LogAddrSize) * (1 <<< cfg.l3LogLineSize) + cfg.l3CamSize := by
  obtain ⟨memory, side⟩ := s
  cases memory with
  | ideal d => cases hk
  | hw m => exact card_toDict_le m

/-- A stored key is in its line or in the CAM, and not in both. -/
theorem one_place {k : ℕ} (h : k ∈ m.toDict) :
    (k ∈ m.ram (oidHash cfg k) ∧ k ∉ m.cam) ∨ (k ∈ m.cam ∧ k ∉ m.ram (oidHash cfg k)) := by
  by_cases hline : k ∈ m.ram (oidHash cfg k)
  · exact Or.inl ⟨hline, fun hcam => m.apart k hcam hline⟩
  · exact Or.inr ⟨((mem_toDict m).1 h).resolve_left hline, hline⟩

end Keys

/-! ### The CAM of the reference -/

/-- No order is in the CAM. -/
def Unspilled : L3Store cfg → Prop
  | .ideal _ => True
  | .hw m => m.cam = ∅

section Spill

variable {s s' : L3Store cfg} {k : ℕ} {v : L3Entry}

/-- A new key does not go to the CAM, as the debug log raises first. -/
theorem Unspilled.setItem (h : Unspilled s) (hs : s.setItem k v = .ok s') : Unspilled s' := by
  cases s with
  | ideal d =>
    cases hs
    trivial
  | hw m =>
    have hcam : m.cam = ∅ := h
    have hk : k ∉ m.cam := hcam ▸ Finmap.notMem_empty
    simp only [L3Store.setItem, L3Memory.setItem, formatInt_h, hk, dif_neg, not_false_eq_true] at hs
    split_ifs at hs with hline hroom
    · cases hs
      exact hcam
    · cases hs
      exact hcam
    · cases hs

theorem Unspilled.delItem (h : Unspilled s) (hs : s.delItem k = .ok s') : Unspilled s' := by
  cases s with
  | ideal d =>
    simp only [L3Store.delItem] at hs
    split_ifs at hs
    cases hs
    trivial
  | hw m =>
    have hcam : m.cam = ∅ := h
    have hk : k ∉ m.cam := hcam ▸ Finmap.notMem_empty
    simp only [L3Store.delItem, L3Memory.delItem, hk, if_false] at hs
    split_ifs at hs with hline
    · cases hs
      exact hcam
    · cases hs

theorem unspilled_commit {l3 : L3 cfg} {lk : DownstreamOrderMsg} {out : Except Exn (L3Store cfg)}
    (h : Unspilled l3.memory) (hout : ∀ memory, out = .ok memory → Unspilled memory) :
    Unspilled (l3.commit lk out).2.memory := by
  cases out with
  | error e => exact h
  | ok memory => exact hout memory rfl

theorem unspilled_insert {l3 : L3 cfg} (h : Unspilled l3.memory) (k : ℕ) (v : L3Entry)
    (type : BookMsgType) : Unspilled (l3.insert k v type).2.memory := by
  unfold L3.insert
  split
  · exact h
  · exact unspilled_commit h fun memory hm => h.setItem hm

/-- **The CAM of the reference is never used.** -/
theorem Unspilled.processMsg {l3 : L3 cfg} (h : Unspilled l3.memory) (msg : BookMsg) :
    Unspilled (l3.processMsg msg).2.memory := by
  cases msg with
  | add l i b n p =>
    rw [L3.processMsg]
    split_ifs
    · exact h
    · exact unspilled_insert h _ _ _
  | reduce l i n =>
    rw [L3.processMsg]
    split_ifs
    · exact h
    · split
      · exact h
      · dsimp only
        split_ifs
        · exact unspilled_commit h fun memory hm => h.setItem hm
        · exact unspilled_commit h fun memory hm => h.delItem hm
        · exact h
  | delete l i =>
    rw [L3.processMsg]
    split_ifs
    · exact h
    · split
      · exact h
      · split
        · exact h
        · rename_i hm
          exact h.delItem hm
  | replace l i n p =>
    rw [L3.processMsg]
    split_ifs
    · exact h
    · split
      · exact h
      · exact unspilled_insert h _ _ _

/-- A line is full when as many keys of its hash are stored as it has places. -/
theorem Unspilled.not_hasRoom (h : Unspilled s) (hk : isIdeal s = false) {n : ℕ} {ids : Fin n → ℕ}
    (hinj : Function.Injective ids) (hmem : ∀ w, ids w ∈ s.toDict)
    (hhash : ∀ w, oidHash cfg (ids w) = oidHash cfg k) (hn : 1 <<< cfg.l3LogLineSize ≤ n) :
    ¬ HasRoom s k := by
  cases s with
  | ideal d => cases hk
  | hw m =>
    have hcam : m.cam = ∅ := h
    have hsub : Finset.univ.image ids ⊆ (m.ram (oidHash cfg k)).keys := by
      intro i hi
      obtain ⟨w, -, rfl⟩ := Finset.mem_image.1 hi
      rw [Finmap.mem_keys, ← hhash w]
      refine ((mem_toDict m).1 (hmem w)).resolve_right ?_
      rw [hcam]
      exact Finmap.notMem_empty
    have hcard := Finset.card_le_card hsub
    rw [Finset.card_image_of_injective _ hinj, Finset.card_fin] at hcard
    exact not_lt.2 (hn.trans hcard)

end Spill

/-! ### One request -/

variable {m : L3Memory cfg} {k : ℕ}

theorem getItem_of_notMem (h : k ∉ m.toDict) :
    m.getItem k = .error (.keyError s!"Key {hexText k} not in L3 memory.") := by
  rw [mem_toDict, not_or] at h
  rw [L3Memory.getItem, Finmap.lookup_eq_none.2 h.1, Finmap.lookup_eq_none.2 h.2]

theorem delItem_of_notMem (h : k ∉ m.toDict) :
    m.delItem k =
      .error (.keyError s!"L3 hash table does not contain key {hexText k} to delete.") := by
  rw [mem_toDict, not_or] at h
  rw [L3Memory.delItem, if_neg h.1, if_neg h.2]

/-- **One request.** It is answered as by the dict of the memory, and the dict follows it. -/
theorem l3_dictStep (m : L3Memory cfg) (op : MapOp ℕ L3Entry) :
    DictStep Exn.IsKeyError True m.toDict op ((l3Mapping cfg).service.out m op)
      ((l3Mapping cfg).service.next m op).toDict := by
  cases op with
  | set k v =>
    change DictStep _ _ _ _ (Mapping.report _ (m.setItem k v)) (Mapping.commit m (m.setItem k v)).toDict
    by_cases hk : k ∈ m.toDict
    · obtain ⟨m', hm⟩ := setItem_of_mem hk v
      rw [hm]
      exact setItem_toDict hm ▸ DictStep.set k v
    · rcases setItem_of_notMem hk v with ⟨-, m', hm⟩ | ⟨-, hm⟩
      · rw [hm]
        exact setItem_toDict hm ▸ DictStep.set k v
      · rw [hm]
        exact .refused v _ trivial hk
  | get k =>
    change DictStep _ _ _ _ (Mapping.report _ (m.getItem k)) m.toDict
    cases hk : m.toDict.lookup k with
    | none =>
      have hnot := Finmap.lookup_eq_none.1 hk
      rw [getItem_of_notMem hnot]
      exact .getMissing ⟨_, rfl⟩ hnot
    | some v =>
      rw [show m.getItem k = .ok v from getItem_of_lookup (s := .hw m) hk]
      exact .get hk
  | del k =>
    change DictStep _ _ _ _ (Mapping.report _ (m.delItem k)) (Mapping.commit m (m.delItem k)).toDict
    by_cases hk : k ∈ m.toDict
    · obtain ⟨m', hm, hdict⟩ := delItem_of_mem hk
      rw [hm]
      exact hdict ▸ DictStep.del hk
    · rw [delItem_of_notMem hk]
      exact .delMissing ⟨_, rfl⟩ hk
  | contains k =>
    have hc : m.contains k = decide (k ∈ m.toDict) := contains_eq (.hw m) k
    change DictStep _ _ _ _ (.found (m.contains k)) m.toDict
    rw [hc]
    exact .contains k
  | len =>
    change DictStep _ _ _ _ (.count m.len) m.toDict
    rw [len_eq]
    exact .len
  | iter =>
    change DictStep _ _ _ _ (.keys (MemoryIterator.yielded m.combinedItems)) m.toDict
    rw [MemoryIterator.yielded_eq, combinedItems_eq]
    exact .iter

/-- **The bounded memory refines a dict.** Whatever is asked of a new `L3Memory`, the answers are those
of the plain dict of the requests that did not raise; every key is in one place, its own line or the
CAM; and no line and not the CAM exceeds its size. -/
theorem l3Memory_refines (cfg : Params) (ops : List (MapOp ℕ L3Entry)) :
    let m := (l3Mapping cfg).service.run .empty ops
    DictRun Exn.IsKeyError True ∅ ops ((l3Mapping cfg).service.trace .empty ops) m.toDict ∧
    (∀ k ∈ m.toDict, (k ∈ m.ram (oidHash cfg k) ∧ k ∉ m.cam) ∨
      (k ∈ m.cam ∧ k ∉ m.ram (oidHash cfg k))) ∧
    (∀ i k, k ∈ m.ram i → i = oidHash cfg k) ∧
    (∀ i, (m.ram i).keys.card ≤ 1 <<< cfg.l3LogLineSize) ∧ m.cam.keys.card ≤ cfg.l3CamSize := by
  intro m
  have hrun : ∃ d, DictRun Exn.IsKeyError True ∅ ops ((l3Mapping cfg).service.trace .empty ops) d ∧
      m.toDict = d := by
    refine run_refines (fun (m : L3Memory cfg) d => m.toDict = d) (fun m d op hd _ => ?_) toDict_empty
      (admits_of_forall (fun _ _ => trivial) ∅ ops)
    exact ⟨_, hd ▸ l3_dictStep m op, rfl⟩
  obtain ⟨d, hrun, rfl⟩ := hrun
  exact ⟨hrun, fun k hk => one_place m hk, fun i k hk => (m.home i k hk).symm, m.line_le, m.cam_le⟩

end ItchOrderBook.Book
