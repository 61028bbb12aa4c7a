import ItchOrderBook.Book.Orders
import ItchOrderBook.Ref.L3OrderTable

/-!
# The L3 table is a map of live orders

Seen through `toDict`, both memories of L3 are finite maps, and `L3.processMsg` is
`OrderMap.step` on that map. It refuses or raises without a trace in its state; beyond what the
map itself refuses, it raises only for a replace without an earlier delete, and, in the bounded
memory, for an insertion into a full line.
-/

namespace ItchOrderBook.Book

open Ref

variable {cfg : Params}

section Memory

variable (m : L3Memory cfg)

theorem lookup_foldr_union {k : ℕ} (is : List ℕ) :
    (is.foldr (fun i d => m.ram i ∪ d) m.cam).lookup k =
      if k ∈ m.ram (oidHash cfg k) ∧ oidHash cfg k ∈ is then (m.ram (oidHash cfg k)).lookup k
      else m.cam.lookup k := by
  induction is with
  | nil => simp
  | cons i is ih =>
    rw [List.foldr_cons]
    by_cases hk : k ∈ m.ram i
    · have hi := m.home i k hk
      rw [Finmap.lookup_union_left hk, if_pos ⟨hi ▸ hk, by simp [hi]⟩, hi]
    · rw [Finmap.lookup_union_right hk, ih]
      by_cases hi : oidHash cfg k = i
      · rw [if_neg fun h => hk (hi ▸ h.1), if_neg fun h => hk (hi ▸ h.1)]
      · simp [hi]

/-- The dict of a bounded memory: the line of the key first, then the CAM. -/
theorem lookup_toDict (k : ℕ) :
    m.toDict.lookup k =
      if k ∈ m.ram (oidHash cfg k) then (m.ram (oidHash cfg k)).lookup k else m.cam.lookup k := by
  have hlt : oidHash cfg k < 1 <<< cfg.l3LogAddrSize := by
    rw [oidHash_eq_mod, Nat.one_shiftLeft]
    exact Nat.mod_lt _ (Nat.two_pow_pos _)
  rw [L3Memory.toDict, lookup_foldr_union]
  simp only [List.mem_range, hlt, and_true]

theorem toDict_empty : (L3Memory.empty : L3Memory cfg).toDict = ∅ := by
  refine Finmap.ext_lookup fun k => ?_
  rw [lookup_toDict]
  exact ite_self _

theorem mem_toDict {k : ℕ} : k ∈ m.toDict ↔ k ∈ m.ram (oidHash cfg k) ∨ k ∈ m.cam := by
  rw [← Finmap.lookup_isSome, lookup_toDict]
  split_ifs with h
  · simp [Finmap.lookup_isSome, h]
  · simp [Finmap.lookup_isSome, h]

theorem toDict_setLine {key : ℕ} {line : OrderDict} {h1 h2 h3} {v : Option L3Entry}
    (hv : line.lookup key = v) (hcam : key ∉ m.cam)
    (hoff : ∀ k, k ≠ key → line.lookup k = (m.ram (oidHash cfg key)).lookup k) (k : ℕ) :
    (m.setLine key line h1 h2 h3).toDict.lookup k = if k = key then v else m.toDict.lookup k := by
  have hmem : ∀ k, k ≠ key → (k ∈ line ↔ k ∈ m.ram (oidHash cfg key)) := fun k hk => by
    rw [← Finmap.lookup_isSome, hoff k hk, Finmap.lookup_isSome]
  rw [lookup_toDict, lookup_toDict]
  simp only [L3Memory.setLine]
  by_cases hk : k = key
  · subst hk
    simp only [if_true]
    split_ifs with hl
    · exact hv
    · rw [Finmap.lookup_eq_none.2 hcam, ← hv, Finmap.lookup_eq_none.2 hl]
  · rw [if_neg hk]
    by_cases hh : oidHash cfg k = oidHash cfg key
    · simp only [hh, if_true, hmem k hk, hoff k hk]
    · simp only [hh, if_false]

theorem toDict_setCam {key : ℕ} {cam : OrderDict} {h1 h2} {v : Option L3Entry}
    (hv : cam.lookup key = v) (hline : key ∉ m.ram (oidHash cfg key))
    (hoff : ∀ k, k ≠ key → cam.lookup k = m.cam.lookup k) (k : ℕ) :
    (m.setCam cam h1 h2).toDict.lookup k = if k = key then v else m.toDict.lookup k := by
  rw [lookup_toDict, lookup_toDict]
  simp only [L3Memory.setCam]
  by_cases hk : k = key
  · subst hk
    simp only [hline, if_false, if_true, hv]
  · simp only [hk, if_false, hoff k hk]

theorem formatInt_h :
    formatInt 'h' = .error (.valueError "Unknown format code 'h' for object of type 'int'") := by
  decide

theorem setItem_toDict {m m' : L3Memory cfg} {key : ℕ} {value : L3Entry}
    (h : m.setItem key value = .ok m') : m'.toDict = m.toDict.insert key value := by
  refine Finmap.ext_lookup fun k => ?_
  have hins : ∀ d : OrderDict, ∀ k, k ≠ key → (d.insert key value).lookup k = d.lookup k :=
    fun d k hk => Finmap.lookup_insert_of_ne _ hk
  have hgoal : (m.toDict.insert key value).lookup k =
      if k = key then some value else m.toDict.lookup k := by
    split_ifs with hk
    · rw [hk, Finmap.lookup_insert]
    · rw [Finmap.lookup_insert_of_ne _ hk]
  rw [hgoal]
  simp only [L3Memory.setItem, formatInt_h] at h
  split_ifs at h with hline hcam hroom
  · cases h
    exact toDict_setLine m (Finmap.lookup_insert _) (fun hc => m.apart key hc hline) (hins _) k
  · cases h
    exact toDict_setCam m (Finmap.lookup_insert _) hline (hins _) k
  · cases h
    exact toDict_setLine m (Finmap.lookup_insert _) hcam (hins _) k

theorem setItem_of_mem {m : L3Memory cfg} {key : ℕ} (h : key ∈ m.toDict) (value : L3Entry) :
    ∃ m', m.setItem key value = .ok m' := by
  unfold L3Memory.setItem
  rcases (mem_toDict m).1 h with hl | hc
  · rw [dif_pos hl]; exact ⟨_, rfl⟩
  · rw [dif_neg (m.apart key hc), dif_pos hc]; exact ⟨_, rfl⟩

/-- The line of an id is not full. -/
def LineFree (m : L3Memory cfg) (key : ℕ) : Prop :=
  (m.ram (oidHash cfg key)).keys.card < 1 <<< cfg.l3LogLineSize

/-- An insertion of a new id fails exactly on a full line, by the exception of the debug log. -/
theorem setItem_of_notMem {m : L3Memory cfg} {key : ℕ} (hkey : key ∉ m.toDict) (value : L3Entry) :
    (LineFree m key ∧ ∃ m', m.setItem key value = .ok m') ∨
    (¬ LineFree m key ∧ m.setItem key value =
      .error (.valueError "Unknown format code 'h' for object of type 'int'")) := by
  rw [mem_toDict, not_or] at hkey
  simp only [L3Memory.setItem, formatInt_h, hkey.1, hkey.2, dif_neg, not_false_eq_true]
  by_cases hroom : LineFree m key
  · exact Or.inl ⟨hroom, _, dif_pos hroom⟩
  · exact Or.inr ⟨hroom, dif_neg hroom⟩

/-- Writing the entry an id already has changes nothing. -/
theorem setItem_same {m : L3Memory cfg} {key : ℕ} {value : L3Entry}
    (h : m.toDict.lookup key = some value) : m.setItem key value = .ok m := by
  have hins : ∀ d : OrderDict, d.lookup key = some value → d.insert key value = d := by
    intro d hd
    refine Finmap.ext_lookup fun k => ?_
    by_cases hk : k = key
    · rw [hk, Finmap.lookup_insert, hd]
    · rw [Finmap.lookup_insert_of_ne _ hk]
  rw [lookup_toDict] at h
  simp only [L3Memory.setItem]
  by_cases hline : key ∈ m.ram (oidHash cfg key)
  · rw [if_pos hline] at h
    simp only [hline, dif_pos, L3Memory.setLine, hins _ h]
    congr 2
    funext i
    split_ifs with hi
    · rw [hi]
    · rfl
  · rw [if_neg hline] at h
    have hcam := Finmap.mem_of_lookup_eq_some h
    simp only [hline, hcam, dif_pos, dif_neg, not_false_eq_true, L3Memory.setCam, hins _ h]

theorem delItem_of_mem {m : L3Memory cfg} {key : ℕ} (h : key ∈ m.toDict) :
    ∃ m', m.delItem key = .ok m' ∧ m'.toDict = m.toDict.erase key := by
  have hgoal : ∀ k, (m.toDict.erase key).lookup k = if k = key then none else m.toDict.lookup k := by
    intro k
    split_ifs with hk
    · rw [hk, Finmap.lookup_erase]
    · rw [Finmap.lookup_erase_ne hk]
  unfold L3Memory.delItem
  by_cases hl : key ∈ m.ram (oidHash cfg key)
  · rw [if_pos hl]
    refine ⟨_, rfl, Finmap.ext_lookup fun k => ?_⟩
    rw [hgoal]
    exact toDict_setLine m (Finmap.lookup_erase _ _) (fun hc => m.apart key hc hl)
      (fun k hk => Finmap.lookup_erase_ne hk) k
  · have hc := ((mem_toDict m).1 h).resolve_left hl
    rw [if_neg hl, if_pos hc]
    refine ⟨_, rfl, Finmap.ext_lookup fun k => ?_⟩
    rw [hgoal]
    exact toDict_setCam m (Finmap.lookup_erase _ _) hl (fun k hk => Finmap.lookup_erase_ne hk) k

end Memory

section Store

variable {s s' : L3Store cfg} {k : ℕ} {v : L3Entry}

/-- The memory is a plain dict. -/
def isIdeal : L3Store cfg → Bool
  | .ideal _ => true
  | .hw _ => false

theorem contains_eq (s : L3Store cfg) (k : ℕ) : s.contains k = decide (k ∈ s.toDict) := by
  cases s with
  | ideal d => rfl
  | hw m => simp [L3Store.contains, L3Store.toDict, L3Memory.contains, mem_toDict]

theorem getItem_of_lookup (h : s.toDict.lookup k = some v) : s.getItem k = .ok v := by
  cases s with
  | ideal d => simp only [L3Store.toDict] at h; simp only [L3Store.getItem, h]
  | hw m =>
    simp only [L3Store.toDict] at h
    rw [lookup_toDict] at h
    simp only [L3Store.getItem, L3Memory.getItem]
    split_ifs at h with hk
    · rw [h]
    · rw [Finmap.lookup_eq_none.2 hk, h]

theorem store_setItem (h : s.setItem k v = .ok s') :
    s'.toDict = s.toDict.insert k v ∧ isIdeal s' = isIdeal s := by
  cases s with
  | ideal d => cases h; exact ⟨rfl, rfl⟩
  | hw m =>
    cases hm : m.setItem k v with
    | error e => simp [L3Store.setItem, hm, Except.map] at h
    | ok m' =>
      simp only [L3Store.setItem, hm, Except.map, Except.ok.injEq] at h
      subst h
      exact ⟨setItem_toDict hm, rfl⟩

theorem store_setItem_of_mem (h : k ∈ s.toDict) (v : L3Entry) : ∃ s', s.setItem k v = .ok s' := by
  cases s with
  | ideal d => exact ⟨_, rfl⟩
  | hw m =>
    obtain ⟨m', hm⟩ := setItem_of_mem h v
    exact ⟨.hw m', by simp [L3Store.setItem, hm, Except.map]⟩

/-- There is a place for a new id. -/
def HasRoom : L3Store cfg → ℕ → Prop
  | .ideal _, _ => True
  | .hw m, k => LineFree m k

theorem hasRoom_of_ideal (h : isIdeal s = true) (k : ℕ) : HasRoom s k := by
  cases s with
  | ideal d => exact trivial
  | hw m => cases h

theorem store_setItem_of_notMem (h : k ∉ s.toDict) (v : L3Entry) :
    (HasRoom s k ∧ ∃ s', s.setItem k v = .ok s') ∨
    (¬ HasRoom s k ∧ s.setItem k v =
      .error (.valueError "Unknown format code 'h' for object of type 'int'")) := by
  cases s with
  | ideal d => exact Or.inl ⟨trivial, _, rfl⟩
  | hw m =>
    rcases setItem_of_notMem h v with ⟨hroom, m', hm⟩ | ⟨hroom, hm⟩
    · exact Or.inl ⟨hroom, .hw m', by simp [L3Store.setItem, hm, Except.map]⟩
    · exact Or.inr ⟨hroom, by simp [L3Store.setItem, hm, Except.map]⟩

theorem store_setItem_same (h : s.toDict.lookup k = some v) : s.setItem k v = .ok s := by
  cases s with
  | ideal d =>
    refine congrArg (Except.ok ∘ L3Store.ideal) (Finmap.ext_lookup fun i => ?_)
    by_cases hi : i = k
    · rw [hi, Finmap.lookup_insert]
      exact h.symm
    · rw [Finmap.lookup_insert_of_ne _ hi]
  | hw m => simp [L3Store.setItem, setItem_same h, Except.map]

theorem store_delItem_of_mem (h : k ∈ s.toDict) :
    ∃ s', s.delItem k = .ok s' ∧ s'.toDict = s.toDict.erase k ∧ isIdeal s' = isIdeal s := by
  cases s with
  | ideal d => exact ⟨.ideal (d.erase k), if_pos h, rfl, rfl⟩
  | hw m =>
    obtain ⟨m', hm, hd⟩ := delItem_of_mem h
    exact ⟨.hw m', by simp [L3Store.delItem, hm, Except.map], hd, rfl⟩

end Store

/-! ### `L3.processMsg` as a step of the order map -/

/-- The order map an L3 table presents. -/
def orderMap (s : L3 cfg) : OrderMap := ⟨s.memory.toDict, s.lastDelIsBuy⟩

variable {s s' : L3 cfg} {msg : BookMsg} {lk : DownstreamOrderMsg}

/-- The exceptions an L3 table can raise. -/
def L3Raises (e : Exn) : Prop :=
  e = .assertion "last_del_is_buy is None." ∨
    e = .valueError "Unknown format code 'h' for object of type 'int'"

/-- A new order is taken exactly if there is a place for it. -/
theorem l3_insert (s : L3 cfg) {i : ℕ} (hi : i ∉ s.memory.toDict) (v : L3Entry)
    (t : BookMsgType) :
    (HasRoom s.memory i ∧ ∃ s', s.insert i v t = (.ret ⟨t, v.isBuy, v.shares, v.price⟩, s') ∧
      orderMap s' = ⟨s.memory.toDict.insert i v, s.lastDelIsBuy⟩ ∧
      isIdeal s'.memory = isIdeal s.memory) ∨
    (¬ HasRoom s.memory i ∧ ∃ e, s.insert i v t = (.raise e, s) ∧ L3Raises e) := by
  unfold L3.insert
  rcases store_setItem_of_notMem hi v with ⟨hroom, memory, hm⟩ | ⟨hroom, hm⟩
  · obtain ⟨hd, hk⟩ := store_setItem hm
    rw [hm]
    exact Or.inl ⟨hroom, _, rfl, by simp only [orderMap, hd], hk⟩
  · rw [hm]
    exact Or.inr ⟨hroom, _, rfl, Or.inr rfl⟩

/-- **One message at L3.** A returned lookup message is a step of the order map; an error result
or an exception leaves the table as it was. -/
theorem l3_processMsg (s : L3 cfg) (msg : BookMsg) :
    (∃ lk s', s.processMsg msg = (.ret lk, s') ∧
      (orderMap s).step msg = some (lk, orderMap s') ∧ isIdeal s'.memory = isIdeal s.memory ∧
      (lk.msgType.isAdd = true → HasRoom s.memory msg.orderId)) ∨
    (∃ c, s.processMsg msg = (.err c, s) ∧ (orderMap s).step msg = none) ∨
    (∃ e, s.processMsg msg = (.raise e, s) ∧ L3Raises e ∧
      ∀ lk om, (orderMap s).step msg = some (lk, om) →
        lk.msgType.isAdd = true ∧ ¬ HasRoom s.memory msg.orderId) := by
  cases msg with
  | add l i b sh p =>
    simp only [L3.processMsg, OrderMap.step, orderMap, contains_eq, decide_eq_true_eq]
    by_cases hi : i ∈ s.memory.toDict
    · exact Or.inr (Or.inl ⟨_, if_pos hi, if_pos hi⟩)
    · simp only [hi, if_false]
      rcases l3_insert s hi ⟨b, sh, p⟩ .add with ⟨hroom, s', h, ho, hk⟩ | ⟨hroom, e, h, he⟩
      · exact Or.inl ⟨_, s', h, by rw [← ho]; rfl, hk, fun _ => hroom⟩
      · refine Or.inr (Or.inr ⟨e, h, he, fun lk om hs => ?_⟩)
        cases hs
        exact ⟨rfl, hroom⟩
  | reduce l i sh =>
    cases hl : s.memory.toDict.lookup i with
    | none =>
      refine Or.inr (Or.inl ⟨"Attempted to reduce shares of missing order ID.", ?_, ?_⟩)
      · simp [L3.processMsg, contains_eq, Finmap.lookup_eq_none.1 hl]
      · simp [OrderMap.step, orderMap, hl]
    | some v =>
      have hmem := Finmap.mem_of_lookup_eq_some hl
      simp only [L3.processMsg, OrderMap.step, orderMap, hl, contains_eq, hmem, decide_true,
        Bool.not_true, Bool.false_eq_true, if_false, getItem_of_lookup hl]
      rcases lt_trichotomy (v.shares - sh) 0 with hneg | hzero | hpos
      · refine Or.inr (Or.inl ⟨"Unexpected negative shares after reducing.", ?_, if_pos (by omega)⟩)
        rw [if_neg (by omega), if_neg (by omega)]
      · obtain ⟨m', hm, hd, hk⟩ := store_delItem_of_mem hmem
        refine Or.inl ⟨⟨.reduce, v.isBuy, sh, v.price⟩, { s with memory := m' }, ?_, ?_, hk,
          fun h => by cases h⟩
        · rw [if_neg (by omega), if_pos hzero, hm]; rfl
        · rw [if_neg (by omega), hd, leftover, if_pos (by omega)]
      · obtain ⟨m', hm⟩ := store_setItem_of_mem hmem ⟨v.isBuy, v.shares - sh, v.price⟩
        obtain ⟨hd, hk⟩ := store_setItem hm
        refine Or.inl ⟨⟨.reduce, v.isBuy, sh, v.price⟩, { s with memory := m' }, ?_, ?_, hk,
          fun h => by cases h⟩
        · rw [if_pos (by omega), hm]; rfl
        · rw [if_neg (by omega), hd, leftover, if_neg (by omega)]
  | delete l i =>
    cases hl : s.memory.toDict.lookup i with
    | none =>
      refine Or.inr (Or.inl ⟨"Attempted to delete missing order ID.", ?_, ?_⟩)
      · simp [L3.processMsg, contains_eq, Finmap.lookup_eq_none.1 hl]
      · simp [OrderMap.step, orderMap, hl]
    | some v =>
      have hmem := Finmap.mem_of_lookup_eq_some hl
      obtain ⟨m', hm, hd, hk⟩ := store_delItem_of_mem hmem
      refine Or.inl ⟨⟨.delete, v.isBuy, v.shares, v.price⟩, ⟨m', some v.isBuy⟩, ?_, ?_, hk,
        fun h => by cases h⟩
      · simp [L3.processMsg, contains_eq, hmem, getItem_of_lookup hl, hm]
      · simp [OrderMap.step, orderMap, hl, hd]
  | replace l i sh p =>
    simp only [L3.processMsg, OrderMap.step, orderMap, contains_eq, decide_eq_true_eq]
    by_cases hi : i ∈ s.memory.toDict
    · exact Or.inr (Or.inl ⟨_, if_pos hi, if_pos hi⟩)
    · simp only [hi, if_false]
      cases hb : s.lastDelIsBuy with
      | none => exact Or.inr (Or.inr ⟨_, rfl, Or.inl rfl, fun lk om hs => by cases hs⟩)
      | some b =>
        rcases l3_insert s hi ⟨b, sh, p⟩ .replace with ⟨hroom, s', h, ho, hk⟩ | ⟨hroom, e, h, he⟩
        · refine Or.inl ⟨_, s', h, ?_, hk, fun _ => hroom⟩
          rw [Option.map_some]
          congr 2
          rw [hb] at ho
          exact ho.symm
        · refine Or.inr (Or.inr ⟨e, h, he, fun lk om hs => ?_⟩)
          cases hs
          exact ⟨rfl, hroom⟩

/-- A message that L3 takes is a step of the order map, and a new order finds a place. -/
theorem step_of_ret (h : s.processMsg msg = (.ret lk, s')) :
    (orderMap s).step msg = some (lk, orderMap s') ∧ isIdeal s'.memory = isIdeal s.memory ∧
      (lk.msgType.isAdd = true → HasRoom s.memory msg.orderId) := by
  rcases l3_processMsg s msg with ⟨lk', s'', hp, hstep⟩ | ⟨c, hp, -⟩ | ⟨e, hp, -⟩ <;>
    rw [h] at hp <;> cases hp
  exact hstep

end ItchOrderBook.Book
