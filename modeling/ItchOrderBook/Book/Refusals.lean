import ItchOrderBook.Book.Invariant

/-!
# What a refused message leaves behind

A message that a stage of the book refuses has already been committed by the stages before it.
`refused_iff` says for every reachable book and every order message when an error result leaves
all stores as they were: L2 must not refuse what L3 has taken (a reduction by zero shares apart,
which L3 takes without a change), no half may be left without a level in range, and the second
half of a replace must not be refused.
-/

namespace ItchOrderBook.Book

open Ref

variable {cfg : Params}

/-! ### Order messages and reachable books -/

/-- The order messages of `parse_msg`, of which a replace is emitted as two. -/
inductive OrderMsg
  | add (stockLocate orderId : ℕ) (isBuy : Bool) (shares price : ℤ)
  | reduce (stockLocate orderId : ℕ) (shares : ℤ)
  | delete (stockLocate orderId : ℕ)
  | replace (stockLocate orderId newOrderId : ℕ) (shares price : ℤ)

/-- The calls of `Book.process_msg` for an order message. -/
def OrderMsg.calls : OrderMsg → List BookMsg
  | .add l i b s p => [.add l i b s p]
  | .reduce l i s => [.reduce l i s]
  | .delete l i => [.delete l i]
  | .replace l i j s p => [.delete l i, .replace l j s p]

/-- Consecutive calls, up to the first that is not answered. -/
def process (b : Book cfg) : List BookMsg → Outcome Unit × Book cfg
  | [] => (.ret (), b)
  | msg :: msgs =>
    match b.processMsg msg with
    | (.ret _, b') => process b' msgs
    | (.err c, b') => (.err c, b')
    | (.raise e, b') => (.raise e, b')

/-- The books that calls lead to, whatever the calls returned or raised. -/
inductive Reachable (cfg : Params) (ideal : Bool) : Book cfg → Prop
  | new : Reachable cfg ideal (.new cfg ideal)
  | initParams {b b' : Book cfg} {base : ℤ} :
      Reachable cfg ideal b → b.initParams base = .ok b' → Reachable cfg ideal b'
  | processMsg {b : Book cfg} (msg : BookMsg) :
      Reachable cfg ideal b → Reachable cfg ideal (b.processMsg msg).2

/-- All stores of the book are the same. -/
structure SameStores (b b' : Book cfg) : Prop where
  l3 : b'.l3.memory = b.l3.memory
  l2 : b'.l2.memory = b.l2.memory
  levels : ∀ c, b'.l2.levels c = b.l2.levels c
  entries : ∀ c, (half b'.bbo c).entries = (half b.bbo c).entries
  outside : ∀ c, (half b'.bbo c).outsideShares = (half b.bbo c).outsideShares
  outsideInRange : ∀ c, (half b'.bbo c).outsideSharesInRange = (half b.bbo c).outsideSharesInRange

theorem SameStores.refl (b : Book cfg) : SameStores b b :=
  ⟨rfl, rfl, fun _ => rfl, fun _ => rfl, fun _ => rfl, fun _ => rfl⟩

/-! ### The halves keep their side -/

theorem half_isBuy (cfg : Params) (h : BBOHalf) (msg : DownstreamOrderMsg) :
    (h.processMsg cfg msg).2.isBuy = h.isBuy := by
  have hins : ∀ i e, (h.insertEntry cfg i e).isBuy = h.isBuy := fun i e => by
    unfold BBOHalf.insertEntry
    dsimp only
    split_ifs
    · split <;> rfl
    · rfl
  have hout : (h.outsideMsg cfg msg).isBuy = h.isBuy := by
    unfold BBOHalf.outsideMsg
    split_ifs <;> rfl
  unfold BBOHalf.processMsg
  split_ifs
  · rfl
  · split
    · rfl
    · rfl
    · unfold BBOHalf.deplete
      dsimp only
      split_ifs
      · rfl
      · split <;> rfl
      · rfl
      · rfl
    · exact hins _ _
    · exact hout

/-- Each half of the BBO is on its side. -/
def Sided (b : BBO) : Prop := ∀ c, (half b c).isBuy = c

theorem Sided.setHalf {b : BBO} (hb : Sided b) {s : Bool} {h : BBOHalf} (hh : h.isBuy = s) :
    Sided (setHalf b s h) := fun c => by
  rw [half_setHalf]
  split_ifs with hc
  · rw [hh, hc]
  · exact hb c

theorem Sided.processMsg {b : BBO} (hb : Sided b) (msg : DownstreamOrderMsg) :
    Sided (b.processMsg cfg msg).2 := by
  have hh := half_isBuy cfg (half b msg.isBuy) msg
  rw [hb] at hh
  rw [bbo_processMsg]
  split
  · rename_i e h hp; rw [hp] at hh; exact hb.setHalf hh
  · rename_i c h hp; rw [hp] at hh; exact hb.setHalf hh
  · rename_i r h hp
    rw [hp] at hh
    intro c
    rw [half_setBest]
    exact hb.setHalf hh c

theorem Sided.processUpdt {b b' : BBO} (hb : Sided b) {s : Bool} {e : BBOEntry}
    (h : b.processUpdt cfg s e = .ok b') : Sided b' := by
  rw [bbo_processUpdt] at h
  unfold BBOHalf.processUpdt at h
  split_ifs at h with hlen
  · cases h
  · cases h
    exact hb.setHalf (hb s)

theorem sided_processMsg {b : Book cfg} (hb : Sided b.bbo) (msg : BookMsg) :
    Sided (b.processMsg msg).2.bbo := by
  have hs : ∀ lk, Sided (b.bbo.processMsg cfg lk).2 := fun lk => hb.processMsg lk
  rcases h3 : b.l3.processMsg msg with ⟨lk | c | e, l3⟩
  · rcases h2 : b.l2.processMsg lk with ⟨u | c | e, l2⟩
    · have hlk := hs lk
      rcases h1 : b.bbo.processMsg cfg lk with ⟨r | c | e, bbo⟩
      · simp only [Book.processMsg, h3, Book.downstream, h2, h1, Book.refill]
        rw [h1] at hlk
        split_ifs
        · split
          · exact hlk
          · split
            · exact hlk
            · rename_i hu
              exact hlk.processUpdt hu
        · exact hlk
      all_goals
        rw [h1] at hlk
        simpa only [Book.processMsg, h3, Book.downstream, h2, h1] using hlk
    · simpa only [Book.processMsg, h3, Book.downstream, h2] using hb
    · simpa only [Book.processMsg, h3, Book.downstream, h2] using hb
  · simpa only [Book.processMsg, h3] using hb
  · simpa only [Book.processMsg, h3] using hb

theorem Reachable.sided {ideal : Bool} {b : Book cfg} (h : Reachable cfg ideal b) : Sided b.bbo := by
  induction h with
  | new => intro c; cases c <;> rfl
  | initParams _ hinit ih =>
    unfold Book.initParams at hinit
    split at hinit
    · cases hinit
    · cases hinit
      intro c
      have := ih c
      cases c <;> exact this
  | processMsg msg _ ih => exact sided_processMsg ih msg

/-! ### The refusals of each stage -/

/-- L3 takes the message and passes `lk` downstream. -/
def TakenByL3 (s : L3 cfg) (msg : BookMsg) (lk : DownstreamOrderMsg) : Prop :=
  (∃ om, (orderMap s).step msg = some (lk, om)) ∧
    (lk.msgType.isAdd = true → HasRoom s.memory msg.orderId)

/-- L2 refuses the message: it is not initialised, or the price is not on a tick. -/
def RefusedByL2 (s : L2 cfg) (lk : DownstreamOrderMsg) : Prop :=
  s.initialized = false ∨ lk.price % 50 ≠ 0

/-- L2 takes shares off a level: of one outside the window without looking at it, else of one
that its memory and its price set have. -/
def TakenByL2 (s : L2 cfg) (lk : DownstreamOrderMsg) : Prop :=
  ¬ RefusedByL2 s lk ∧
    if !s.ideal ∧ (lk.price < s.priceBase ∨ lk.price > s.priceMax) then
      ¬ (lk.isBuy ∧ lk.price > s.priceMax) ∧ ¬ (!lk.isBuy ∧ lk.price < s.priceBase)
    else lk.shares > 0 ∧ s.memory.contains lk.price = .ok true ∧ lk.price ∈ s.levels lk.isBuy

/-- The message empties a shown level, and all other levels are out of range. -/
def Strands (h : BBOHalf) (lk : DownstreamOrderMsg) : Prop :=
  (∃ pre post, h.entries = pre ++ ⟨lk.shares, lk.price⟩ :: post ∧
    ∀ e ∈ pre, Better h.isBuy e.price lk.price) ∧
  h.outsideSharesInRange ≤ 0 ∧ 0 < h.outsideShares

/-- The message takes no shares off an order that has some. -/
def IsIdle (s : L3 cfg) (msg : BookMsg) (lk : DownstreamOrderMsg) : Prop :=
  lk.msgType = .reduce ∧ lk.shares = 0 ∧
    ∃ e, (orderMap s).live.lookup msg.orderId = some e ∧ e.shares ≠ 0

section L3

variable {s s' : L3 cfg} {msg : BookMsg} {lk : DownstreamOrderMsg}

theorem takenByL3_iff : TakenByL3 s msg lk ↔ ∃ s', s.processMsg msg = (.ret lk, s') := by
  unfold TakenByL3
  rcases l3_processMsg s msg with ⟨lk', s', hp, hs, -, hroom⟩ | ⟨c, hp, hs⟩ | ⟨e, hp, -, hs⟩
  · rw [hp, hs]
    constructor
    · rintro ⟨⟨om, h⟩, -⟩
      cases h
      exact ⟨s', rfl⟩
    · rintro ⟨_, h⟩
      cases h
      exact ⟨⟨_, rfl⟩, hroom⟩
  · rw [hp, hs]
    exact iff_of_false (by simp) (by simp)
  · rw [hp]
    refine iff_of_false ?_ (by simp)
    rintro ⟨⟨om, h⟩, hroom⟩
    obtain ⟨ha, hno⟩ := hs _ _ h
    exact hno (hroom ha)

/-- L3 takes a message without a change exactly when it is idle. -/
theorem l3_memory_eq_iff (h : s.processMsg msg = (.ret lk, s')) :
    s'.memory = s.memory ↔ IsIdle s msg lk := by
  obtain ⟨hstep, -⟩ := step_of_ret h
  constructor
  · intro hmem
    have hlive : (orderMap s').live = (orderMap s).live := congrArg L3Store.toDict hmem
    rcases OrderMap.step_cases hstep with ⟨-, hi, hl⟩ | ⟨ha, e, he, -, -, -, hl⟩
    · rw [hl] at hlive
      exact absurd (hlive ▸ Finmap.mem_insert.2 (Or.inl rfl)) hi
    · rw [hl] at hlive
      unfold leftover at hlive
      split_ifs at hlive with hsh
      · have := Finmap.mem_of_lookup_eq_some he
        rw [← hlive] at this
        exact absurd this Finmap.notMem_erase_self
      · have hlook := he
        rw [← hlive, Finmap.lookup_insert, Option.some.injEq] at hlook
        have hzero : lk.shares = 0 := by
          have := congrArg L3Entry.shares hlook
          dsimp only at this
          omega
        refine ⟨?_, hzero, e, he, fun h0 => hsh (h0.trans hzero.symm)⟩
        obtain ⟨htype, hf⟩ := OrderMap.step_fields hstep
        rw [htype] at ha ⊢
        cases msg with
        | reduce l i n => rfl
        | delete l i =>
          obtain ⟨e', he', hsh'⟩ := hf
          rw [BookMsg.orderId, he'] at he
          cases he
          exact absurd hsh'.symm hsh
        | add l i b n p => cases ha
        | replace l i n p => cases ha
  · rintro ⟨htype, hzero, e, he, hne⟩
    obtain ⟨htype', hf⟩ := OrderMap.step_fields hstep
    rw [htype'] at htype
    cases msg with
    | reduce l i n =>
      have hmem : i ∈ s.memory.toDict := Finmap.mem_of_lookup_eq_some he
      obtain rfl : n = 0 := hf.symm.trans hzero
      have hpos : e.shares - 0 > 0 ∨ e.shares - 0 < 0 := by omega
      have hget : s.memory.getItem i = .ok e := getItem_of_lookup he
      simp only [L3.processMsg, contains_eq, hmem, decide_true, Bool.not_true, Bool.false_eq_true,
        if_false, hget] at h
      rcases hpos with hpos | hneg
      · have hset : s.memory.setItem i ⟨e.isBuy, e.shares, e.price⟩ = .ok s.memory :=
          store_setItem_same he
        rw [if_pos hpos, sub_zero, hset] at h
        cases h
        rfl
      · rw [if_neg (by omega), if_neg (by omega)] at h
        cases h
    | delete l i => cases htype
    | add l i b n p => cases htype
    | replace l i n p => cases htype

end L3

section L2

variable {s : L2 cfg} {lk : DownstreamOrderMsg}

theorem contains_tick {st : L2Store cfg} {p : ℤ} (hp : p % 50 = 0) : ∃ f, st.contains p = .ok f := by
  cases st with
  | ideal d => exact ⟨_, rfl⟩
  | hw m => exact ⟨_, by simp only [L2Store.contains, L2Memory.contains, priceHash_tick hp]; rfl⟩

/-- What is found on a tick can be read, overwritten and removed. -/
theorem found_tick {st : L2Store cfg} {p : ℤ} (hp : p % 50 = 0) (hf : st.contains p = .ok true)
    (v : ℤ) : (∃ x, st.getItem p = .ok x) ∧ (∃ st', st.setItem p v = .ok st') ∧
      ∃ st', st.delItem p = .ok st' := by
  cases st with
  | ideal d =>
    have hmem : p ∈ d := by simpa [L2Store.contains] using hf
    obtain ⟨x, hx⟩ := Option.isSome_iff_exists.1 (Finmap.lookup_isSome.2 hmem)
    exact ⟨⟨x, by simp only [L2Store.getItem, hx]⟩, ⟨_, rfl⟩, ⟨_, if_pos hmem⟩⟩
  | hw m =>
    have hpos : 0 < m.arr (slot cfg p) := by
      simpa [L2Store.contains, L2Memory.contains, priceHash_tick hp, Except.map] using hf
    simp only [L2Store.getItem, L2Store.setItem, L2Store.delItem, L2Memory.getItem,
      L2Memory.setItem, L2Memory.delItem, priceHash_tick hp, Except.map, not_le.2 hpos, if_false]
    exact ⟨⟨_, rfl⟩, ⟨_, rfl⟩, ⟨_, rfl⟩⟩

theorem increase_not_err (b : Bool) (sh p : ℤ) : ¬ (s.increase b sh p).1.IsErr := by
  unfold L2.increase
  split
  · simp
  · dsimp only
    split
    · simp
    · split <;> simp

theorem decrease_not_err (b : Bool) (sh p : ℤ) : ¬ (s.decrease b sh p).1.IsErr := by
  unfold L2.decrease
  split
  · simp
  · simp
  · split
    · simp
    · dsimp only
      split
      · simp
      · split_ifs <;> simp

theorem decrease_isRet_iff {b : Bool} {sh p : ℤ} (hp : p % 50 = 0) :
    (s.decrease b sh p).1.IsRet ↔ s.memory.contains p = .ok true ∧ p ∈ s.levels b := by
  obtain ⟨f, hf⟩ : ∃ f, s.memory.contains p = .ok f := contains_tick hp
  unfold L2.decrease
  rw [hf]
  cases f with
  | false => simp
  | true =>
    have hfound := found_tick hp hf
    obtain ⟨x, hx⟩ := (hfound 0).1
    obtain ⟨m₁, hm₁⟩ := (hfound (x - sh)).2.1
    obtain ⟨m₂, hm₂⟩ := (hfound 0).2.2
    rw [hx]
    dsimp only
    by_cases hz : x - sh = 0
    · rw [if_pos hz, hm₂]
      by_cases hl : p ∈ s.levels b <;> simp [hl]
    · rw [if_neg hz, hm₁]
      by_cases hl : p ∈ s.levels b <;> simp [hl]

/-- L2 returns an error exactly when it refuses the message, and is then unchanged. -/
theorem l2_cases (s : L2 cfg) (lk : DownstreamOrderMsg) :
    (RefusedByL2 s lk ∧ ∃ c, s.processMsg lk = (.err c, s)) ∨
    (¬ RefusedByL2 s lk ∧ ¬ (s.processMsg lk).1.IsErr) := by
  unfold RefusedByL2 L2.processMsg
  cases hi : s.initialized with
  | false => exact Or.inl ⟨Or.inl rfl, _, rfl⟩
  | true =>
    by_cases hp : lk.price % 50 = 0
    · refine Or.inr ⟨by simp [hp], ?_⟩
      simp only [Bool.not_true, Bool.false_eq_true, if_false, hp, ne_eq, not_true]
      split_ifs
      · simp
      · simp
      · simp
      · cases lk.msgType
        · exact increase_not_err _ _ _
        · exact increase_not_err _ _ _
        · exact decrease_not_err _ _ _
        · exact decrease_not_err _ _ _
      · simp
    · exact Or.inl ⟨Or.inr hp, "Invalid price not on tick increment.", by simp [hp]⟩

/-- L2 takes a message that takes shares exactly when it is `TakenByL2`. -/
theorem l2_isRet_iff (ha : lk.msgType.isAdd = false) :
    (s.processMsg lk).1.IsRet ↔ TakenByL2 s lk := by
  unfold TakenByL2
  rcases l2_cases s lk with ⟨hr, c, hp⟩ | ⟨hr, -⟩
  · rw [hp]
    exact iff_of_false (Outcome.isRet_err c) fun h => h.1 hr
  · rw [and_iff_right hr]
    unfold RefusedByL2 at hr
    rw [not_or, Bool.not_eq_false, not_not] at hr
    simp only [L2.processMsg, hr.1, hr.2, Bool.not_true, Bool.false_eq_true, if_false, ne_eq,
      not_true]
    by_cases hw : (!s.ideal) = true ∧ (lk.price < s.priceBase ∨ lk.price > s.priceMax)
    · simp only [hw, and_self, if_true]
      split_ifs with h1 h2
      · simp [h1]
      · simp [h2]
      · simp only [Outcome.isRet_ret, h1, h2, not_false_eq_true, and_self]
    · simp only [hw, if_false]
      by_cases hs : lk.shares > 0
      · simp only [hs, not_true, if_false, true_and]
        rw [← (decrease_isRet_iff hr.2 : (s.decrease lk.isBuy lk.shares lk.price).1.IsRet ↔ _)]
        cases ht : lk.msgType <;> rw [ht] at ha <;> first | rfl | cases ha
      · simp [hs]

end L2

section Half

variable {h : BBOHalf} {lk : DownstreamOrderMsg}

/-- The loop ends in a depletion exactly when an entry, after better ones only, has all that the
message takes. -/
theorem scan_depletion_iff (b : Bool) (lk : DownstreamOrderMsg) (es : List BBOEntry) (k : ℕ) :
    (∃ i, BBOHalf.scan b lk k es = .ok (.depletion i)) ↔ lk.msgType.isAdd = false ∧
      ∃ pre post, es = pre ++ ⟨lk.shares, lk.price⟩ :: post ∧ ∀ e ∈ pre, Better b e.price lk.price := by
  induction es generalizing k with
  | nil => simp [BBOHalf.scan]
  | cons entry es ih =>
    have hpre : ∀ pre post, entry :: es = pre ++ ⟨lk.shares, lk.price⟩ :: post →
        (∀ e ∈ pre, Better b e.price lk.price) → (pre = [] ∧ entry = ⟨lk.shares, lk.price⟩) ∨
        (Better b entry.price lk.price ∧ ∃ pre', pre = entry :: pre' ∧
          es = pre' ++ ⟨lk.shares, lk.price⟩ :: post) := by
      intro pre post he hb
      cases pre with
      | nil => cases he; exact Or.inl ⟨rfl, rfl⟩
      | cons x pre =>
        cases he
        exact Or.inr ⟨hb _ List.mem_cons_self, pre, rfl, rfl⟩
    rw [BBOHalf.scan]
    by_cases hp : lk.price = entry.price
    · have hirr : ¬ Better b entry.price lk.price := hp ▸ irrefl _
      rw [if_pos hp]
      cases ha : lk.msgType.isAdd with
      | true => simp
      | false =>
        simp only [Bool.false_eq_true, if_false, true_and]
        have hiff : (∃ pre post, entry :: es = pre ++ ⟨lk.shares, lk.price⟩ :: post ∧
            ∀ e ∈ pre, Better b e.price lk.price) ↔ entry.shares - lk.shares = 0 := by
          constructor
          · rintro ⟨pre, post, he, hb⟩
            rcases hpre pre post he hb with ⟨-, rfl⟩ | ⟨hb, -⟩
            · exact sub_self _
            · exact absurd hb hirr
          · intro hz
            obtain ⟨sh, pr⟩ := entry
            dsimp only at hz hp
            exact ⟨[], es, by rw [hp, ← sub_eq_zero.1 hz]; rfl, by simp⟩
        rw [hiff]
        split_ifs with hneg hz
        · exact iff_of_false (by simp) (by omega)
        · exact iff_of_true ⟨k, rfl⟩ hz
        · exact iff_of_false (by simp) hz
    · rw [if_neg hp]
      by_cases hc : BBOHalf.closer b lk.price entry.price = true
      · rw [if_pos hc]
        refine iff_of_false ?_ ?_
        · split_ifs <;> simp
        · rintro ⟨-, pre, post, he, hb⟩
          rcases hpre pre post he hb with ⟨-, rfl⟩ | ⟨hb, -⟩
          · exact hp rfl
          · exact irrefl (r := Better b) _ (IsTrans.trans _ _ _ hb (closer_iff.1 hc))
      · rw [if_neg hc, ih]
        have hbetter : Better b entry.price lk.price := by
          rcases trichotomous_of (Better b) entry.price lk.price with hlt | heq | hgt
          · exact hlt
          · exact absurd heq.symm hp
          · exact absurd (closer_iff.2 hgt) hc
        refine and_congr_right fun _ => ⟨?_, ?_⟩
        · rintro ⟨pre, post, rfl, hb⟩
          refine ⟨entry :: pre, post, rfl, fun e he => ?_⟩
          rcases List.mem_cons.1 he with rfl | he
          · exact hbetter
          · exact hb e he
        · rintro ⟨pre, post, he, hb⟩
          rcases hpre pre post he hb with ⟨-, rfl⟩ | ⟨-, pre', rfl, rfl⟩
          · exact absurd rfl hp
          · exact ⟨pre', post, rfl, fun e he => hb e (List.mem_cons_of_mem _ he)⟩

theorem scan_depletion_lt {b : Bool} {es : List BBOEntry} {k i : ℕ}
    (h : BBOHalf.scan b lk k es = .ok (.depletion i)) : i < k + es.length := by
  induction es generalizing k with
  | nil => cases h
  | cons entry es ih =>
    rw [BBOHalf.scan] at h
    rw [List.length_cons]
    by_cases hp : lk.price = entry.price
    · rw [if_pos hp] at h
      cases ha : lk.msgType.isAdd with
      | true =>
        rw [ha, if_pos rfl] at h
        cases h
      | false =>
        rw [ha, if_neg Bool.false_ne_true] at h
        dsimp only at h
        split_ifs at h
        · cases h
          omega
        · cases h
    · rw [if_neg hp] at h
      split_ifs at h
      · cases h
      · have := ih h
        omega

/-- A half returns an error exactly when the message strands it, and has then lost an entry. -/
theorem half_cases (cfg : Params) (hb : lk.isBuy = h.isBuy) :
    ((lk.msgType.isAdd = false ∧ Strands h lk) ∧ ∃ c h', h.processMsg cfg lk = (.err c, h') ∧
      h'.entries.length + 1 = h.entries.length) ∨
    (¬ (lk.msgType.isAdd = false ∧ Strands h lk) ∧ ¬ (h.processMsg cfg lk).1.IsErr) := by
  have hside : ¬ lk.isBuy ≠ h.isBuy := not_not.2 hb
  have hiff := scan_depletion_iff h.isBuy lk h.entries 0
  unfold BBOHalf.processMsg Strands
  rw [if_neg hside, ← and_assoc, ← hiff]
  cases hs : BBOHalf.scan h.isBuy lk 0 h.entries with
  | error e => exact Or.inr ⟨by simp, by simp⟩
  | ok scan =>
    cases scan with
    | modify idx entry => exact Or.inr ⟨by simp, by simp⟩
    | insertion idx => exact Or.inr ⟨by simp, by simp⟩
    | outside => exact Or.inr ⟨by simp, by simp⟩
    | depletion idx =>
      have hlt := scan_depletion_lt hs
      rw [Nat.zero_add] at hlt
      by_cases hr : h.outsideSharesInRange > 0
      · refine Or.inr ⟨fun hc => by omega, ?_⟩
        simp only [BBOHalf.deplete, hr, if_true]
        split_ifs
        · simp
        · split <;> simp
      · by_cases ho : h.outsideShares > 0
        · refine Or.inl ⟨⟨⟨idx, rfl⟩, by omega, ho⟩, "No shares in range for updt.",
            { h with entries := h.entries.eraseIdx idx }, ?_, ?_⟩
          · simp only [BBOHalf.deplete, hr, ho, if_true, if_false]
          · rw [List.length_eraseIdx_of_lt hlt]
            omega
        · refine Or.inr ⟨fun hc => ho hc.2.2, ?_⟩
          simp only [BBOHalf.deplete, hr, ho, if_false]
          simp

end Half

/-! ### One call -/

section Call

variable {b b' : Book cfg} {msg : BookMsg}

/-- The call is not one of those whose refusal comes too late: what L3 takes, L2 does not refuse,
unless it is idle, and no half is stranded. -/
def RefusedInTime (b : Book cfg) (msg : BookMsg) : Prop :=
  ∀ lk, TakenByL3 b.l3 msg lk → (RefusedByL2 b.l2 lk → IsIdle b.l3 msg lk) ∧
    ¬ (lk.msgType.isAdd = false ∧ TakenByL2 b.l2 lk ∧ Strands (half b.bbo lk.isBuy) lk)

theorem refill_not_err (b : Book cfg) (res : BBOResult) : ¬ (b.refill res).1.IsErr := by
  unfold Book.refill
  dsimp only
  split_ifs
  · split
    · simp
    · split <;> simp
  · simp

theorem finish_not_err (b : BBO) (lk : DownstreamOrderMsg) (r : BBOHalfResult) :
    ¬ (b.finish lk r).IsErr := by
  unfold BBO.finish
  split
  · dsimp only
    split_ifs <;> simp
  · simp

/-- The BBO stage returns an error exactly when a half is stranded. -/
theorem bbo_cases (cfg : Params) {bbo : BBO} (hb : Sided bbo) (lk : DownstreamOrderMsg) :
    ((lk.msgType.isAdd = false ∧ Strands (half bbo lk.isBuy) lk) ∧
      ∃ c bbo', bbo.processMsg cfg lk = (.err c, bbo') ∧
        (half bbo' lk.isBuy).entries.length + 1 = (half bbo lk.isBuy).entries.length) ∨
    (¬ (lk.msgType.isAdd = false ∧ Strands (half bbo lk.isBuy) lk) ∧
      ¬ (bbo.processMsg cfg lk).1.IsErr) := by
  rw [bbo_processMsg]
  rcases half_cases cfg (hb lk.isBuy).symm with ⟨hs, c, h', hp, hlen⟩ | ⟨hs, hne⟩
  · rw [hp]
    exact Or.inl ⟨hs, _, _, rfl, by rw [half_setHalf, if_pos rfl]; exact hlen⟩
  · refine Or.inr ⟨hs, ?_⟩
    rcases hp : (half bbo lk.isBuy).processMsg cfg lk with ⟨r | c | e, h'⟩
    · exact finish_not_err _ _ _
    · rw [hp] at hne
      exact absurd (Outcome.isErr_err c) hne
    · simp

/-- The stages behind L3 do not touch it. -/
theorem downstream_l3 (b : Book cfg) (x : L3 cfg) (lk : DownstreamOrderMsg) :
    ({ b with l3 := x } : Book cfg).downstream lk =
      ((b.downstream lk).1, { (b.downstream lk).2 with l3 := x }) ∧ (b.downstream lk).2.l3 = b.l3 := by
  rcases h2 : b.l2.processMsg lk with ⟨u | c | e, l2⟩
  · rcases h1 : b.bbo.processMsg cfg lk with ⟨r | c | e, bbo⟩
    · simp only [Book.downstream, h2, h1, Book.refill]
      split_ifs
      · split
        · exact ⟨rfl, rfl⟩
        · split <;> exact ⟨rfl, rfl⟩
      · exact ⟨rfl, rfl⟩
    · simp only [Book.downstream, h2, h1, and_self]
    · simp only [Book.downstream, h2, h1, and_self]
  · simp only [Book.downstream, h2, and_self]
  · simp only [Book.downstream, h2, and_self]

/-- How a call comes to return an error: L3 refuses the message, or takes it and L2 refuses it, or
both take it and a half is stranded. -/
theorem call_isErr (hb : Sided b.bbo) (h : (b.processMsg msg).1.IsErr) :
    ((∃ c, b.l3.processMsg msg = (.err c, b.l3)) ∧ SameStores b (b.processMsg msg).2) ∨
    ∃ lk l3, b.l3.processMsg msg = (.ret lk, l3) ∧ (b.processMsg msg).2.l3 = l3 ∧
      ((RefusedByL2 b.l2 lk ∧ (b.processMsg msg).2 = { b with l3 }) ∨
        (lk.msgType.isAdd = false ∧ TakenByL2 b.l2 lk ∧ Strands (half b.bbo lk.isBuy) lk ∧
          (half (b.processMsg msg).2.bbo lk.isBuy).entries.length + 1 =
            (half b.bbo lk.isBuy).entries.length)) := by
  unfold Book.processMsg at h ⊢
  rcases l3_processMsg b.l3 msg with ⟨lk, l3, h3, -⟩ | ⟨c, h3, -⟩ | ⟨e, h3, -⟩ <;> rw [h3] at h ⊢
  · refine Or.inr ⟨lk, l3, rfl, ?_⟩
    dsimp only at h ⊢
    unfold Book.downstream at h ⊢
    rcases l2_cases b.l2 lk with ⟨hr, c, h2⟩ | ⟨hr, hne⟩
    · simp only [h2]
      exact ⟨trivial, Or.inl ⟨hr, trivial⟩⟩
    · rcases h2 : b.l2.processMsg lk with ⟨u | c | e, l2⟩
      · rcases bbo_cases cfg hb lk with ⟨⟨ha, hs⟩, c, bbo', h1, hlen⟩ | ⟨hs, hne1⟩
        · have htaken : TakenByL2 b.l2 lk := (l2_isRet_iff ha).1 (by rw [h2]; exact ⟨u, rfl⟩)
          simp only [h1]
          exact ⟨trivial, Or.inr ⟨ha, htaken, hs, hlen⟩⟩
        · rcases h1 : b.bbo.processMsg cfg lk with ⟨r | c | e, bbo'⟩
          · simp only [h2, h1] at h
            exact absurd h (refill_not_err _ _)
          · rw [h1] at hne1
            exact absurd (Outcome.isErr_err c) hne1
          · simp only [h2, h1] at h
            exact absurd h (Outcome.isErr_raise e)
      · rw [h2] at hne
        exact absurd (Outcome.isErr_err c) hne
      · simp only [h2] at h
        exact absurd h (Outcome.isErr_raise e)
  · exact Or.inl ⟨⟨c, rfl⟩, SameStores.refl b⟩
  · exact absurd h (Outcome.isErr_raise e)

/-- What L3 takes and a later stage refuses is an error of the call. -/
theorem call_isErr_of_taken (hb : Sided b.bbo) {lk : DownstreamOrderMsg}
    (ht : TakenByL3 b.l3 msg lk)
    (h : RefusedByL2 b.l2 lk ∨
      (lk.msgType.isAdd = false ∧ TakenByL2 b.l2 lk ∧ Strands (half b.bbo lk.isBuy) lk)) :
    (b.processMsg msg).1.IsErr := by
  obtain ⟨l3, h3⟩ := takenByL3_iff.1 ht
  unfold Book.processMsg
  rw [h3]
  dsimp only
  unfold Book.downstream
  rcases l2_cases b.l2 lk with ⟨-, c, h2⟩ | ⟨hr, -⟩
  · simp only [h2, Outcome.isErr_err]
  · obtain ⟨ha, ht2, hs⟩ := h.resolve_left hr
    obtain ⟨u, hu⟩ := (l2_isRet_iff ha).2 ht2
    rcases h2 : b.l2.processMsg lk with ⟨out, l2⟩
    rw [h2] at hu
    rcases bbo_cases cfg hb lk with ⟨-, c, bbo', h1, -⟩ | ⟨hns, -⟩
    · cases hu
      simp only [h1, Outcome.isErr_err]
    · exact absurd ⟨ha, hs⟩ hns

/-- A message that L3 takes is answered with an error exactly when L2 refuses it or a half is stranded. -/
theorem call_isErr_iff (hb : Sided b.bbo) {lk : DownstreamOrderMsg} {l3 : L3 cfg}
    (h3 : b.l3.processMsg msg = (.ret lk, l3)) :
    (b.processMsg msg).1.IsErr ↔ RefusedByL2 b.l2 lk ∨
      (lk.msgType.isAdd = false ∧ TakenByL2 b.l2 lk ∧ Strands (half b.bbo lk.isBuy) lk) := by
  refine ⟨fun herr => ?_, call_isErr_of_taken hb (takenByL3_iff.2 ⟨l3, h3⟩)⟩
  rcases call_isErr hb herr with ⟨⟨c, hc⟩, -⟩ | ⟨lk', l3', h3', -, ⟨hr, -⟩ | ⟨ha, ht, hs, -⟩⟩
  · rw [h3] at hc
    cases hc
  · rw [h3] at h3'
    cases h3'
    exact Or.inl hr
  · rw [h3] at h3'
    cases h3'
    exact Or.inr ⟨ha, ht, hs⟩

/-- **One call.** An error result leaves all stores as they were exactly when the call is refused
in time. -/
theorem call_keeps_iff (hb : Sided b.bbo) :
    ((b.processMsg msg).1.IsErr → SameStores b (b.processMsg msg).2) ↔ RefusedInTime b msg := by
  constructor
  · intro hkeep lk ht
    obtain ⟨l3, h3⟩ := takenByL3_iff.1 ht
    constructor
    · intro hr
      have herr := call_isErr_of_taken hb ht (Or.inl hr)
      have hsame := (hkeep herr).l3
      rcases call_isErr hb herr with ⟨⟨c, hc⟩, -⟩ | ⟨lk', l3', h3', hl3, -⟩
      · rw [h3] at hc
        cases hc
      · rw [h3] at h3'
        cases h3'
        rw [hl3] at hsame
        exact (l3_memory_eq_iff h3).1 hsame
    · intro hs
      have herr := call_isErr_of_taken hb ht (Or.inr hs)
      have hsame := (hkeep herr).entries lk.isBuy
      rcases call_isErr hb herr with ⟨⟨c, hc⟩, -⟩ | ⟨lk', l3', h3', -, hr | ⟨-, -, -, hlen⟩⟩
      · rw [h3] at hc
        cases hc
      · rw [h3] at h3'
        cases h3'
        exact hs.2.1.1 hr.1
      · rw [h3] at h3'
        cases h3'
        rw [hsame] at hlen
        omega
  · intro hin herr
    rcases call_isErr hb herr with ⟨-, hsame⟩ | ⟨lk, l3, h3, -, hr⟩
    · exact hsame
    · obtain ⟨hidle, hs⟩ := hin lk (takenByL3_iff.2 ⟨l3, h3⟩)
      rcases hr with ⟨hr, hst⟩ | ⟨ha, ht, hs', -⟩
      · rw [hst]
        exact ⟨(l3_memory_eq_iff h3).2 (hidle hr), rfl, fun _ => rfl, fun _ => rfl, fun _ => rfl,
          fun _ => rfl⟩
      · exact absurd ⟨ha, ht, hs'⟩ hs

end Call

/-! ### The calls of a good book -/

section Good

variable {ideal : Bool} {base : ℤ} {b : Book cfg} {msg : BookMsg} {lk : DownstreamOrderMsg} {l3 : L3 cfg}

theorem Good.sided (hg : Good ideal base b) : Sided b.bbo := fun c => (hg.window c).isBuy_eq

/-- Only an insertion is past the near side of the window. -/
theorem Placed.isAdd_of_beyond {om om' : OrderMap} (hd : Placed cfg ideal base om.live)
    (h : om.step msg = some (lk, om')) (hb : Beyond cfg ideal base lk) : lk.msgType.isAdd = true := by
  rcases OrderMap.step_cases h with ⟨ha, -⟩ | ⟨-, e, he, hside, hprice, -⟩
  · exact ha
  · have hin := hd.inside _ e he hb.1
    rw [hside, hprice] at hin
    have hout := hb.2
    split_ifs at hin hout <;> omega

/-- Only a message that takes shares strands a half. -/
theorem Good.half_isErr_iff (hg : Good ideal base b) (lk : DownstreamOrderMsg) :
    ((half b.bbo lk.isBuy).processMsg cfg lk).1.IsErr ↔
      lk.msgType.isAdd = false ∧ Strands (half b.bbo lk.isBuy) lk := by
  rcases half_cases cfg (hg.sided lk.isBuy).symm with ⟨hs, c, h', hp, -⟩ | ⟨hs, hne⟩
  · rw [hp]
    exact iff_of_true (Outcome.isErr_err c) hs
  · exact iff_of_false hne hs

theorem Good.refusedByL2_iff (hg : Good ideal base b) : RefusedByL2 b.l2 lk ↔ lk.price % 50 ≠ 0 := by
  rw [RefusedByL2, hg.tracks.initialized, or_iff_right (Bool.noConfusion)]

/-- At a price on a tick, an error is that of the half of the message's side. -/
theorem call_isErr_iff_half (hbase : base % 50 = 0) (hg : Good ideal base b) (hm : msg.SharesPos)
    (h3 : b.l3.processMsg msg = (.ret lk, l3)) (htick : lk.price % 50 = 0) :
    (b.processMsg msg).1.IsErr ↔ ((half b.bbo lk.isBuy).processMsg cfg lk).1.IsErr := by
  obtain ⟨hstep, -⟩ := step_of_ret h3
  have hready : ¬ RefusedByL2 b.l2 lk := fun h => hg.refusedByL2_iff.1 h htick
  rw [call_isErr_iff hg.sided h3, hg.half_isErr_iff, or_iff_right hready]
  refine ⟨fun ⟨ha, _, hs⟩ => ⟨ha, hs⟩, fun ⟨ha, hs⟩ => ⟨ha, ?_, hs⟩⟩
  rcases l2_processMsg hstep hbase (hg.kindL2.symm ▸ hg.placed) hm hg.tracks with
    ⟨hoff, -⟩ | ⟨-, hb, -⟩ | ⟨-, -, l2, hp, -⟩
  · exact absurd htick hoff
  · rw [hg.kindL2] at hb
    exact absurd (ha.symm.trans (hg.placed.isAdd_of_beyond hstep hb)) Bool.false_ne_true
  · exact (l2_isRet_iff ha).1 (by rw [hp]; exact ⟨(), rfl⟩)

/-- A message without shares is not answered with an error at a price on a tick. -/
theorem sharesPos_of_isErr (hg : Good ideal base b) (h3 : b.l3.processMsg msg = (.ret lk, l3))
    (htick : lk.price % 50 = 0) (herr : (b.processMsg msg).1.IsErr) : msg.SharesPos := by
  obtain ⟨hstep, -⟩ := step_of_ret h3
  have hready : ¬ RefusedByL2 b.l2 lk := fun h => hg.refusedByL2_iff.1 h htick
  obtain ⟨ha, -, ⟨pre, post, hentries, -⟩, -⟩ := ((call_isErr_iff hg.sided h3).1 herr).resolve_left hready
  -- the message takes all shares of an entry, and the entries have some
  have hpos : 0 < lk.shares := by
    have hmem : ⟨lk.shares, lk.price⟩ ∈ (half b.bbo lk.isBuy).entries := hentries ▸ by simp
    rw [(hg.halves lk.isBuy).entries] at hmem
    obtain ⟨x, hx, he⟩ := List.mem_map.1 hmem
    have hx' := pos_of_mem_ladder hg.placed.positive (List.mem_of_mem_take hx)
    have hshares : x.2 = lk.shares := congrArg BBOEntry.shares he
    omega
  obtain ⟨htype, hcarries⟩ := OrderMap.step_fields hstep
  cases msg with
  | reduce l i n => exact hcarries ▸ hpos
  | delete l i => trivial
  | add l i c n p =>
    rw [htype] at ha
    cases ha
  | replace l i n p =>
    rw [htype] at ha
    cases ha

end Good

/-! ### Order messages -/

section Order

variable {b b' : Book cfg} {msg : BookMsg} {r : BookResult} {l i j : ℕ} {n p : ℤ}

theorem l2_initialized (s : L2 cfg) (lk : DownstreamOrderMsg) :
    (s.processMsg lk).2.initialized = s.initialized := by
  have hadd : ∀ (s : L2 cfg) b q, (s.addLevel b q).initialized = s.initialized := fun s b q => by
    cases b <;> rfl
  have hremove : ∀ (s : L2 cfg) b q, (s.removeLevel b q).initialized = s.initialized :=
    fun s b q => by cases b <;> rfl
  have hinc : ∀ b sh q, (s.increase b sh q).2.initialized = s.initialized := fun b sh q => by
    unfold L2.increase
    split
    · rfl
    · dsimp only
      split
      · rfl
      · split
        · rfl
        · exact hadd _ _ _
  have hdec : ∀ b sh q, (s.decrease b sh q).2.initialized = s.initialized := fun b sh q => by
    unfold L2.decrease
    split
    · rfl
    · rfl
    · split
      · rfl
      · dsimp only
        split
        · rfl
        · split_ifs
          · exact hremove _ _ _
          · rfl
          · rfl
  unfold L2.processMsg
  split_ifs
  · rfl
  · rfl
  · rfl
  · rfl
  · rfl
  · cases lk.msgType
    · exact hinc _ _ _
    · exact hinc _ _ _
    · exact hdec _ _ _
    · exact hdec _ _ _
  · rfl

/-- An answered call went through L3 and L2. -/
theorem answered (h : b.processMsg msg = (.ret r, b')) :
    ∃ lk, b.l3.processMsg msg = (.ret lk, b'.l3) ∧ ¬ RefusedByL2 b.l2 lk ∧
      b'.l2.initialized = b.l2.initialized := by
  unfold Book.processMsg at h
  rcases h3 : b.l3.processMsg msg with ⟨lk | c | e, l3⟩ <;> rw [h3] at h
  · dsimp only at h
    unfold Book.downstream at h
    have hinit := l2_initialized b.l2 lk
    rcases l2_cases b.l2 lk with ⟨-, c, h2⟩ | ⟨hr, -⟩
    · simp only [h2] at h
      cases h
    · rcases h2 : b.l2.processMsg lk with ⟨u | c | e, l2⟩
      · rcases h1 : b.bbo.processMsg cfg lk with ⟨res | c | e, bbo⟩
        · simp only [h2, h1, Book.refill] at h
          rw [h2] at hinit
          split_ifs at h
          · split at h
            · cases h
            · split at h
              · cases h
              · cases h
                exact ⟨lk, rfl, hr, hinit⟩
          · cases h
            exact ⟨lk, rfl, hr, hinit⟩
        · simp only [h2, h1] at h
          cases h
        · simp only [h2, h1] at h
          cases h
      · simp only [h2] at h
        cases h
      · simp only [h2] at h
        cases h
  · cases h
  · cases h

/-- The replacing order has a new id, and L2 does not refuse what L3 takes of it. -/
def ReplaceFits (b : Book cfg) (l j : ℕ) (n p : ℤ) : Prop :=
  j ∉ (orderMap b.l3).live ∧
    ∀ lk, TakenByL3 b.l3 (.replace l j n p) lk → ¬ RefusedByL2 b.l2 lk

theorem l3_replace_err {s : L3 cfg} {c : String}
    (h : s.processMsg (.replace l j n p) = (.err c, s)) : j ∈ (orderMap s).live := by
  by_contra hj
  have hcontains : s.memory.contains j = false := by
    rw [contains_eq]
    exact decide_eq_false hj
  cases hlast : s.lastDelIsBuy with
  | none =>
    simp only [L3.processMsg, hcontains, Bool.false_eq_true, if_false, hlast] at h
    cases h
  | some d =>
    rcases l3_processMsg s (.replace l j n p) with ⟨lk, s', hp, -⟩ | ⟨c', -, hs⟩ | ⟨e, hp, -⟩
    · rw [h] at hp
      cases hp
    · simp only [OrderMap.step, hj, if_false] at hs
      rw [show (orderMap s).lastDelIsBuy = some d from hlast] at hs
      cases hs
    · rw [h] at hp
      cases hp

/-- The second half of a replace returns an error exactly when it does not fit. -/
theorem replace_isErr_iff (hb : Sided b.bbo) :
    (b.processMsg (.replace l j n p)).1.IsErr ↔ ¬ ReplaceFits b l j n p := by
  constructor
  · rintro herr ⟨hj, hfit⟩
    rcases call_isErr hb herr with ⟨⟨c, hc⟩, -⟩ | ⟨lk, l3, h3, -, ⟨hr, -⟩ | ⟨ha, -⟩⟩
    · exact hj (l3_replace_err hc)
    · exact hfit lk (takenByL3_iff.2 ⟨l3, h3⟩) hr
    · obtain ⟨⟨om, hs⟩, -⟩ := takenByL3_iff.2 ⟨l3, h3⟩
      rw [(OrderMap.step_fields hs).1] at ha
      cases ha
  · intro hno
    by_cases hj : j ∈ (orderMap b.l3).live
    · have h3 : b.l3.processMsg (.replace l j n p) =
          (.err "Attempted to replace-add with existing order ID.", b.l3) := by
        rw [L3.processMsg, contains_eq]
        exact if_pos (decide_eq_true hj)
      simp only [Book.processMsg, h3, Outcome.isErr_err]
    · unfold ReplaceFits at hno
      rw [and_iff_right hj] at hno
      push Not at hno
      obtain ⟨lk, ht, hr⟩ := hno
      exact call_isErr_of_taken hb ht (Or.inl hr)

/-- The stores do not come back when the second half of a replace is refused: the deleted order is
gone, and no order with its price, which was on a tick, has taken its place. -/
theorem replace_trace (hb : Sided b'.bbo) (hd : b.processMsg (.delete l i) = (.ret r, b'))
    (herr : (b'.processMsg (.replace l j n p)).1.IsErr) :
    ¬ SameStores b (b'.processMsg (.replace l j n p)).2 := by
  intro hsame
  obtain ⟨lk, h3, hr, hinit⟩ := answered hd
  obtain ⟨⟨om, hs⟩, -⟩ := takenByL3_iff.2 ⟨_, h3⟩
  obtain ⟨hstep, -⟩ := step_of_ret h3
  obtain ⟨htype, e₁, he₁, hsh⟩ := OrderMap.step_fields hstep
  unfold RefusedByL2 at hr
  push Not at hr
  rcases OrderMap.step_cases hstep with ⟨ha, -⟩ | ⟨-, e, he, -, hprice, -, hlive⟩
  · rw [htype] at ha
    cases ha
  rw [BookMsg.orderId] at he hlive
  rw [he₁] at he
  cases he
  rw [leftover, if_pos hsh.symm] at hlive
  have hgone : (orderMap b'.l3).live.lookup i = none := by rw [hlive, Finmap.lookup_erase]
  have hold : ((b'.processMsg (.replace l j n p)).2.l3.memory.toDict).lookup i = some e₁ := by
    rw [hsame.l3]
    exact he₁
  rcases call_isErr hb herr with ⟨-, hst⟩ | ⟨lk', l3', h3', hl3, hr'⟩
  · rw [hst.l3, show b'.l3.memory.toDict.lookup i = none from hgone] at hold
    cases hold
  · obtain ⟨hstep', -⟩ := step_of_ret h3'
    have hadd : lk'.msgType.isAdd = true := by
      rw [(OrderMap.step_fields hstep').1]
      rfl
    rcases hr' with ⟨hr', -⟩ | ⟨ha, -⟩
    · rcases OrderMap.step_cases hstep' with ⟨-, -, hlive'⟩ | ⟨ha, -⟩
      · have hlook : (orderMap l3').live.lookup i = some e₁ := by
          rw [← hl3]
          exact hold
        rw [hlive', BookMsg.orderId] at hlook
        by_cases hij : i = j
        · rw [hij, Finmap.lookup_insert, Option.some.injEq] at hlook
          rcases hr' with hr' | hr'
          · rw [hinit] at hr'
            exact hr.1 hr'
          · rw [← hlook] at hprice
            have hsame_price : lk'.price = lk.price := hprice
            exact hr' (hsame_price ▸ hr.2)
        · rw [Finmap.lookup_insert_of_ne _ hij, hgone] at hlook
          cases hlook
      · rw [hadd] at ha
        cases ha
    · rw [hadd] at ha
      cases ha

/-- An order message whose refusal comes in time: each call does, and the second half of a replace
fits the book that the first half leaves. -/
def OrderMsg.RefusedInTime (b : Book cfg) : OrderMsg → Prop
  | .add l i c n p => Book.RefusedInTime b (.add l i c n p)
  | .reduce l i n => Book.RefusedInTime b (.reduce l i n)
  | .delete l i => Book.RefusedInTime b (.delete l i)
  | .replace l i j n p => Book.RefusedInTime b (.delete l i) ∧
      ∀ r b', b.processMsg (.delete l i) = (.ret r, b') → ReplaceFits b' l j n p

theorem process_single (b : Book cfg) (msg : BookMsg) :
    ((process b [msg]).1.IsErr ↔ (b.processMsg msg).1.IsErr) ∧
      (process b [msg]).2 = (b.processMsg msg).2 := by
  unfold process
  rcases b.processMsg msg with ⟨r | c | e, b'⟩ <;> simp [process]

/-- **Refused messages.** In every reachable book an order message that is answered with an error
leaves all stores as they were exactly when its refusal comes in time. -/
theorem refused_iff {ideal : Bool} (hb : Reachable cfg ideal b) (m : OrderMsg) :
    ((process b m.calls).1.IsErr → SameStores b (process b m.calls).2) ↔ m.RefusedInTime b := by
  have hsingle : ∀ msg, ((process b [msg]).1.IsErr → SameStores b (process b [msg]).2) ↔
      Book.RefusedInTime b msg := fun msg => by
    rw [(process_single b msg).1, (process_single b msg).2]
    exact call_keeps_iff hb.sided
  cases m with
  | add l i c n p => exact hsingle _
  | reduce l i n => exact hsingle _
  | delete l i => exact hsingle _
  | replace l i j n p =>
    rw [OrderMsg.RefusedInTime, ← call_keeps_iff hb.sided, OrderMsg.calls, process]
    rcases hd : b.processMsg (.delete l i) with ⟨r | c | e, b'⟩
    · have hb' : Sided b'.bbo := by
        have := (hb.processMsg (.delete l i)).sided
        rwa [hd] at this
      have hfit : (∀ r₁ b₁, ((.ret r, b') : Outcome BookResult × Book cfg) = (.ret r₁, b₁) →
          ReplaceFits b₁ l j n p) ↔ ReplaceFits b' l j n p :=
        ⟨fun h => h r b' rfl, fun h r₁ b₁ he => by cases he; exact h⟩
      dsimp only
      rw [(process_single b' _).1, (process_single b' _).2, hfit, replace_isErr_iff hb']
      constructor
      · intro h
        refine ⟨fun herr => absurd herr (Outcome.isErr_ret r), ?_⟩
        by_contra hno
        exact replace_trace hb' hd ((replace_isErr_iff hb').2 hno) (h hno)
      · exact fun h hno => absurd h.2 hno
    · dsimp only
      exact ⟨fun h => ⟨fun _ => h (Outcome.isErr_err c), fun r₁ b₁ he => by cases he⟩,
        fun h _ => h.1 (Outcome.isErr_err c)⟩
    · exact ⟨fun _ => ⟨fun h => absurd h (Outcome.isErr_raise e), fun r₁ b₁ he => by cases he⟩,
        fun _ h => absurd h (Outcome.isErr_raise e)⟩

/-- An ideal book, initialised, in which a bid and an offer rest. -/
def restingBook : Book {} :=
  match (Book.new {} true).initParams 10000 with
  | .ok b => ((b.processMsg (.add 7 1 true 10 10000)).2.processMsg (.add 7 2 false 5 10050)).2
  | .error _ => .new {} true

theorem reachable_restingBook : Reachable {} true restingBook := by
  obtain ⟨b, hb⟩ : ∃ b, (Book.new {} true).initParams 10000 = .ok b := ⟨_, rfl⟩
  rw [restingBook, hb]
  exact (((Reachable.new.initParams hb).processMsg _).processMsg _)

/-- The bid cannot be reduced by more shares than it has, and L3 refuses that in time. -/
theorem refused_iff_restingBook :
    (orderMap restingBook.l3).live.lookup 1 = some ⟨true, 10, 10000⟩ ∧
      (process restingBook (OrderMsg.reduce 7 1 20).calls).1.IsErr ∧
      SameStores restingBook (process restingBook (OrderMsg.reduce 7 1 20).calls).2 := by
  have hrefused : (OrderMsg.reduce 7 1 20).RefusedInTime restingBook := by
    intro lk ht
    obtain ⟨s', h3⟩ := takenByL3_iff.1 ht
    have herr : (restingBook.l3.processMsg (.reduce 7 1 20)).1 =
        .err "Unexpected negative shares after reducing." := by decide +kernel
    rw [h3] at herr
    cases herr
  have herr : (process restingBook (OrderMsg.reduce 7 1 20).calls).1.IsErr :=
    ⟨"(L3) Unexpected negative shares after reducing.", by decide +kernel⟩
  exact ⟨by decide +kernel, herr, (refused_iff reachable_restingBook _).2 hrefused herr⟩

/-- An order off the tick stays in L3 although its message is refused. -/
theorem offTick_add_leaves_trace :
    ∃ b : Book {}, Reachable {} true b ∧ (Book.new {} true).initParams 10000 = .ok b ∧
      (process b (OrderMsg.add 7 1 true 10 10001).calls).1 =
        .err "(L2 MSG) Invalid price not on tick increment." ∧
      ¬ SameStores b (process b (OrderMsg.add 7 1 true 10 10001).calls).2 := by
  refine ⟨_, .initParams .new rfl, rfl, rfl, fun h => ?_⟩
  have hmem : (∅ : OrderDict).insert 1 ⟨true, 10, 10001⟩ = ∅ := L3Store.ideal.inj h.l3
  have hlook := congrArg (Finmap.lookup 1) hmem
  rw [Finmap.lookup_insert, Finmap.lookup_empty] at hlook
  cases hlook

end Order

end ItchOrderBook.Book
