import ItchOrderBook.Book.Runs
import ItchOrderBook.Lib.Clocked
import Mathlib.Algebra.BigOperators.Group.List.Basic

/-!
# The life of an order at L3

The history of a list of book messages says which orders it leaves: an order comes in by an add,
or by a replace on the side of the order just deleted; accepted reductions are taken off its
initial shares, and it goes when nothing is left or when it is deleted. The L3 table stores
exactly the orders of the history (`stored_run`), and what it passes downstream adds up to the
shares that are left at each side and price (`emitted_run`).
-/

namespace ItchOrderBook.Book

open Ref

variable {cfg : Params}

/-- L3, one message at a time. -/
def l3Calls (cfg : Params) : Circuit (L3 cfg) BookMsg (Outcome DownstreamOrderMsg) where
  next s msg := (s.processMsg msg).2
  out s msg := (s.processMsg msg).1

/-- The orders L3 stores after some messages. -/
def storedOrders (s : L3 cfg) (msgs : List BookMsg) : Orders :=
  ((l3Calls cfg).run s msgs).memory.toDict

/-- Every replace directly follows a delete that L3 accepted. -/
def ReplacesFollow (s : L3 cfg) (msgs : List BookMsg) : Prop :=
  ∀ pre l j n p post, msgs = pre ++ .replace l j n p :: post →
    ∃ before l' i, pre = before ++ [.delete l' i] ∧
      ((l3Calls cfg).out ((l3Calls cfg).run s before) (.delete l' i)).IsRet

/-- Every call returns. -/
def Returns (s : L3 cfg) (msgs : List BookMsg) : Prop :=
  ∀ o ∈ (l3Calls cfg).trace s msgs, ∀ e, o ≠ .raise e

/-! ### Histories -/

/-- An order as it came in, and the reductions accepted since. -/
structure Opened where
  entry : L3Entry
  taken : List ℤ

/-- What is left of an order. -/
def Opened.rest (o : Opened) : L3Entry :=
  ⟨o.entry.isBuy, o.entry.shares - o.taken.sum, o.entry.price⟩

/-- The orders in the book, by id. -/
abbrev History := ℕ → Option Opened

namespace History

/-- An order comes in, unless its id is taken. -/
def enter (h : History) (i : ℕ) (e : L3Entry) : History :=
  if (h i).isSome then h else Function.update h i (some ⟨e, []⟩)

/-- A reduction of what is left, if there is as much. -/
def take (h : History) (i : ℕ) (n : ℤ) : History :=
  match h i with
  | none => h
  | some o =>
    if o.rest.shares < n then h
    else Function.update h i (if o.rest.shares = n then none else some ⟨o.entry, n :: o.taken⟩)

/-- An order goes. -/
def leave (h : History) (i : ℕ) : History := Function.update h i none

/-- What a list of messages leaves; a delete and the replace behind it are one event. -/
def after : History → List BookMsg → History
  | h, [] => h
  | h, .delete _ i :: .replace _ j n p :: msgs =>
    match h i with
    | none => after h msgs
    | some o => after ((h.leave i).enter j ⟨o.entry.isBuy, n, p⟩) msgs
  | h, .add _ i b n p :: msgs => after (h.enter i ⟨b, n, p⟩) msgs
  | h, .reduce _ i n :: msgs => after (h.take i n) msgs
  | h, .delete _ i :: msgs => after (h.leave i) msgs
  | h, .replace .. :: msgs => after h msgs

/-- The map `d` holds what is left of the orders. -/
def Left (h : History) (d : Orders) : Prop := ∀ k, d.lookup k = (h k).map Opened.rest

variable {h : History} {d : Orders} {i : ℕ}

theorem Left.empty : Left (fun _ => none) ∅ := fun _ => rfl

theorem Left.isSome_iff (hl : h.Left d) : (h i).isSome ↔ i ∈ d := by
  rw [← Finmap.lookup_isSome, hl i, Option.isSome_map]

theorem Left.insert (hl : h.Left d) (o : Opened) :
    Left (Function.update h i (some o)) (d.insert i o.rest) := by
  intro k
  by_cases hk : k = i
  · subst hk
    rw [Finmap.lookup_insert, Function.update_self, Option.map_some]
  · rw [Finmap.lookup_insert_of_ne _ hk, Function.update_of_ne hk, hl k]

theorem Left.leave (hl : h.Left d) : (h.leave i).Left (d.erase i) := by
  intro k
  by_cases hk : k = i
  · subst hk
    rw [Finmap.lookup_erase, History.leave, Function.update_self, Option.map_none]
  · rw [Finmap.lookup_erase_ne hk, History.leave, Function.update_of_ne hk, hl k]

theorem Left.enter_of_notMem (hl : h.Left d) (hi : i ∉ d) (e : L3Entry) :
    (h.enter i e).Left (d.insert i e) := by
  rw [History.enter, if_neg (hl.isSome_iff.not.2 hi)]
  have := hl.insert (i := i) ⟨e, []⟩
  rwa [show Opened.rest ⟨e, []⟩ = e by simp [Opened.rest]] at this

theorem Left.enter_of_mem (hl : h.Left d) (hi : i ∈ d) (e : L3Entry) : (h.enter i e).Left d := by
  rwa [History.enter, if_pos (hl.isSome_iff.2 hi)]

theorem Left.exists_of_lookup (hl : h.Left d) {e : L3Entry} (he : d.lookup i = some e) :
    ∃ o, h i = some o ∧ o.rest = e := by
  rw [hl i] at he
  exact Option.map_eq_some_iff.1 he

theorem Left.take (hl : h.Left d) {e : L3Entry} {n : ℤ} (he : d.lookup i = some e)
    (hn : ¬ e.shares < n) : (h.take i n).Left (leftover d i e n) := by
  obtain ⟨o, ho, rfl⟩ := hl.exists_of_lookup he
  simp only [History.take, ho, if_neg hn, leftover]
  split_ifs with hs
  · exact hl.leave
  · have := hl.insert (i := i) ⟨o.entry, n :: o.taken⟩
    convert this using 2
    simp only [Opened.rest, List.sum_cons]
    congr 1
    omega

theorem take_of_lt {n : ℤ} (hl : h.Left d) (hn : ∀ e, d.lookup i = some e → e.shares < n) :
    h.take i n = h := by
  unfold History.take
  cases ho : h i with
  | none => rfl
  | some o => exact if_pos (hn _ (by rw [hl i, ho]; rfl))

theorem leave_of_notMem (hl : h.Left d) (hi : d.lookup i = none) : h.leave i = h := by
  rw [hl i, Option.map_eq_none_iff] at hi
  rw [History.leave, ← hi]
  exact Function.update_eq_self i h

end History

/-! ### Runs of L3 -/

variable {s s' : L3 cfg} {msg : BookMsg} {msgs : List BookMsg}

theorem ReplacesFollow.tail (hr : ReplacesFollow s (msg :: msgs))
    (hhead : ∀ l j n p post, msgs ≠ .replace l j n p :: post) :
    ReplacesFollow ((l3Calls cfg).next s msg) msgs := by
  intro pre l j n p post hsplit
  obtain ⟨before, l', i, hpre, hret⟩ := hr (msg :: pre) l j n p post (by rw [hsplit]; rfl)
  cases before with
  | nil =>
    obtain ⟨-, hnil⟩ := List.cons.inj hpre
    rw [hnil] at hsplit
    exact absurd hsplit (hhead l j n p post)
  | cons m before =>
    obtain ⟨rfl, hpre'⟩ := List.cons.inj hpre
    exact ⟨before, l', i, hpre', hret⟩

theorem ReplacesFollow.head_ne (hr : ReplacesFollow s msgs) (l j : ℕ) (n p : ℤ) (post : List BookMsg) :
    msgs ≠ .replace l j n p :: post := by
  intro hsplit
  obtain ⟨before, l', i, hpre, -⟩ := hr [] l j n p post hsplit
  exact List.append_ne_nil_of_right_ne_nil before (List.cons_ne_nil _ _) hpre.symm

/-- Behind a message that is no delete there is no replace. -/
theorem ReplacesFollow.tail_of_ne (hr : ReplacesFollow s (msg :: msgs))
    (hdel : ∀ l i, msg ≠ .delete l i) : ReplacesFollow ((l3Calls cfg).next s msg) msgs := by
  refine hr.tail fun l j n p post hsplit => ?_
  obtain ⟨before, l', i, hpre, -⟩ := hr [msg] l j n p post (by rw [hsplit]; rfl)
  cases before with
  | nil => exact hdel l' i (List.cons.inj hpre).1
  | cons m before => simp at hpre

theorem ReplacesFollow.delete_isRet {l i l' j : ℕ} {n p : ℤ}
    (hr : ReplacesFollow s (.delete l i :: .replace l' j n p :: msgs)) :
    ((l3Calls cfg).out s (.delete l i)).IsRet := by
  obtain ⟨before, l₁, i₁, hpre, hret⟩ := hr [.delete l i] l' j n p msgs rfl
  cases before with
  | nil =>
    obtain ⟨hdel, -⟩ := List.cons.inj hpre
    rw [hdel]
    exact hret
  | cons m before => simp at hpre

theorem ReplacesFollow.tail_pair {l i l' j : ℕ} {n p : ℤ}
    (hr : ReplacesFollow s (.delete l i :: .replace l' j n p :: msgs)) :
    ReplacesFollow ((l3Calls cfg).run s [.delete l i, .replace l' j n p]) msgs := by
  intro pre l₂ j₂ n₂ p₂ post hsplit
  obtain ⟨before, l₁, i₁, hpre, hret⟩ :=
    hr (.delete l i :: .replace l' j n p :: pre) l₂ j₂ n₂ p₂ post (by rw [hsplit]; rfl)
  -- the delete in question is behind the first replace
  match before, hpre, hret with
  | [], hpre, _ => cases hpre
  | [_], hpre, _ => cases hpre
  | m₁ :: m₂ :: before, hpre, hret =>
    simp only [List.cons_append, List.cons.injEq] at hpre
    obtain ⟨rfl, rfl, hpre⟩ := hpre
    exact ⟨before, l₁, i₁, hpre, hret⟩

theorem Returns.head (h : Returns s (msg :: msgs)) (e : Exn) : (s.processMsg msg).1 ≠ .raise e :=
  h _ List.mem_cons_self e

theorem Returns.tail (h : Returns s (msg :: msgs)) : Returns ((l3Calls cfg).next s msg) msgs :=
  fun o ho => h o (List.mem_cons_of_mem _ ho)

/-- A call that returns is a step of the order map, or leaves no trace. -/
theorem call_cases (s : L3 cfg) (msg : BookMsg) (hret : ∀ e, (s.processMsg msg).1 ≠ .raise e) :
    (∃ lk s', s.processMsg msg = (.ret lk, s') ∧
      (orderMap s).step msg = some (lk, orderMap s')) ∨
    (∃ c, s.processMsg msg = (.err c, s) ∧ (orderMap s).step msg = none) := by
  rcases l3_processMsg s msg with ⟨lk, s', h, hs, -⟩ | h | ⟨e, h, -⟩
  · exact Or.inl ⟨lk, s', h, hs⟩
  · exact Or.inr h
  · exact absurd (by rw [h]) (hret e)

/-- An insertion that L3 answers enters the history. -/
theorem enter_of_step {h : History} {i : ℕ} {e : L3Entry} (lk : DownstreamOrderMsg)
    (hl : h.Left s.memory.toDict)
    (hstep : (orderMap s).step msg =
      if i ∈ (orderMap s).live then none
      else some (lk, { orderMap s with live := (orderMap s).live.insert i e }))
    (hret : ∀ e, (s.processMsg msg).1 ≠ .raise e) :
    (h.enter i e).Left ((l3Calls cfg).next s msg).memory.toDict := by
  change History.Left _ (s.processMsg msg).2.memory.toDict
  rcases call_cases s msg hret with ⟨lk', s', hp, hs⟩ | ⟨c, hp, hs⟩
  · rw [hstep] at hs
    split_ifs at hs with hi
    rw [hp, show s'.memory.toDict = _ from congrArg (fun x => x.2.live) (Option.some.inj hs).symm]
    exact hl.enter_of_notMem hi e
  · rw [hstep] at hs
    split_ifs at hs with hi
    rw [hp]
    exact hl.enter_of_mem hi e

theorem left_add {h : History} (hl : h.Left s.memory.toDict) {l i : ℕ} {b : Bool} {n p : ℤ}
    (hret : ∀ e, (s.processMsg (.add l i b n p)).1 ≠ .raise e) :
    (h.enter i ⟨b, n, p⟩).Left ((l3Calls cfg).next s (.add l i b n p)).memory.toDict :=
  enter_of_step ⟨.add, b, n, p⟩ hl rfl hret

theorem left_replace {h : History} (hl : h.Left s.memory.toDict) {l i : ℕ} {b : Bool} {n p : ℤ}
    (hside : s.lastDelIsBuy = some b)
    (hret : ∀ e, (s.processMsg (.replace l i n p)).1 ≠ .raise e) :
    (h.enter i ⟨b, n, p⟩).Left ((l3Calls cfg).next s (.replace l i n p)).memory.toDict := by
  refine enter_of_step ⟨.replace, b, n, p⟩ hl ?_ hret
  simp only [OrderMap.step, orderMap, hside, Option.map_some]

theorem left_reduce {h : History} (hl : h.Left s.memory.toDict) {l i : ℕ} {n : ℤ}
    (hret : ∀ e, (s.processMsg (.reduce l i n)).1 ≠ .raise e) :
    (h.take i n).Left ((l3Calls cfg).next s (.reduce l i n)).memory.toDict := by
  change History.Left _ (s.processMsg _).2.memory.toDict
  rcases call_cases s _ hret with ⟨lk, s', hp, hs⟩ | ⟨c, hp, hs⟩
  · simp only [OrderMap.step, orderMap] at hs
    split at hs
    · cases hs
    · rename_i e he
      split_ifs at hs with hlt
      rw [hp, show s'.memory.toDict = _ from congrArg (fun x => x.2.live) (Option.some.inj hs).symm]
      exact hl.take he hlt
  · rw [hp, History.take_of_lt hl]
    · exact hl
    · intro e he
      simp only [OrderMap.step, orderMap, he] at hs
      split_ifs at hs with hlt
      exact hlt

theorem left_delete {h : History} (hl : h.Left s.memory.toDict) {l i : ℕ}
    (hret : ∀ e, (s.processMsg (.delete l i)).1 ≠ .raise e) :
    (h.leave i).Left ((l3Calls cfg).next s (.delete l i)).memory.toDict := by
  change History.Left _ (s.processMsg _).2.memory.toDict
  rcases call_cases s _ hret with ⟨lk, s', hp, hs⟩ | ⟨c, hp, hs⟩
  · simp only [OrderMap.step, orderMap] at hs
    split at hs
    · cases hs
    · rw [hp, show s'.memory.toDict = _ from congrArg (fun x => x.2.live) (Option.some.inj hs).symm]
      exact hl.leave
  · simp only [OrderMap.step, orderMap] at hs
    split at hs
    · rename_i hnone
      rw [hp, History.leave_of_notMem hl hnone]
      exact hl
    · cases hs

/-- An accepted delete leaves the side of its order for the replace. -/
theorem side_of_delete {l i : ℕ} (hret : ((l3Calls cfg).out s (.delete l i)).IsRet) :
    ∃ e, s.memory.toDict.lookup i = some e ∧
      ((l3Calls cfg).next s (.delete l i)).lastDelIsBuy = some e.isBuy := by
  obtain ⟨lk, hlk⟩ := hret
  have hlk' : (s.processMsg (.delete l i)).1 = .ret lk := hlk
  rcases call_cases s (.delete l i) (fun e he => by rw [hlk'] at he; cases he) with
    ⟨lk, s', hp, hs⟩ | ⟨c, hp, hs⟩
  · simp only [OrderMap.step, orderMap] at hs
    split at hs
    · cases hs
    · rename_i e he
      refine ⟨e, he, ?_⟩
      change (s.processMsg _).2.lastDelIsBuy = _
      rw [hp, show s'.lastDelIsBuy = _ from
        congrArg (fun x => x.2.lastDelIsBuy) (Option.some.inj hs).symm]
  · rw [hp] at hlk'
    cases hlk'

/-- **L3 stores what the history leaves.** -/
theorem stored_run {h : History} (hl : h.Left s.memory.toDict) (hr : ReplacesFollow s msgs)
    (hret : Returns s msgs) : (h.after msgs).Left (storedOrders s msgs) := by
  induction h, msgs using History.after.induct generalizing s with
  | case1 h => exact hl
  | case2 h l i l' j n p msgs hnone ih =>
    -- the delete found its order, so the history has it too
    obtain ⟨e, he, -⟩ := side_of_delete hr.delete_isRet
    rw [hl i, hnone] at he
    cases he
  | case3 h l i l' j n p msgs o ho ih =>
    obtain ⟨e, he, hside⟩ := side_of_delete hr.delete_isRet
    rw [hl i, ho, Option.map_some, Option.some.injEq] at he
    subst he
    rw [History.after, ho]
    exact ih (left_replace (left_delete hl hret.head) hside hret.tail.head) hr.tail_pair
      hret.tail.tail
  | case4 h l i b n p msgs ih =>
    rw [History.after]
    exact ih (left_add hl hret.head) (hr.tail_of_ne fun _ _ hd => by cases hd) hret.tail
  | case5 h l i n msgs ih =>
    rw [History.after]
    exact ih (left_reduce hl hret.head) (hr.tail_of_ne fun _ _ hd => by cases hd) hret.tail
  | case6 h l i msgs hhead ih =>
    rw [History.after]
    · exact ih (left_delete hl hret.head) (hr.tail hhead) hret.tail
    · exact hhead
  | case7 h l j n p msgs ih => exact absurd rfl (hr.head_ne l j n p msgs)

/-! ### What goes downstream -/

/-- The signed shares an answer of L3 passes to a side and price. -/
def emitted (isBuy : Bool) (price : ℤ) : Outcome DownstreamOrderMsg → ℤ
  | .ret lk => changeAt lk isBuy price
  | _ => 0

/-- **What L3 emits is what its orders gain.** -/
theorem emitted_run (s : L3 cfg) (msgs : List BookMsg) (isBuy : Bool) (p : ℤ) :
    levelShares (storedOrders s msgs) isBuy p = levelShares s.memory.toDict isBuy p +
      (((l3Calls cfg).trace s msgs).map (emitted isBuy p)).sum := by
  induction msgs generalizing s with
  | nil => simp [storedOrders]
  | cons msg msgs ih =>
    have hstep : levelShares (s.processMsg msg).2.memory.toDict isBuy p =
        levelShares s.memory.toDict isBuy p + emitted isBuy p (s.processMsg msg).1 := by
      rcases l3_processMsg s msg with ⟨lk, s', hp, hs, -⟩ | ⟨c, hp, -⟩ | ⟨e, hp, -⟩
      · rw [hp]
        exact levelShares_step hs isBuy p
      · rw [hp]
        exact (add_zero _).symm
      · rw [hp]
        exact (add_zero _).symm
    rw [Circuit.trace_cons, List.map_cons, List.sum_cons, ← add_assoc]
    change _ = levelShares s.memory.toDict isBuy p + emitted isBuy p (s.processMsg msg).1 + _
    rw [← hstep]
    exact ih (s.processMsg msg).2

/-- An answer with an error leaves the stored orders unchanged. -/
theorem stored_of_isErr {pre : List BookMsg}
    (herr : ((l3Calls cfg).out ((l3Calls cfg).run s pre) msg).IsErr) :
    storedOrders s (pre ++ [msg]) = storedOrders s pre := by
  obtain ⟨c, hc⟩ := herr
  unfold storedOrders
  rw [Circuit.run_append]
  generalize (l3Calls cfg).run s pre = s₁ at hc ⊢
  change (s₁.processMsg msg).1 = _ at hc
  change (s₁.processMsg msg).2.memory.toDict = s₁.memory.toDict
  rcases l3_processMsg s₁ msg with ⟨lk, s', hp, -⟩ | ⟨c', hp, -⟩ | ⟨e, hp, -⟩
  · rw [hp] at hc
    cases hc
  · rw [hp]
  · rw [hp] at hc
    cases hc

/-- **The life of orders.** On every list of messages whose calls return, L3 stores the orders of
the history with what is left of them, an error leaves them as they were, and what goes downstream
adds up to the shares left at each side and price. -/
theorem lifecycle (ideal : Bool) (hr : ReplacesFollow (.new cfg ideal) msgs)
    (hret : Returns (.new cfg ideal) msgs) :
    (History.after (fun _ => none) msgs).Left (storedOrders (.new cfg ideal) msgs) ∧
    (∀ pre msg post, msgs = pre ++ msg :: post →
      ((l3Calls cfg).out ((l3Calls cfg).run (.new cfg ideal) pre) msg).IsErr →
      storedOrders (.new cfg ideal) (pre ++ [msg]) = storedOrders (.new cfg ideal) pre) ∧
    ∀ isBuy p, (((l3Calls cfg).trace (.new cfg ideal) msgs).map (emitted isBuy p)).sum =
      levelShares (storedOrders (.new cfg ideal) msgs) isBuy p := by
  have hnew : (L3.new cfg ideal).memory.toDict = ∅ := live_new cfg ideal
  refine ⟨stored_run (hnew ▸ History.Left.empty) hr hret, ?_, fun isBuy p => ?_⟩
  · intro pre msg post _ herr
    exact stored_of_isErr herr
  · rw [emitted_run, hnew, levelShares_empty, zero_add]

theorem replacesFollow_shortDay : ReplacesFollow (.new {} false) shortDay := by
  intro pre l j n p post h
  match pre, h with
  | [], h => cases h
  | [_], h => cases h
  | [_, _], h => cases h
  | [_, _, _], h => cases h
  | [_, _, _, _], h =>
    cases h
    exact ⟨[_, _, _], 7, 1, rfl, _, rfl⟩
  | _ :: _ :: _ :: _ :: _ :: pre, h => simp [shortDay] at h

theorem lifecycle_shortDay :
    (History.after (fun _ => none) shortDay).Left (storedOrders (.new {} false) shortDay) ∧
      (((l3Calls {}).trace (.new {} false) shortDay).map (emitted true 50)).sum =
        levelShares (storedOrders (.new {} false) shortDay) true 50 := by
  have hr := replacesFollow_shortDay
  have hret : Returns (.new {} false) shortDay := by
    have htrace : (l3Calls {}).trace (.new {} false) shortDay =
        [.ret ⟨.add, true, 10, 100⟩, .ret ⟨.add, false, 5, 150⟩, .ret ⟨.reduce, true, 4, 100⟩,
          .ret ⟨.delete, true, 6, 100⟩, .ret ⟨.replace, true, 8, 50⟩] := rfl
    rw [Returns, htrace]
    simp
  exact ⟨(lifecycle false hr hret).1, (lifecycle false hr hret).2.2 true 50⟩

end ItchOrderBook.Book
