import Mathlib.Data.List.Infix
import Mathlib.Tactic.Cases

/-!
# Delivery in sequence

A sender cuts a stream into packets that carry the number of their first item. The receiver takes a
packet with the number that it expects next and drops any other, so whatever a network loses, repeats or
reorders, what is delivered is a prefix of the stream (`receiveAll_prefix`). If the packets are cut once,
and arrive in their order among others, the whole stream is delivered (`receiveAll_complete`).
-/

namespace ItchOrderBook

/-- A packet: the number of its first item, and its items. -/
structure Numbered (α : Type*) where
  seq : ℕ
  items : List α

namespace Numbered

variable {α : Type*} {p : Numbered α} {ps sent arrivals : List (Numbered α)} {stream : List α}
  {base n : ℕ}

/-- One arrival: what is delivered, and the number that is expected next. -/
def receive (n : ℕ) (p : Numbered α) : List α × ℕ :=
  if p.seq = n then (p.items, n + p.items.length) else ([], n)

/-- The arrivals one after another. -/
def receiveAll (n : ℕ) : List (Numbered α) → List α × ℕ
  | [] => ([], n)
  | p :: ps => ((receive n p).1 ++ (receiveAll (receive n p).2 ps).1, (receiveAll (receive n p).2 ps).2)

/-- The items are those of the stream from the number of the packet on; the first one has the number
`base`. -/
def PartOf (base : ℕ) (stream : List α) (p : Numbered α) : Prop :=
  ∃ before, p.seq = base + before.length ∧ before ++ p.items <+: stream

/-! ### Safety -/

/-- What is delivered at the number `n`, and the rest of the stream. -/
theorem PartOf.receive (h : PartOf base stream p) {done rest : List α} (hs : done ++ rest = stream)
    (hn : n = base + done.length) : ∃ new rest', rest = new ++ rest' ∧
      receive n p = (new, n + new.length) := by
  obtain ⟨before, hseq, after, hafter⟩ := h
  rw [Numbered.receive]
  split_ifs with hp
  · have hlen : before.length = done.length := by omega
    rw [← hs, List.append_assoc] at hafter
    obtain ⟨-, hrest⟩ := List.append_inj hafter hlen
    exact ⟨p.items, after, hrest.symm, rfl⟩
  · exact ⟨[], rest, rfl, rfl⟩

/-- **What is delivered is a prefix** of what is left of the stream. -/
theorem receiveAll_prefix (hps : ∀ p ∈ ps, PartOf base stream p) {done rest : List α}
    (hs : done ++ rest = stream) (hn : n = base + done.length) : ∃ new rest', rest = new ++ rest' ∧
      receiveAll n ps = (new, n + new.length) := by
  induction ps generalizing n done rest with
  | nil => exact ⟨[], rest, rfl, rfl⟩
  | cons p ps ih =>
    obtain ⟨hp, hps⟩ := List.forall_mem_cons.1 hps
    obtain ⟨new, rest', rfl, hreceive⟩ := hp.receive hs hn
    have hs' : (done ++ new) ++ rest' = stream := by rw [List.append_assoc, hs]
    have hn' : n + new.length = base + (done ++ new).length := by
      rw [List.length_append, hn, Nat.add_assoc]
    obtain ⟨new', rest'', rfl, hall⟩ := ih hps hs' hn'
    refine ⟨new ++ new', rest'', (List.append_assoc ..).symm, ?_⟩
    rw [receiveAll, hreceive, hall, List.length_append, Nat.add_assoc]

/-! ### Completeness -/

/-- The packets are cut one after another, from the number `n` on. -/
def InRow : ℕ → List (Numbered α) → Prop
  | _, [] => True
  | n, p :: ps => p.seq = n ∧ InRow (n + p.items.length) ps

/-- The items of the packets. -/
def itemsOf (ps : List (Numbered α)) : List α := ps.flatMap items

@[simp] theorem itemsOf_cons (p : Numbered α) (ps : List (Numbered α)) :
    itemsOf (p :: ps) = p.items ++ itemsOf ps := List.flatMap_cons

@[simp] theorem itemsOf_singleton (p : Numbered α) : itemsOf [p] = p.items := by
  rw [itemsOf_cons]
  exact List.append_nil _

@[simp] theorem itemsOf_append (ps qs : List (Numbered α)) :
    itemsOf (ps ++ qs) = itemsOf ps ++ itemsOf qs := List.flatMap_append

theorem inRow_append (h : InRow n (ps ++ sent)) : InRow (n + (itemsOf ps).length) sent := by
  induction ps generalizing n with
  | nil => exact h
  | cons p ps ih =>
    rw [itemsOf_cons, List.length_append, ← Nat.add_assoc]
    exact ih h.2

/-- The number of a packet in a row. -/
theorem InRow.seq_eq (h : InRow base (ps ++ p :: sent)) : p.seq = base + (itemsOf ps).length :=
  (inRow_append h).1

/-- Every packet of a row is a part of its items. -/
theorem InRow.partOf (h : InRow base sent) (hp : p ∈ sent) : PartOf base (itemsOf sent) p := by
  obtain ⟨before, after, rfl⟩ := List.append_of_mem hp
  refine ⟨itemsOf before, h.seq_eq, itemsOf after, ?_⟩
  rw [itemsOf_append, itemsOf_cons, List.append_assoc]

/-- A number between two packets of a row is at most that of a packet, or behind it. -/
theorem le_or_le {a b before after : List (Numbered α)} (h : a ++ b = before ++ p :: after) :
    (itemsOf a).length ≤ (itemsOf before).length ∨
      (itemsOf before).length + p.items.length ≤ (itemsOf a).length := by
  rcases List.append_eq_append_iff.1 h with ⟨c, rfl, -⟩ | ⟨c, rfl, hc⟩
  · left
    simp
  · cases c with
    | nil =>
      left
      simp
    | cons q c =>
      right
      obtain ⟨rfl, -⟩ := List.cons.inj hc
      simp

/-- The number stands between two packets of the row. -/
def Between (base : ℕ) (sent : List (Numbered α)) (n : ℕ) : Prop :=
  ∃ a b, a ++ b = sent ∧ n = base + (itemsOf a).length

/-- An arrival moves the number on to another place between two packets, and not back. A packet that is
not behind the number is behind it afterwards. -/
theorem Between.receive (h : Between base sent n) (hrow : InRow base sent) (hp : p ∈ sent) :
    Between base sent (receive n p).2 ∧ n ≤ (receive n p).2 ∧
      (p.seq ≤ n → p.seq + p.items.length ≤ (receive n p).2) := by
  obtain ⟨a, b, hab, rfl⟩ := h
  obtain ⟨before, after, rfl⟩ := List.append_of_mem hp
  have hseq := hrow.seq_eq
  rw [Numbered.receive]
  split_ifs with hn
  · refine ⟨⟨before ++ [p], after, by simp, ?_⟩, Nat.le_add_right _ _, fun _ => ?_⟩
    · rw [itemsOf_append, itemsOf_singleton, List.length_append]
      omega
    · exact (congrArg (· + p.items.length) hn).le
  · refine ⟨⟨a, b, hab, rfl⟩, Nat.le_refl _, fun hle => ?_⟩
    rcases le_or_le hab with h | h
    · exact absurd (by omega) hn
    · dsimp only
      omega

/-- The number is at least that behind the packets that have arrived in their order. -/
theorem Between.receiveAll (h : Between base sent n) (hrow : InRow base sent)
    (harrivals : ∀ p ∈ arrivals, p ∈ sent) {done left : List (Numbered α)} (hsent : done ++ left = sent)
    (hn : base + (itemsOf done).length ≤ n) (hleft : left.Sublist arrivals) :
    base + (itemsOf sent).length ≤ (receiveAll n arrivals).2 := by
  induction hleft generalizing n done with
  | slnil =>
    rw [List.append_nil] at hsent
    rwa [← hsent]
  | @cons left arrivals p hleft ih =>
    obtain ⟨hp, harrivals⟩ := List.forall_mem_cons.1 harrivals
    obtain ⟨hbetween, hle, -⟩ := h.receive hrow hp
    exact ih hbetween harrivals hsent (hn.trans hle)
  | @cons_cons left arrivals p hleft ih =>
    obtain ⟨hp, harrivals⟩ := List.forall_mem_cons.1 harrivals
    obtain ⟨hbetween, -, hbehind⟩ := h.receive hrow hp
    have hseq : p.seq = base + (itemsOf done).length := by
      rw [← hsent] at hrow
      exact hrow.seq_eq
    have hsent' : (done ++ [p]) ++ left = sent := by rw [List.append_assoc, ← hsent]; rfl
    have hbehind' := hbehind (hseq.trans_le hn)
    apply ih hbetween harrivals hsent'
    rw [itemsOf_append, itemsOf_singleton, List.length_append]
    omega

/-- **The whole stream is delivered** if its packets arrive in their order, among repeated and late ones. -/
theorem receiveAll_complete (hrow : InRow base sent) (harrivals : ∀ p ∈ arrivals, p ∈ sent)
    (hsent : sent.Sublist arrivals) :
    receiveAll base arrivals = (itemsOf sent, base + (itemsOf sent).length) := by
  have hstart : Between base sent base := ⟨[], sent, rfl, rfl⟩
  have hle := hstart.receiveAll hrow harrivals (List.nil_append sent) (Nat.le_refl _) hsent
  obtain ⟨new, rest, hnew, hall⟩ := receiveAll_prefix (fun p hp => hrow.partOf (harrivals p hp))
    (List.nil_append (itemsOf sent)) (Nat.add_zero base).symm
  rw [hall] at hle ⊢
  have hnil : rest = [] := by
    rw [hnew, List.length_append] at hle
    exact List.eq_nil_of_length_eq_zero (by omega)
  rw [hnew, hnil, List.append_nil]

end Numbered

end ItchOrderBook
