import ItchOrderBook.Lib.Clocked
import Mathlib.Data.Finmap
import Mathlib.Algebra.Order.Ring.Int

/-!
# Mappings and the dicts they present

A mutable mapping answers requests; one that it cannot meet raises an exception and has no effect.
`DictStep` says what a plain dict answers and becomes. Two things are left to the mapping: which
exceptions mean a missing key, and whether it may refuse to take a new key (`bounded`). A mapping
refines the dict if every request takes related states to related states with an answer of the dict
(`run_refines`).
-/

namespace ItchOrderBook

variable {σ κ ν ε α : Type*}

/-- The requests to a mapping. -/
inductive MapOp (κ ν : Type*)
  | set (k : κ) (v : ν)
  | get (k : κ)
  | del (k : κ)
  | contains (k : κ)
  | len
  | iter

/-- The answers of a mapping. -/
inductive MapAnswer (κ ν ε : Type*)
  | done
  | value (v : ν)
  | found (b : Bool)
  | count (n : ℕ)
  | keys (ks : Multiset κ)
  | raised (e : ε)

/-- The methods of a mapping. -/
structure Mapping (σ κ ν ε : Type*) where
  set : σ → κ → ν → Except ε σ
  get : σ → κ → Except ε ν
  del : σ → κ → Except ε σ
  contains : σ → κ → Except ε Bool
  len : σ → ℕ
  iter : σ → Except ε (Multiset κ)

namespace Mapping

/-- The answer that reports how a method ended. -/
def report (f : α → MapAnswer κ ν ε) : Except ε α → MapAnswer κ ν ε
  | .ok a => f a
  | .error e => .raised e

/-- The mapping after a method that changes it; an exception leaves it as it was. -/
def commit (s : σ) : Except ε σ → σ
  | .ok s' => s'
  | .error _ => s

/-- A mapping takes its requests one after another. -/
def service (M : Mapping σ κ ν ε) : Circuit σ (MapOp κ ν) (MapAnswer κ ν ε) where
  next s
    | .set k v => commit s (M.set s k v)
    | .del k => commit s (M.del s k)
    | .get _ | .contains _ | .len | .iter => s
  out s
    | .set k v => report (fun _ => .done) (M.set s k v)
    | .get k => report .value (M.get s k)
    | .del k => report (fun _ => .done) (M.del s k)
    | .contains k => report .found (M.contains s k)
    | .len => .count (M.len s)
    | .iter => report .keys (M.iter s)

end Mapping

section Dict

variable [DecidableEq κ] (missing : ε → Prop) (bounded : Prop)

/-- One request to a plain dict: its answer, and the dict after it. -/
inductive DictStep (d : Finmap fun _ : κ => ν) :
    MapOp κ ν → MapAnswer κ ν ε → (Finmap fun _ : κ => ν) → Prop
  | set (k : κ) (v : ν) : DictStep d (.set k v) .done (d.insert k v)
  | refused {k : κ} (v : ν) (e : ε) (hb : bounded) (hk : k ∉ d) : DictStep d (.set k v) (.raised e) d
  | get {k : κ} {v : ν} (hk : d.lookup k = some v) : DictStep d (.get k) (.value v) d
  | getMissing {k : κ} {e : ε} (he : missing e) (hk : k ∉ d) : DictStep d (.get k) (.raised e) d
  | del {k : κ} (hk : k ∈ d) : DictStep d (.del k) .done (d.erase k)
  | delMissing {k : κ} {e : ε} (he : missing e) (hk : k ∉ d) : DictStep d (.del k) (.raised e) d
  | contains (k : κ) : DictStep d (.contains k) (.found (decide (k ∈ d))) d
  | len : DictStep d .len (.count d.keys.card) d
  | iter : DictStep d .iter (.keys d.keys.val) d

/-- Requests to a plain dict, one after another. -/
inductive DictRun : (Finmap fun _ : κ => ν) → List (MapOp κ ν) → List (MapAnswer κ ν ε) →
    (Finmap fun _ : κ => ν) → Prop
  | nil (d : Finmap fun _ : κ => ν) : DictRun d [] [] d
  | cons {d d' d'' : Finmap fun _ : κ => ν} {op : MapOp κ ν} {a : MapAnswer κ ν ε}
      {ops : List (MapOp κ ν)} {as : List (MapAnswer κ ν ε)}
      (hstep : DictStep missing bounded d op a d') (hrest : DictRun d' ops as d'') :
      DictRun d (op :: ops) (a :: as) d''

/-- The requests meet a precondition, each on the dict that those before it leave. -/
def Admits (pre : (Finmap fun _ : κ => ν) → MapOp κ ν → Prop) :
    (Finmap fun _ : κ => ν) → List (MapOp κ ν) → Prop
  | _, [] => True
  | d, op :: ops => pre d op ∧
    ∀ a d', DictStep missing bounded d op a d' → Admits pre d' ops

variable {missing bounded} {M : Mapping σ κ ν ε} {pre : (Finmap fun _ : κ => ν) → MapOp κ ν → Prop}

/-- **Refinement of a run.** What one request preserves, a sequence of requests preserves. -/
theorem run_refines (R : σ → (Finmap fun _ : κ => ν) → Prop)
    (hstep : ∀ s d op, R s d → pre d op →
      ∃ d', DictStep missing bounded d op (M.service.out s op) d' ∧ R (M.service.next s op) d')
    {s : σ} {d : Finmap fun _ : κ => ν} {ops : List (MapOp κ ν)} (hs : R s d)
    (hops : Admits missing bounded pre d ops) :
    ∃ d', DictRun missing bounded d ops (M.service.trace s ops) d' ∧
      R (M.service.run s ops) d' := by
  induction ops generalizing s d with
  | nil => exact ⟨d, .nil d, hs⟩
  | cons op ops ih =>
    obtain ⟨hop, hrest⟩ := hops
    obtain ⟨d₁, h₁, hs₁⟩ := hstep s d op hs hop
    obtain ⟨d₂, h₂, hs₂⟩ := ih hs₁ (hrest _ d₁ h₁)
    exact ⟨d₂, .cons h₁ h₂, hs₂⟩

/-- Requests without a precondition. -/
theorem admits_of_forall (hpre : ∀ d op, pre d op) (d : Finmap fun _ : κ => ν)
    (ops : List (MapOp κ ν)) : Admits missing bounded pre d ops := by
  induction ops generalizing d with
  | nil => exact trivial
  | cons op ops ih => exact ⟨hpre d op, fun _ d' _ => ih d'⟩

end Dict

end ItchOrderBook
