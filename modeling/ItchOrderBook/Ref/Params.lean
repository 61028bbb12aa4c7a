import Mathlib.Data.Int.Basic
import Mathlib.Data.Nat.Notation
import Mathlib.Algebra.Order.Ring.Int

/-!
# Configuration and call outcomes of the reference model

`Params` is the configuration record of `params.py`; the derived sizes are functions of its
independent fields, except the depth of the BBO, which every statement leaves free.

A call of the reference model returns a value, returns a result object whose `error_flag` is set,
or raises. The three are kept apart by `Outcome`; what a call did to the object it was made on
before it returned or raised is passed along as a second component, since Python keeps it.
-/

namespace ItchOrderBook.Ref

/-- The configuration record `config`. -/
structure Params where
  l3LogAddrSize : ℕ := 11
  l3LogLineSize : ℕ := 3
  l3LogCamSize : ℕ := 3
  l2LogMemSize : ℕ := 11
  bboLogDepth : ℕ := 1
  bboDepth : ℕ := 1 <<< bboLogDepth

/-- `L3_CAM_SIZE`. -/
def Params.l3CamSize (cfg : Params) : ℕ := 1 <<< cfg.l3LogCamSize

/-- `L2_MEM_SIZE`. -/
def Params.l2MemSize (cfg : Params) : ℕ := 1 <<< cfg.l2LogMemSize

/-- The exceptions the reference model can raise. -/
inductive Exn
  | assertion (msg : String)
  | keyError (msg : String)
  | indexError
  | typeError
  | valueError (msg : String)
  | memoryError (msg : String)
  | unboundLocal (name : String)
  deriving DecidableEq, Repr

/-- The exception is a `KeyError`. -/
def Exn.IsKeyError (e : Exn) : Prop := ∃ text, e = .keyError text

/-- How a call ends: with a value, with a result whose `error_flag` is set, or by raising. -/
inductive Outcome (α : Type)
  | ret (a : α)
  | err (code : String)
  | raise (e : Exn)
  deriving DecidableEq, Repr

namespace Outcome

variable {α : Type}

/-- The call returned a result without `error_flag`. -/
def IsRet (o : Outcome α) : Prop := ∃ a, o = .ret a

instance (o : Outcome α) : Decidable o.IsRet :=
  match o with
  | .ret a => isTrue ⟨a, rfl⟩
  | .err _ => isFalse fun ⟨_, h⟩ => nomatch h
  | .raise _ => isFalse fun ⟨_, h⟩ => nomatch h

/-- The call returned a result with `error_flag`. -/
def IsErr (o : Outcome α) : Prop := ∃ c, o = .err c

@[simp] theorem isErr_ret (a : α) : ¬ (Outcome.ret a).IsErr := by rintro ⟨c, h⟩; cases h
@[simp] theorem isErr_err (c : String) : (Outcome.err c : Outcome α).IsErr := ⟨c, rfl⟩
@[simp] theorem isErr_raise (e : Exn) : ¬ (Outcome.raise e : Outcome α).IsErr := by
  rintro ⟨c, h⟩; cases h

@[simp] theorem isRet_ret (a : α) : (Outcome.ret a).IsRet := ⟨a, rfl⟩
@[simp] theorem isRet_err (c : String) : ¬ (Outcome.err c : Outcome α).IsRet := by
  rintro ⟨a, h⟩; cases h
@[simp] theorem isRet_raise (e : Exn) : ¬ (Outcome.raise e : Outcome α).IsRet := by
  rintro ⟨a, h⟩; cases h

end Outcome

end ItchOrderBook.Ref
