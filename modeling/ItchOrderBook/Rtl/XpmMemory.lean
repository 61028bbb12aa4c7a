import Mathlib.Data.Nat.Notation
import Mathlib.Logic.Function.Basic
import Mathlib.Algebra.Order.Ring.Int

/-!
# Block memories

The memory primitives under `include/`: the simulation models of the simple and of the true dual
port memory. Both read the word as it was before a write of the same cycle.
-/

namespace ItchOrderBook.Rtl

/-- The contents of a memory with addresses of `a` bits and words of `w` bits. -/
abbrev Mem (a w : ℕ) := BitVec a → BitVec w

/-- A write that is enabled by `we`. -/
def Mem.write {a w : ℕ} (m : Mem a w) (we : Bool) (addr : BitVec a) (din : BitVec w) : Mem a w :=
  if we then Function.update m addr din else m

/-- `xpm_memory_sdpram`. -/
structure Sdpram (a w : ℕ) where
  mem : Mem a w
  doutb : BitVec w

namespace Sdpram

variable {a w : ℕ}

/-- The registers after the clock edge. -/
def next (s : Sdpram a w) (wea : Bool) (addra : BitVec a) (dina : BitVec w) (addrb : BitVec a) :
    Sdpram a w :=
  ⟨s.mem.write wea addra dina, s.mem addrb⟩

end Sdpram

/-- `xpm_memory_tdpram`. -/
structure Tdpram (a w : ℕ) where
  mem : Mem a w
  douta : BitVec w
  doutb : BitVec w

namespace Tdpram

variable {a w : ℕ}

/-- The registers after the clock edge. -/
def next (s : Tdpram a w) (wea : Bool) (addra : BitVec a) (dina : BitVec w) (web : Bool)
    (addrb : BitVec a) (dinb : BitVec w) : Tdpram a w :=
  ⟨(s.mem.write wea addra dina).write web addrb dinb, s.mem addra, s.mem addrb⟩

end Tdpram

@[simp] theorem Mem.write_false {a w : ℕ} (m : Mem a w) (addr : BitVec a) (din : BitVec w) :
    m.write false addr din = m := rfl

theorem Mem.write_true {a w : ℕ} (m : Mem a w) (addr : BitVec a) (din : BitVec w) :
    m.write true addr din = Function.update m addr din := rfl

end ItchOrderBook.Rtl
