import ItchOrderBook.Framing.Delivery
import ItchOrderBook.Lib.BigEndian
import ItchOrderBook.Rtl.MoldUdp64Parser

/-!
# Packets on the stream

A packet goes over the AXI stream as big-endian words: four bytes a beat with `tkeep` all ones, and
a last beat of one to four bytes, padded, with `tlast` and as many leading ones in `tkeep`
(`Carries`). Beats may be separated by idle cycles, which the parser does not see: it is `Paced`
with `moldCore`, the circuit on its registers without the output ones.
-/

namespace ItchOrderBook.Framing

open Ref Rtl

/-! ### Beats -/

/-- Four bytes as a word. -/
def word (p : List Byte) : BitVec 32 := bits 32 p

/-- `tkeep` of a beat with `n` bytes. -/
def keep (n : ℕ) : BitVec 4 := 0xF#4 <<< (4 - n)

/-- `data` is sent in the given beats. -/
inductive Carries : List Byte → List Axis → Prop
  | last {p pad : List Byte} (hp : p ≠ []) (hlen : p.length + pad.length = 4) :
    Carries p [⟨true, true, word (p ++ pad), keep p.length⟩]
  | more {p rest : List Byte} {beats : List Axis} (hlen : p.length = 4)
    (hrest : Carries rest beats) : Carries (p ++ rest) (⟨true, false, word p, 0xF⟩ :: beats)

/-- The beats of a packet, padded with zeros. -/
def beats : List Byte → List Axis
  | b0 :: b1 :: b2 :: b3 :: b4 :: rest =>
    ⟨true, false, word [b0, b1, b2, b3], 0xF⟩ :: beats (b4 :: rest)
  | p => [⟨true, true, word (p ++ List.replicate (4 - p.length) 0), keep p.length⟩]

theorem carries_beats {data : List Byte} (h : data ≠ []) : Carries data (beats data) := by
  fun_induction beats data with
  | case1 b0 b1 b2 b3 b4 rest ih =>
    exact Carries.more (p := [b0, b1, b2, b3]) rfl (ih (by simp))
  | case2 p hp =>
    refine Carries.last h ?_
    have : p.length ≤ 4 := by
      match p, hp with
      | [], _ | [_], _ | [_, _], _ | [_, _, _], _ | [_, _, _, _], _ => simp
      | b0 :: b1 :: b2 :: b3 :: b4 :: rest, hp => exact (hp b0 b1 b2 b3 b4 rest rfl).elim
    rw [List.length_replicate]
    omega

namespace Carries

variable {data p rest : List Byte} {bs : List Axis}

theorem ne_nil (h : Carries data bs) : data ≠ [] := by
  cases h with
  | last hp => exact hp
  | more hlen hrest =>
    intro h
    rw [(List.append_eq_nil_iff.1 h).1] at hlen
    cases hlen

theorem length_pos (h : Carries data bs) : 0 < data.length := List.length_pos_of_ne_nil h.ne_nil

theorem tvalid (h : Carries data bs) : ∀ axis ∈ bs, axis.tvalid = true := by
  induction h with
  | last => simp
  | more hlen hrest ih => simpa using ih

/-- The beats alone are a schedule of the packet. -/
theorem filter_tvalid (h : Carries data bs) : bs.filter (fun axis => axis.tvalid) = bs :=
  List.filter_eq_self.2 h.tvalid

/-- The first beat of more than four bytes. -/
theorem uncons (h : Carries (p ++ rest) bs) (hp : p.length = 4) (hrest : rest ≠ []) :
    ∃ bs', bs = ⟨true, false, word p, 0xF⟩ :: bs' ∧ Carries rest bs' := by
  generalize hd : p ++ rest = data at h
  cases h with
  | last hp' hlen =>
    have := List.length_pos_of_ne_nil hrest
    have := congrArg List.length hd
    rw [List.length_append] at this
    omega
  | more hlen h' =>
    obtain ⟨rfl, rfl⟩ := List.append_inj hd (by rw [hp, hlen])
    exact ⟨_, rfl, h'⟩

/-- The only beat of at most four bytes. -/
theorem single (h : Carries data bs) (hlen : data.length ≤ 4) :
    ∃ pad : List Byte, data.length + pad.length = 4 ∧
      bs = [⟨true, true, word (data ++ pad), keep data.length⟩] := by
  cases h with
  | last hp hlen' => exact ⟨_, hlen', rfl⟩
  | more hp hrest =>
    have := hrest.length_pos
    rw [List.length_append] at hlen
    omega

end Carries

/-! ### Idle cycles -/

/-- The registers without the output ones. -/
def core (q : MoldRegs) : MoldRegs := { q with ipDataV := false, ipData := 0, ipDataTlast := false }

/-- The parser on its beats only. -/
def moldCore : Circuit MoldRegs Axis MoldOut where
  next q axis := core (q.comb axis).d
  out q axis := (q.npError axis, ((q.comb axis).d).ipWord)

theorem comb_core (q : MoldRegs) (axis : Axis) : (core q).comb axis = q.comb axis := by
  obtain ⟨_, _, _, _, _, _, _, _, _, state⟩ := q
  cases state <;> rfl

/-- **Idle cycles are not seen.** -/
theorem moldudp64Parser_paced :
    Paced moldudp64Parser moldCore core (fun axis => axis.tvalid) (false, none) fun _ => True where
  inv_next _ _ h := h
  next_busy s i _ hi := by
    change core (if i.tvalid then (s.comb i).d else s.hold i) = core ((core s).comb i).d
    rw [if_pos hi, comb_core]
  next_idle s i _ hi := by
    change core (if i.tvalid then (s.comb i).d else s.hold i) = core s
    rw [if_neg hi]
    rfl
  out_busy s i _ hi := by
    change (s.npError i, (if i.tvalid then (s.comb i).d else s.hold i).ipWord) =
      ((core s).npError i, ((core s).comb i).d.ipWord)
    rw [if_pos hi, comb_core, MoldRegs.npError, MoldRegs.npError, comb_core]
  out_idle s i _ hi := by
    change (s.npError i, (if i.tvalid then (s.comb i).d else s.hold i).ipWord) = (false, none)
    rw [if_neg hi, MoldRegs.npError, Bool.eq_false_iff.2 hi]
    rfl

end ItchOrderBook.Framing
