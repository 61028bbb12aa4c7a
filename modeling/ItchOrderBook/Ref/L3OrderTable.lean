import ItchOrderBook.Ref.Structs
import Mathlib.Data.Finmap

/-!
# The reference L3 order table

`L3` and `L3Memory` of `l3_order_table.py`. The table is a plain dict in the ideal model;
otherwise it is an array of bounded hash lines with a bounded CAM behind it. `L3Memory` carries
what its methods maintain: a line holds only ids that hash to it, an id of the CAM is not also in
its line, and no line or CAM exceeds its size.

On a full line `__setitem__` first evaluates the log argument `f"... {key_hash:h}."`. Python
formats an integer only under the presentation types of `intFormatCodes`; any other code, `h`
among them, raises `ValueError`.
-/

namespace ItchOrderBook.Ref

/-- A dict from order ids to entries. -/
abbrev OrderDict := Finmap fun _ : ℕ => L3Entry

/-- The presentation types `format(int, spec)` accepts. -/
def intFormatCodes : List Char := ['b', 'c', 'd', 'o', 'x', 'X', 'n', 'e', 'E', 'f', 'F', 'g', 'G', '%']

/-- Evaluating `f"{n:code}"` on an integer: no effect, unless the code is unknown. -/
def formatInt (code : Char) : Except Exn Unit :=
  if code ∈ intFormatCodes then .ok ()
  else .error (.valueError s!"Unknown format code '{code}' for object of type 'int'")

/-- `L3Memory.oid_hash`. -/
def oidHash (cfg : Params) (orderId : ℕ) : ℕ :=
  let mask := (1 <<< cfg.l3LogAddrSize) - 1
  let lowerBits := orderId &&& mask
  lowerBits

/-- `f"0x{n:X}"`. -/
def hexText (n : ℕ) : String := "0x" ++ String.ofList ((Nat.toDigits 16 n).map Char.toUpper)

theorem oidHash_eq_mod (cfg : Params) (orderId : ℕ) :
    oidHash cfg orderId = orderId % 2 ^ cfg.l3LogAddrSize := by
  simp [oidHash, Nat.one_shiftLeft, Nat.and_two_pow_sub_one_eq_mod]

/-- The size-limited hash table with its CAM. -/
structure L3Memory (cfg : Params) where
  ram : ℕ → OrderDict
  cam : OrderDict
  home : ∀ i k, k ∈ ram i → oidHash cfg k = i
  apart : ∀ k, k ∈ cam → k ∉ ram (oidHash cfg k)
  line_le : ∀ i, (ram i).keys.card ≤ 1 <<< cfg.l3LogLineSize
  cam_le : cam.keys.card ≤ cfg.l3CamSize

namespace L3Memory

variable {cfg : Params}

/-- `L3Memory()`. -/
def empty : L3Memory cfg where
  ram _ := ∅
  cam := ∅
  home _ _ h := absurd h Finmap.notMem_empty
  apart _ h := absurd h Finmap.notMem_empty
  line_le _ := by simp
  cam_le := by simp

/-- `__contains__`. -/
def contains (m : L3Memory cfg) (item : ℕ) : Bool :=
  item ∈ m.ram (oidHash cfg item) ∨ item ∈ m.cam

/-- `__getitem__`. -/
def getItem (m : L3Memory cfg) (key : ℕ) : Except Exn L3Entry :=
  match (m.ram (oidHash cfg key)).lookup key with
  | some entry => .ok entry
  | none =>
    match m.cam.lookup key with
    | some entry => .ok entry
    | none => .error (.keyError s!"Key {hexText key} not in L3 memory.")

/-- The table with the line of `key` replaced by `line`. -/
def setLine (m : L3Memory cfg) (key : ℕ) (line : OrderDict)
    (hsub : ∀ k, k ∈ line → k = key ∨ k ∈ m.ram (oidHash cfg key)) (hcam : key ∈ line → key ∉ m.cam)
    (hsize : line.keys.card ≤ 1 <<< cfg.l3LogLineSize) : L3Memory cfg where
  ram i := if i = oidHash cfg key then line else m.ram i
  cam := m.cam
  home i k hk := by
    split_ifs at hk with hi
    · rcases hsub k hk with rfl | h
      · exact hi.symm
      · rw [hi]; exact m.home _ _ h
    · exact m.home i k hk
  apart k hk := by
    split_ifs with hi
    · intro hl
      rcases hsub k hl with rfl | h
      · exact hcam hl hk
      · exact m.apart k hk (hi ▸ h)
    · exact m.apart k hk
  line_le i := by
    split_ifs
    · exact hsize
    · exact m.line_le i
  cam_le := m.cam_le

/-- The table with its CAM replaced by `cam`. -/
def setCam (m : L3Memory cfg) (cam : OrderDict)
    (hsub : ∀ k, k ∈ cam → k ∉ m.ram (oidHash cfg k))
    (hsize : cam.keys.card ≤ cfg.l3CamSize) : L3Memory cfg where
  ram := m.ram
  cam := cam
  home := m.home
  apart := hsub
  line_le := m.line_le
  cam_le := hsize

theorem card_keys_insert_of_mem {d : OrderDict} {k : ℕ} (v : L3Entry) (h : k ∈ d) :
    (d.insert k v).keys.card = d.keys.card := by
  congr 1
  ext x
  simp only [Finmap.mem_keys, Finmap.mem_insert]
  exact ⟨fun hx => hx.elim (fun e => e ▸ h) id, Or.inr⟩

theorem card_keys_insert_le (d : OrderDict) (k : ℕ) (v : L3Entry) :
    (d.insert k v).keys.card ≤ d.keys.card + 1 := by
  refine le_trans (Finset.card_le_card fun x hx => ?_) (Finset.card_insert_le k d.keys)
  rw [Finmap.mem_keys, Finmap.mem_insert] at hx
  exact hx.elim (fun e => e ▸ Finset.mem_insert_self _ _)
    fun h => Finset.mem_insert_of_mem (Finmap.mem_keys.2 h)

theorem card_keys_erase_le (d : OrderDict) (k : ℕ) : (d.erase k).keys.card ≤ d.keys.card := by
  rw [Finmap.keys_erase]; exact Finset.card_erase_le

theorem apart_insert (m : L3Memory cfg) {key : ℕ} {value : L3Entry}
    (h : key ∉ m.ram (oidHash cfg key)) (k : ℕ) (hk : k ∈ m.cam.insert key value) :
    k ∉ m.ram (oidHash cfg k) := by
  rcases Finmap.mem_insert.1 hk with rfl | hk
  · exact h
  · exact m.apart k hk

/-- `__setitem__`. -/
def setItem (m : L3Memory cfg) (key : ℕ) (value : L3Entry) : Except Exn (L3Memory cfg) :=
  let keyHash := oidHash cfg key
  let line := m.ram keyHash
  if hline : key ∈ line then
    .ok (m.setLine key (line.insert key value) (fun k hk => Finmap.mem_insert.1 hk)
      (fun _ hc => m.apart key hc hline)
      (by rw [card_keys_insert_of_mem _ hline]; exact m.line_le _))
  else if hcam : key ∈ m.cam then
    .ok (m.setCam (m.cam.insert key value)
      (m.apart_insert hline)
      (by rw [card_keys_insert_of_mem _ hcam]; exact m.cam_le))
  else if hroom : line.keys.card < 1 <<< cfg.l3LogLineSize then
    .ok (m.setLine key (line.insert key value) (fun k hk => Finmap.mem_insert.1 hk)
      (fun _ => hcam) ((card_keys_insert_le _ _ _).trans hroom))
  else
    -- the debug log's arguments are evaluated before the spill to the CAM
    match formatInt 'h' with
    | .error e => .error e
    | .ok () =>
      if hsize : m.cam.keys.card < cfg.l3CamSize then
        .ok (m.setCam (m.cam.insert key value)
          (m.apart_insert hline)
          ((card_keys_insert_le _ _ _).trans hsize))
      else
        .error (.memoryError s!"L3 Hash Table out of memory slots for hash {hexText keyHash}")

/-- `__delitem__`. -/
def delItem (m : L3Memory cfg) (key : ℕ) : Except Exn (L3Memory cfg) :=
  let line := m.ram (oidHash cfg key)
  if key ∈ line then
    .ok (m.setLine key (line.erase key) (fun _ hk => Or.inr (Finmap.mem_erase.1 hk).2)
      (fun h => absurd h Finmap.notMem_erase_self)
      ((card_keys_erase_le _ _).trans (m.line_le _)))
  else if key ∈ m.cam then
    .ok (m.setCam (m.cam.erase key) (fun k hk => m.apart k (Finmap.mem_erase.1 hk).2)
      ((card_keys_erase_le _ _).trans m.cam_le))
  else .error (.keyError s!"L3 hash table does not contain key {hexText key} to delete.")

/-- `__len__`. -/
def len (m : L3Memory cfg) : ℕ :=
  ((List.range (1 <<< cfg.l3LogAddrSize)).map fun i => (m.ram i).keys.card).sum + m.cam.keys.card

/-- The keys `__iter__` collects for its iterator, up to the order in which a dict lists its own. -/
def combinedItems (m : L3Memory cfg) : Multiset ℕ :=
  ((List.range (1 <<< cfg.l3LogAddrSize)).map fun i => (m.ram i).keys.val).sum + m.cam.keys.val

/-- The mapping an `L3Memory` presents, `dict(memory)`. -/
def toDict (m : L3Memory cfg) : OrderDict :=
  (List.range (1 <<< cfg.l3LogAddrSize)).foldr (fun i d => m.ram i ∪ d) m.cam

end L3Memory

/-- `L3.memory`: a dict in the ideal model, an `L3Memory` otherwise. -/
inductive L3Store (cfg : Params)
  | ideal (d : OrderDict)
  | hw (m : L3Memory cfg)

namespace L3Store

variable {cfg : Params}

/-- `order_id in memory`. -/
def contains : L3Store cfg → ℕ → Bool
  | .ideal d, k => k ∈ d
  | .hw m, k => m.contains k

/-- `memory[order_id]`. -/
def getItem : L3Store cfg → ℕ → Except Exn L3Entry
  | .ideal d, k =>
    match d.lookup k with
    | some entry => .ok entry
    | none => .error (.keyError (toString k))
  | .hw m, k => m.getItem k

/-- `memory[order_id] = entry`. -/
def setItem : L3Store cfg → ℕ → L3Entry → Except Exn (L3Store cfg)
  | .ideal d, k, v => .ok (.ideal (d.insert k v))
  | .hw m, k, v => (m.setItem k v).map .hw

/-- `del memory[order_id]`. -/
def delItem : L3Store cfg → ℕ → Except Exn (L3Store cfg)
  | .ideal d, k =>
    if k ∈ d then .ok (.ideal (d.erase k)) else .error (.keyError (toString k))
  | .hw m, k => (m.delItem k).map .hw

/-- `dict(memory)`. -/
def toDict : L3Store cfg → OrderDict
  | .ideal d => d
  | .hw m => m.toDict

end L3Store

/-- The order table. -/
structure L3 (cfg : Params) where
  memory : L3Store cfg
  lastDelIsBuy : Option Bool

namespace L3

variable {cfg : Params}

/-- `L3(ideal)`. -/
def new (cfg : Params) (ideal : Bool) : L3 cfg where
  memory := if ideal then .ideal ∅ else .hw .empty
  lastDelIsBuy := none

/-- The end of every accepting branch: the store was updated, or the update raised. -/
def commit (s : L3 cfg) (lookupMsg : DownstreamOrderMsg) :
    Except Exn (L3Store cfg) → Outcome DownstreamOrderMsg × L3 cfg
  | .ok memory => (.ret lookupMsg, { s with memory })
  | .error e => (.raise e, s)

/-- The insertion of `ADD` and `REPLACE`, inside `try ... except MemoryError`. -/
def insert (s : L3 cfg) (orderId : ℕ) (entry : L3Entry) (msgType : BookMsgType) :
    Outcome DownstreamOrderMsg × L3 cfg :=
  match s.memory.setItem orderId entry with
  | .error (.memoryError text) => (.err text, s)
  | updated => s.commit ⟨msgType, entry.isBuy, entry.shares, entry.price⟩ updated

/-- `L3.process_msg`. -/
def processMsg (s : L3 cfg) : BookMsg → Outcome DownstreamOrderMsg × L3 cfg
  | .add _ orderId isBuy shares price =>
    if s.memory.contains orderId then
      (.err "Attempted to add with existing order ID.", s)
    else s.insert orderId ⟨isBuy, shares, price⟩ .add
  | .reduce _ orderId shares =>
    if !s.memory.contains orderId then
      (.err "Attempted to reduce shares of missing order ID.", s)
    else
      match s.memory.getItem orderId with
      | .error e => (.raise e, s)
      | .ok oldEntry =>
        let newShares := oldEntry.shares - shares
        let lookupMsg := ⟨.reduce, oldEntry.isBuy, shares, oldEntry.price⟩
        if newShares > 0 then
          s.commit lookupMsg (s.memory.setItem orderId ⟨oldEntry.isBuy, newShares, oldEntry.price⟩)
        else if newShares = 0 then s.commit lookupMsg (s.memory.delItem orderId)
        else (.err "Unexpected negative shares after reducing.", s)
  | .delete _ orderId =>
    if !s.memory.contains orderId then
      (.err "Attempted to delete missing order ID.", s)
    else
      match s.memory.getItem orderId with
      | .error e => (.raise e, s)
      | .ok oldEntry =>
        match s.memory.delItem orderId with
        | .error e => (.raise e, s)
        | .ok memory =>
          (.ret ⟨.delete, oldEntry.isBuy, oldEntry.shares, oldEntry.price⟩,
            { memory, lastDelIsBuy := some oldEntry.isBuy })
  | .replace _ orderId shares price =>
    if s.memory.contains orderId then
      (.err "Attempted to replace-add with existing order ID.", s)
    else
      match s.lastDelIsBuy with
      | none => (.raise (.assertion "last_del_is_buy is None."), s)
      | some isBuy => s.insert orderId ⟨isBuy, shares, price⟩ .replace

end L3

end ItchOrderBook.Ref
