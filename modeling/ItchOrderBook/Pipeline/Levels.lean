import ItchOrderBook.Book.PriceStore
import ItchOrderBook.Pipeline.HalfCases
import ItchOrderBook.Tables.Readiness

/-!
# The RTL price table holds the covered levels

At rest the two share memories and the existence bits hold the shares `f p` at the prices `p` of the
window, by the address bits of the price and by its place in the window (`Table`). A message takes three
cycles: its level is read in the first, written to the memories in the second, and to the existence bits
in the third. If no other message comes meanwhile, the table then holds the shares after the message
(`Settles`, `Table.message`); with the shares of the live orders it follows these (`Table.step`).
-/

namespace ItchOrderBook.Pipeline

open Book (OrderMap Orders Placed change covered levelShares sharesAt windowMax)
open Ref (BookMsg DownstreamOrderMsg Params)
open Rtl (DecBook L2In L2RamIn L2RamRegs L2Regs Mem priceAddr)
open Tables (LutHolds)

/-- The price of a place in the window. -/
def levelPrice (base k : ℕ) : BitVec 32 := BitVec.ofNat 32 (base + 50 * k)

theorem toNat_levelPrice {base : ℕ} (hfits : base + 50 * 2047 < 2 ^ 32) {k : ℕ} (hk : k < 2048) :
    (levelPrice base k).toNat = base + 50 * k := by
  rw [levelPrice, BitVec.toNat_ofNat, Nat.mod_eq_of_lt (by omega)]

/-- The places of the window are its prices on a tick. -/
theorem exists_level {base : ℕ} (hbase : base % 50 = 0) (hfits : base + 50 * 2047 < 2 ^ 32)
    {p : BitVec 32} (htick : p.toNat % 50 = 0) (hlo : base ≤ p.toNat) (hhi : p.toNat ≤ base + 50 * 2047) :
    ∃ k < 2048, p = levelPrice base k := by
  refine ⟨(p.toNat - base) / 50, by omega, ?_⟩
  apply BitVec.eq_of_toNat_eq
  rw [toNat_levelPrice hfits (by omega)]
  omega

/-- A price is not in the window. -/
def Past (base : ℕ) (p : BitVec 32) : Prop := p.toNat < base ∨ base + 50 * 2047 < p.toNat

/-- The words hold the shares at the prices of the window. -/
def HoldsShares (base : ℕ) (f : ℤ → ℤ) (word : ℕ → BitVec 64) : Prop :=
  ∀ k < 2048, ((word k).toNat : ℤ) = f (base + 50 * k)

/-- The bits tell at which prices of the window there are shares. -/
def HoldsExist (base : ℕ) (f : ℤ → ℤ) (exist : BitVec 11 → Bool) : Prop :=
  ∀ k < 2048, exist (BitVec.ofNat 11 k) = decide (0 < f (base + 50 * k))

/-- The word of a place in the memory by price addresses. -/
def paWord (base : ℕ) (r : L2Regs) (k : ℕ) : BitVec 64 := r.paRam.ram.mem (priceAddr (levelPrice base k))

/-- The word of a place in the memory by orderings. -/
def odWord (r : L2Regs) (k : ℕ) : BitVec 64 := r.odRam.ram.mem (BitVec.ofNat 11 k)

/-- The reset sweep of a memory is over. -/
def Swept (r : L2RamRegs) : Prop := r.rstInProgress = false ∧ r.count = 0

/-- The table is initialised at a price base, with its lookup tables filled. -/
structure Config (base : ℕ) (r : L2Regs) : Prop where
  tick : base % 50 = 0
  fits : base + 50 * 2047 < 2 ^ 32
  initialized : r.initialized = true
  priceBase : r.priceBase.toNat = base
  priceMax : r.priceMax.toNat = base + 50 * 2047
  lut : LutHolds base r.lut
  initDone : r.lut.initDone = true
  paSwept : Swept r.paRam
  odSwept : Swept r.odRam

/-- The table holds the shares, and no message is under way. -/
structure Table (base : ℕ) (f : ℤ → ℤ) (r : L2Regs) : Prop extends Config base r where
  decBook : r.decBook.valid = false
  existWen : r.existWen = false
  pa : HoldsShares base f (paWord base r)
  od : HoldsShares base f (odWord r)
  exist : HoldsExist base f r.existArr

section Step

variable {base : ℕ} {r : L2Regs} {i : L2In}

theorem swept_next {q : L2RamRegs} (h : Swept q) (j : L2RamIn) : Swept (q.next j) := by
  obtain ⟨hp, hc⟩ := h
  constructor
  · simp [L2RamRegs.next, hc]
  · simp [L2RamRegs.next, hc]

/-- A swept memory is an ordinary one. -/
theorem ram_next {q : L2RamRegs} (h : Swept q) (j : L2RamIn) :
    (q.next j).ram = ⟨q.ram.mem.write j.wea j.addra j.dina, q.ram.mem j.addrb⟩ := by
  simp [L2RamRegs.next, h.1, Rtl.Sdpram.next]

theorem Config.wea (hc : Config base r) : r.lut.wea = false := by
  rw [Rtl.LutRegs.wea, hc.initDone, Bool.not_true, Bool.and_false]

/-- The lookup tables are read only. -/
theorem Config.lut_next (hc : Config base r) (i : L2In) :
    (r.next i).lut.priceAddrToOrdering =
        ⟨r.lut.priceAddrToOrdering.mem, r.lut.priceAddrToOrdering.mem (r.lutIn i).priceAddr1,
          r.lut.priceAddrToOrdering.mem i.offUpdtPriceAddr⟩ ∧
      (r.next i).lut.orderingToPrice =
        ⟨r.lut.orderingToPrice.mem, r.lut.orderingToPrice.mem r.lookupOrdering⟩ := by
  have hw := hc.wea
  constructor
  · have hnext : (r.next i).lut.priceAddrToOrdering = r.lut.priceAddrToOrdering.next r.lut.wea
      (if r.lut.wea then r.lut.price.extractLsb' 1 11 else (r.lutIn i).priceAddr1) r.lut.count false
      i.offUpdtPriceAddr 0 := rfl
    rw [hnext, hw]
    rfl
  · have hnext : (r.next i).lut.orderingToPrice =
      r.lut.orderingToPrice.next r.lut.wea r.lut.count r.lut.price r.lookupOrdering := rfl
    rw [hnext, hw]
    rfl

theorem Config.next (hc : Config base r) (hi : i.initV = false) : Config base (r.next i) where
  tick := hc.tick
  fits := hc.fits
  initialized := by simp [L2Regs.next, hi, hc.initialized]
  priceBase := by simp [L2Regs.next, hi, hc.priceBase]
  priceMax := by simp [L2Regs.next, hi, hc.priceMax]
  lut := by
    obtain ⟨h1, h2⟩ := hc.lut_next i
    intro k hk
    rw [h1, h2]
    exact hc.lut k hk
  initDone := by simp [L2Regs.next, Rtl.LutRegs.next, hc.initDone]
  paSwept := swept_next hc.paSwept _
  odSwept := swept_next hc.odSwept _

/-- The memories after the clock edge. -/
theorem Config.rams_next (hc : Config base r) (i : L2In) :
    (r.next i).paRam.ram = ⟨r.paRam.ram.mem.write r.decBook.valid (priceAddr r.decBook.price)
        r.orderNewShares, r.paRam.ram.mem (priceAddr i.decBook.price)⟩ ∧
      (r.next i).odRam.ram = ⟨r.odRam.ram.mem.write r.decBook.valid r.lut.priceAddrToOrdering.douta
        r.orderNewShares, r.odRam.ram.mem r.lookupOrdering⟩ :=
  ⟨ram_next hc.paSwept _, ram_next hc.odSwept _⟩

theorem existArr_next (h : r.existWen = false) (i : L2In) : (r.next i).existArr = r.existArr := by
  have hnext : (r.next i).existArr = r.existArrNext := rfl
  rw [hnext, L2Regs.existArrNext, h]
  rfl

/-- Where no message is under way, the table keeps what it holds. -/
theorem Table.next {f : ℤ → ℤ} (ht : Table base f r) (hi : i.initV = false)
    (hv : (r.next i).decBook.valid = false) : Table base f (r.next i) where
  toConfig := ht.toConfig.next hi
  decBook := hv
  existWen := ht.decBook
  pa := by
    have hram := (ht.rams_next i).1
    rw [ht.decBook] at hram
    intro k hk
    rw [paWord, hram]
    exact ht.pa k hk
  od := by
    have hram := (ht.rams_next i).2
    rw [ht.decBook] at hram
    intro k hk
    rw [odWord, hram]
    exact ht.od k hk
  exist := by
    rw [existArr_next ht.existWen]
    exact ht.exist

theorem decBook_idle (r : L2Regs) (hv : i.decBook.valid = false) :
    (r.next i).decBook.valid = false := by
  have hnext : (r.next i).decBook = r.decBookNext i.decBook := rfl
  rw [hnext, L2Regs.decBookNext, hv]
  exact hv

/-- The table holds the shares after `n` more cycles without a message, and the memory by orderings does
one cycle before. -/
def Settles (base : ℕ) (f : ℤ → ℤ) : ℕ → L2Regs → Prop
  | 0, r => Table base f r
  | n + 1, r => Config base r ∧ (n = 0 → HoldsShares base f (odWord r)) ∧
      ∀ i : L2In, i.initV = false → i.decBook.valid = false → Settles base f n (r.next i)

theorem Settles.config {f : ℤ → ℤ} {n : ℕ} (h : Settles base f n r) : Config base r := by
  cases n with
  | zero => exact Table.toConfig h
  | succ n => exact h.1

theorem Settles.next {f : ℤ → ℤ} {n : ℕ} (h : Settles base f n r) (hi : i.initV = false)
    (hv : i.decBook.valid = false) : Settles base f (n - 1) (r.next i) := by
  cases n with
  | zero => exact Table.next h hi (decBook_idle r hv)
  | succ n => exact h.2.2 i hi hv

theorem Settles.od {f : ℤ → ℤ} {n : ℕ} (h : Settles base f n r) (hn : n ≤ 1) :
    HoldsShares base f (odWord r) := by
  cases n with
  | zero => exact Table.od h
  | succ n => exact h.2.1 (by omega)

theorem Table.settles {f : ℤ → ℤ} (ht : Table base f r) (n : ℕ) : Settles base f n r := by
  induction n generalizing r with
  | zero => exact ht
  | succ n ih => exact ⟨ht.toConfig, fun _ => ht.od, fun i hi hv => ih (ht.next hi (decBook_idle r hv))⟩

end Step

/-! ### One message -/

/-- A message changes the shares at one place of the window. -/
structure LevelChange (base k : ℕ) (f f' : ℤ → ℤ) (msg : DecBook) : Prop where
  place : k < 2048
  price : msg.price = levelPrice base k
  pos : 1 ≤ msg.shares.toNat
  here : f' (base + 50 * k) = f (base + 50 * k) +
    if msg.isAdd then (msg.shares.toNat : ℤ) else -msg.shares.toNat
  other : ∀ j < 2048, j ≠ k → f' (base + 50 * j) = f (base + 50 * j)
  nonneg : 0 ≤ f' (base + 50 * k)
  fits : f' (base + 50 * k) < 2 ^ 64

/-- The level of a message has been read. -/
structure Reading (base k : ℕ) (f : ℤ → ℤ) (msg : DecBook) (r : L2Regs) : Prop
    extends Config base r where
  decBook : r.decBook = msg
  existWen : r.existWen = false
  doutb : ((r.paRam.ram.doutb).toNat : ℤ) = f (base + 50 * k)
  douta : r.lut.priceAddrToOrdering.douta = BitVec.ofNat 11 k
  pa : HoldsShares base f (paWord base r)
  od : HoldsShares base f (odWord r)
  exist : HoldsExist base f r.existArr

/-- The level of a message has been written to the memories. -/
structure Writing (base k : ℕ) (f f' : ℤ → ℤ) (r : L2Regs) : Prop extends Config base r where
  decBook : r.decBook.valid = false
  existWen : r.existWen = true
  existWaddr : r.existWaddr = BitVec.ofNat 11 k
  existDin : r.existDin = decide (0 < f' (base + 50 * k))
  pa : HoldsShares base f' (paWord base r)
  od : HoldsShares base f' (odWord r)
  exist : HoldsExist base f r.existArr

section Message

variable {base k : ℕ} {f f' : ℤ → ℤ} {r : L2Regs} {i : L2In} {msg : DecBook}

/-- A write to one place of a memory. -/
theorem holdsShares_update {a : ℕ} {m : Mem a 64} {addr : ℕ → BitVec a} {x : BitVec 64}
    (hc : LevelChange base k f f' msg) (hinj : ∀ j < 2048, addr j = addr k → j = k)
    (hx : (x.toNat : ℤ) = f' (base + 50 * k)) (hm : HoldsShares base f fun j => m (addr j)) :
    HoldsShares base f' fun j => m.write true (addr k) x (addr j) := by
  intro j hj
  dsimp only
  rw [Mem.write_true]
  by_cases hjk : j = k
  · rw [hjk, Function.update_self, hx]
  · rw [Function.update_of_ne fun h => hjk (hinj j hj h), hc.other j hj hjk]
    exact hm j hj

theorem ofNat_inj {j : ℕ} (hj : j < 2048) (hk : k < 2048) (h : BitVec.ofNat 11 j = BitVec.ofNat 11 k) :
    j = k := by
  have := congrArg BitVec.toNat h
  simp only [BitVec.toNat_ofNat] at this
  omega

theorem Table.reading (ht : Table base f r) (hi : i.initV = false) (hv : i.decBook.valid = true)
    (hmsg : i.decBook = msg) (hc : LevelChange base k f f' msg) :
    Reading base k f msg (r.next i) := by
  subst hmsg
  have hin : (decide (i.decBook.price ≥ r.priceBase) && decide (i.decBook.price ≤ r.priceMax)) =
      true := by
    have hfits := ht.fits
    have hk := hc.place
    have hprice : i.decBook.price.toNat = base + 50 * k := by
      rw [hc.price, levelPrice, BitVec.toNat_ofNat, Nat.mod_eq_of_lt (by omega)]
    simp only [ge_iff_le, BitVec.le_def, ht.priceBase, ht.priceMax, hprice, Bool.and_eq_true,
      decide_eq_true_iff]
    omega
  have hdec : (r.next i).decBook = i.decBook := by
    have hnext : (r.next i).decBook = r.decBookNext i.decBook := rfl
    rw [hnext, L2Regs.decBookNext, if_pos hv, hin, ← hv]
  obtain ⟨hpa, hod⟩ := ht.rams_next i
  rw [ht.decBook] at hpa hod
  have hexist : (r.next i).existArr = r.existArr := existArr_next ht.existWen i
  refine ⟨ht.toConfig.next hi, hdec, ht.decBook, ?_, ?_, ?_, ?_, ?_⟩
  · rw [hpa, hc.price]
    exact ht.pa k hc.place
  · have haddr : (r.lutIn i).priceAddr1 = priceAddr i.decBook.price := if_pos hv
    rw [(ht.lut_next i).1]
    dsimp only
    rw [haddr, hc.price]
    exact (ht.lut k hc.place).1
  · intro j hj
    rw [paWord, hpa]
    exact ht.pa j hj
  · intro j hj
    rw [odWord, hod]
    exact ht.od j hj
  · rw [hexist]
    exact ht.exist

/-- The new shares of the level. -/
theorem Reading.newShares (hr : Reading base k f msg r) (hv : msg.valid = true)
    (hc : LevelChange base k f f' msg) :
    (r.orderNewShares.toNat : ℤ) = f' (base + 50 * k) := by
  have hdoutb := hr.doutb
  have hfits := hc.fits
  have hnonneg := hc.nonneg
  have hhere := hc.here
  rw [L2Regs.orderNewShares, hr.decBook, hv]
  cases ha : msg.isAdd with
  | true =>
    rw [ha, if_pos rfl] at hhere
    rw [if_pos ⟨rfl, rfl⟩, toNat_add_of_lt, toNat_shares, hhere, hdoutb]
    rw [toNat_shares]
    omega
  | false =>
    rw [ha, if_neg Bool.false_ne_true] at hhere
    rw [if_neg fun h => Bool.false_ne_true h.2, toNat_sub_of_le, toNat_shares, hhere, hdoutb]
    · rfl
    · rw [toNat_shares]
      omega

theorem Reading.writing (hr : Reading base k f msg r) (hv : msg.valid = true)
    (hc : LevelChange base k f f' msg) (hi : i.initV = false) (hidle : i.decBook.valid = false) :
    Writing base k f f' (r.next i) := by
  have hnew := hr.newShares hv hc
  have hdec : r.decBook.valid = true := by rw [hr.decBook, hv]
  obtain ⟨hpa, hod⟩ := hr.rams_next i
  rw [hdec] at hpa hod
  have hexist : (r.next i).existArr = r.existArr := existArr_next hr.existWen i
  refine ⟨hr.toConfig.next hi, decBook_idle r hidle, hdec, hr.douta, ?_, ?_, ?_, ?_⟩
  · have hdin : (r.next i).existDin = r.existDinNext := rfl
    rw [hdin, L2Regs.existDinNext, hdec, hr.decBook, Bool.true_and, ← hnew]
    cases ha : msg.isAdd with
    | true =>
      have hhere := hc.here
      have hpos := hc.pos
      have hdoutb := hr.doutb
      rw [ha, if_pos rfl, ← hnew, ← hdoutb] at hhere
      rw [Bool.true_or, decide_eq_true]
      omega
    | false =>
      rw [Bool.false_or]
      simp [BitVec.lt_def]
  · have hword : paWord base (r.next i) = fun j =>
        r.paRam.ram.mem.write true (priceAddr (levelPrice base k)) r.orderNewShares
          (priceAddr (levelPrice base j)) := by
      funext j
      rw [paWord, hpa, hr.decBook, hc.price]
    rw [hword]
    exact holdsShares_update hc (fun j hj h => Tables.priceAddr_inj hr.tick hj hc.place h) hnew hr.pa
  · have hword : odWord (r.next i) = fun j =>
        r.odRam.ram.mem.write true (BitVec.ofNat 11 k) r.orderNewShares (BitVec.ofNat 11 j) := by
      funext j
      rw [odWord, hod, hr.douta]
    rw [hword]
    exact holdsShares_update hc (fun j hj h => ofNat_inj hj hc.place h) hnew hr.od
  · rw [hexist]
    exact hr.exist

theorem Writing.table (hw : Writing base k f f' r) (hc : LevelChange base k f f' msg)
    (hi : i.initV = false) (hidle : i.decBook.valid = false) : Table base f' (r.next i) := by
  obtain ⟨hpa, hod⟩ := hw.rams_next i
  rw [hw.decBook] at hpa hod
  refine ⟨hw.toConfig.next hi, decBook_idle r hidle, hw.decBook, ?_, ?_, ?_⟩
  · intro j hj
    rw [paWord, hpa]
    exact hw.pa j hj
  · intro j hj
    rw [odWord, hod]
    exact hw.od j hj
  · have hexist : (r.next i).existArr = Function.update r.existArr r.existWaddr r.existDin :=
      if_pos hw.existWen
    intro j hj
    rw [hexist, hw.existWaddr, hw.existDin]
    by_cases hjk : j = k
    · rw [hjk, Function.update_self]
    · rw [Function.update_of_ne fun h => hjk (ofNat_inj hj hc.place h), hw.exist j hj,
        hc.other j hj hjk]

/-- **A message at a price of the window.** -/
theorem Table.message (ht : Table base f r) (hc : LevelChange base k f f' i.decBook)
    (hv : i.decBook.valid = true) (hi : i.initV = false) : Settles base f' 2 (r.next i) := by
  have hreading := ht.reading hi hv rfl hc
  refine ⟨hreading.toConfig, fun h => absurd h Nat.one_ne_zero, fun i1 hi1 h1 => ?_⟩
  have hwriting := hreading.writing hv hc hi1 h1
  exact ⟨hwriting.toConfig, fun _ => hwriting.od, fun i2 hi2 h2 => hwriting.table hc hi2 h2⟩

/-- A message past the window is not taken into the table. -/
theorem Config.decBook_past (hc : Config base r)
    (hpast : Past base i.decBook.price) :
    (r.next i).decBook.valid = false := by
  have hnext : (r.next i).decBook = r.decBookNext i.decBook := rfl
  rw [hnext, L2Regs.decBookNext]
  split_ifs with hv
  · simp only [ge_iff_le, BitVec.le_def, hc.priceBase, hc.priceMax, Bool.and_eq_false_iff,
      decide_eq_false_iff_not]
    exact hpast.imp not_le.2 not_le.2
  · simpa using hv

/-- The table depends on the shares at the prices of the window only. -/
theorem Table.congr (ht : Table base f r)
    (hsame : ∀ k : ℕ, k < 2048 → f' (base + 50 * k) = f (base + 50 * k)) : Table base f' r := by
  refine ⟨ht.toConfig, ht.decBook, ht.existWen, fun k hk => ?_, fun k hk => ?_, fun k hk => ?_⟩
  · rw [hsame k hk]
    exact ht.pa k hk
  · rw [hsame k hk]
    exact ht.od k hk
  · rw [hsame k hk]
    exact ht.exist k hk

/-- **A message past the window.** -/
theorem Table.past (ht : Table base f r)
    (hpast : Past base i.decBook.price)
    (hsame : ∀ k : ℕ, k < 2048 → f' (base + 50 * k) = f (base + 50 * k)) (hi : i.initV = false) :
    Settles base f' 2 (r.next i) :=
  ((ht.congr hsame).next hi (ht.toConfig.decBook_past hpast)).settles 2

end Message

/-! ### The messages of the live orders -/

section Orders

variable {cfg : Params} {base : ℕ} {om om' : OrderMap} {msg : BookMsg} {lk : DownstreamOrderMsg}
  {d : DecBook}

/-- The places of the window are the covered prices on a tick. -/
theorem exists_place (hsize : cfg.l2MemSize = 2048) (hbase : base % 50 = 0)
    (hfits : base + 50 * 2047 < 2 ^ 32) {p : BitVec 32} (htick : (p.toNat : ℤ) % 50 = 0)
    (hcov : covered cfg false base p.toNat = true) : ∃ k < 2048, p = levelPrice base k := by
  rw [Book.covered_hw, windowMax, hsize] at hcov
  exact exists_level hbase hfits (by omega) (by omega) (by omega)

theorem covered_place (hsize : cfg.l2MemSize = 2048) {k : ℕ} (hk : k < 2048) :
    covered cfg false base (base + 50 * k) = true := by
  rw [Book.covered_hw, windowMax, hsize]
  omega

/-- What an accepted message changes at the prices of the window. -/
theorem levelChange_of_step (h : om.step msg = some (orderMsg d, om')) (hd : Book.Positive om.live)
    (hm : msg.SharesPos) (hfits : base + 50 * 2047 < 2 ^ 32) {k : ℕ} (hk : k < 2048)
    (hprice : d.price = levelPrice base k)
    (hsmall : sharesAt om'.live (base + 50 * k) < 2 ^ 64) :
    LevelChange base k (sharesAt om.live) (sharesAt om'.live) d where
  place := hk
  price := hprice
  pos := by
    have := OrderMap.step_shares_pos h hd hm
    simp only [orderMsg] at this
    omega
  here := by
    have hlk : (orderMsg d).price = base + 50 * k := by
      rw [orderMsg, hprice, toNat_levelPrice hfits hk]
      push_cast
      rfl
    rw [Book.sharesAt_step h, if_pos hlk, change, isAdd_orderMsg]
    rfl
  other j hj hjk := by
    have hlk : (orderMsg d).price ≠ base + 50 * j := by
      rw [orderMsg, hprice, toNat_levelPrice hfits hk]
      push_cast
      omega
    rw [Book.sharesAt_step h, if_neg hlk, add_zero]
  nonneg := Book.sharesAt_nonneg (OrderMap.step_positive h hd hm) _
  fits := hsmall

/-- **Any message that the orders take.** -/
theorem Table.step {r : Rtl.L2Regs} {i : L2In} (hsize : cfg.l2MemSize = 2048)
    (h : om.step msg = some (orderMsg i.decBook, om')) (hd : Book.Positive om.live)
    (hm : msg.SharesPos) (htick : (orderMsg i.decBook).price % 50 = 0)
    (hsmall : ∀ p, sharesAt om'.live p < 2 ^ 64) (ht : Table base (sharesAt om.live) r)
    (hv : i.decBook.valid = true) (hi : i.initV = false) :
    Settles base (sharesAt om'.live) 2 (r.next i) := by
  by_cases hcov : covered cfg false base (orderMsg i.decBook).price = true
  · obtain ⟨k, hk, hprice⟩ := exists_place hsize ht.tick ht.fits htick hcov
    exact ht.message (levelChange_of_step h hd hm ht.fits hk hprice (hsmall _)) hv hi
  · refine ht.past ?_ (fun k hk => ?_) hi
    · rw [Book.covered_hw, windowMax, hsize] at hcov
      simp only [orderMsg] at hcov
      unfold Past
      omega
    · rw [Book.sharesAt_step h, if_neg fun he => hcov (by rw [he]; exact covered_place hsize hk),
        add_zero]

end Orders

end ItchOrderBook.Pipeline
