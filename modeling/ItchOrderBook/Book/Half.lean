import ItchOrderBook.Book.Orders
import ItchOrderBook.Ref.Bbo

/-!
# A BBO half shows the first rungs of a ladder

`HalfAt k h l` says that the entries of the half `h` are the first `k` rungs of the ladder `l` and
that its two counters are the shares of the other rungs, all of them and those in range.
`half_processMsg` splits the ladder at the price of a message and follows the half through every
branch: the change of a shown level, the insertion with its eviction, the depletion with and
without a refill request, and a change past the shown levels. A requested refill restores the
full window (`half_processUpdt`).
-/

namespace ItchOrderBook.Book

open Ref

/-- The half `h` shows the first `k` rungs of `l` and counts the others. -/
structure HalfAt (k : ℕ) (h : BBOHalf) (l : List (ℤ × ℤ)) : Prop where
  entries : h.entries = (l.take k).map toEntry
  outside : h.outsideShares = volume (l.drop k)
  inRange : h.outsideSharesInRange = volumeIn h.inRange (l.drop k)

/-- `h'` is the half of the same side and window. -/
def SameHalf (h h' : BBOHalf) : Prop :=
  h'.isBuy = h.isBuy ∧ h'.ideal = h.ideal ∧ h'.priceBound = h.priceBound

theorem SameHalf.inRange {h h' : BBOHalf} (hs : SameHalf h h') : h'.inRange = h.inRange := by
  obtain ⟨h1, h2, h3⟩ := hs
  funext p
  simp only [BBOHalf.inRange, h1, h2, h3]

/-! ### The loop over the entries -/

theorem closer_iff {b : Bool} {p q : ℤ} : BBOHalf.closer b p q = true ↔ Better b p q := by
  cases b <;> simp [BBOHalf.closer, Better]

theorem scan_append {b : Bool} {msg : DownstreamOrderMsg} {pre : List (ℤ × ℤ)}
    (hpre : ∀ x ∈ pre, Better b x.1 msg.price) (i : ℕ) (rest : List BBOEntry) :
    BBOHalf.scan b msg i (pre.map toEntry ++ rest) = BBOHalf.scan b msg (i + pre.length) rest := by
  induction pre generalizing i with
  | nil => rfl
  | cons x pre ih =>
    have hx := hpre x List.mem_cons_self
    have hne : msg.price ≠ x.1 := fun e => irrefl (r := Better b) x.1 (e ▸ hx)
    have hnot : BBOHalf.closer b msg.price x.1 = false := by
      rw [Bool.eq_false_iff, ne_eq, closer_iff]
      exact fun hc => irrefl (r := Better b) x.1 (IsTrans.trans _ _ _ hx hc)
    rw [List.map_cons, List.cons_append, BBOHalf.scan_of_not_closer hne hnot, ih (fun y hy => hpre y (List.mem_cons_of_mem _ hy)), List.length_cons,
      show i + 1 + pre.length = i + (pre.length + 1) by omega]

/-! ### The bookkeeping of the counters -/

section Update

variable {cfg : Params} {k n : ℕ} {h h' : BBOHalf} {l l' pre post : List (ℤ × ℤ)} {p m m' : ℤ}

theorem HalfAt.length_entries (hh : HalfAt k h l) : h.entries.length = min k l.length := by
  rw [hh.entries, List.length_map, List.length_take]

/-- The entry at the top is the first rung. -/
theorem HalfAt.head?_entries (hh : HalfAt k h l) (hk : 1 ≤ k) :
    h.entries.head? = l.head?.map toEntry := by
  obtain ⟨j, rfl⟩ : ∃ j, k = j + 1 := ⟨k - 1, by omega⟩
  rw [hh.entries]
  cases l <;> simp

theorem addOutside_same (h : BBOHalf) (s q : ℤ) : SameHalf h (h.addOutside s q) := ⟨rfl, rfl, rfl⟩

/-- Counting a change of one rung past the window. -/
theorem HalfAt.addOutside {s q : ℤ} (hh : HalfAt k h l) (he : l'.take k = l.take k)
    (hv : volume (l'.drop k) = volume (l.drop k) + s)
    (hr : volumeIn h.inRange (l'.drop k) =
      volumeIn h.inRange (l.drop k) + if h.inRange q then s else 0) :
    HalfAt k (h.addOutside s q) l' where
  entries := by rw [he]; exact hh.entries
  outside := by rw [hv, ← hh.outside]; rfl
  inRange := by
    rw [(addOutside_same h s q).inRange, hr, ← hh.inRange]
    simp only [BBOHalf.addOutside]
    split_ifs <;> omega

/-- A level past the window changes. -/
theorem HalfAt.outside_change (hh : HalfAt n h (pre ++ rung p m ++ post)) (hn : n ≤ pre.length) :
    HalfAt n (h.addOutside (m' - m) p) (pre ++ rung p m' ++ post) := by
  refine hh.addOutside ?_ ?_ ?_
  · rw [List.append_assoc, List.append_assoc, take_append_of_le hn, take_append_of_le hn]
  · rw [List.append_assoc, List.append_assoc, drop_append_of_le hn, drop_append_of_le hn]
    simp only [volume_append, volume_rung]
    ring
  · rw [List.append_assoc, List.append_assoc, drop_append_of_le hn, drop_append_of_le hn]
    simp only [volumeIn_append, volumeIn_rung]
    split_ifs <;> ring

/-- A shown level changes and stays. -/
theorem HalfAt.modify (hh : HalfAt n h (pre ++ (p, m) :: post)) (hn : pre.length < n) :
    HalfAt n { h with entries := h.entries.set pre.length ⟨m', p⟩ } (pre ++ (p, m') :: post) where
  entries := by
    have hset := congrArg (List.map toEntry)
      (set_take_mid (x := (p, m)) (y := (p, m')) (q := post) hn)
    rw [List.map_set] at hset
    rw [hh.entries]
    exact hset
  outside := by rw [drop_mid hn, ← drop_mid hn]; exact hh.outside
  inRange := by rw [drop_mid hn, ← drop_mid hn]; exact hh.inRange

/-- A shown level goes; the window is then one shorter. -/
theorem HalfAt.erase (hh : HalfAt n h (pre ++ (p, m) :: post)) (hn : pre.length < n) :
    HalfAt (n - 1) { h with entries := h.entries.eraseIdx pre.length } (pre ++ post) where
  entries := by rw [← eraseIdx_take_mid hn, hh.entries, ← List.eraseIdx_map]
  outside := by rw [← drop_mid_eq hn]; exact hh.outside
  inRange := by rw [← drop_mid_eq hn]; exact hh.inRange

/-- A window that reaches the end of the ladder may be widened. -/
theorem HalfAt.widen (hh : HalfAt k h l) (hl : l.length ≤ k) (hkn : k ≤ n) : HalfAt n h l where
  entries := by
    rw [List.take_of_length_le (hl.trans hkn), hh.entries, List.take_of_length_le hl]
  outside := by
    rw [List.drop_of_length_le (hl.trans hkn), hh.outside, List.drop_of_length_le hl]
  inRange := by
    rw [List.drop_of_length_le (hl.trans hkn), hh.inRange, List.drop_of_length_le hl]

/-- A new level inside the window pushes out the last one when the window is full. -/
theorem HalfAt.insert (hh : HalfAt cfg.bboDepth h (pre ++ post)) (hn : pre.length < cfg.bboDepth) :
    HalfAt cfg.bboDepth (h.insertEntry cfg pre.length ⟨m, p⟩) (pre ++ (p, m) :: post) ∧
      SameHalf h (h.insertEntry cfg pre.length ⟨m, p⟩) := by
  have he : h.entries.insertIdx pre.length ⟨m, p⟩ =
      ((pre ++ (p, m) :: post).take (cfg.bboDepth + 1)).map toEntry := by
    rw [← insertIdx_take_append hn, hh.entries, List.map_insertIdx]; rfl
  have hdrop : (pre ++ post).drop cfg.bboDepth =
      (pre ++ (p, m) :: post).drop (cfg.bboDepth + 1) := by
    rw [drop_mid_eq (show pre.length < cfg.bboDepth + 1 by omega), Nat.add_sub_cancel]
  unfold BBOHalf.insertEntry
  rw [he]
  generalize pre ++ (p, m) :: post = l at hdrop
  by_cases hlen : cfg.bboDepth < l.length
  · have hx := List.getElem?_eq_getElem hlen
    generalize l[cfg.bboDepth] = x at hx
    have hlast : ((l.take (cfg.bboDepth + 1)).map toEntry).getLast? = some (toEntry x) := by
      rw [take_succ_eq_append, hx]; simp
    have hinit : ((l.take (cfg.bboDepth + 1)).map toEntry).dropLast =
        (l.take cfg.bboDepth).map toEntry := by
      rw [take_succ_eq_append, hx]; simp
    have hsplit := drop_eq_getElem?_toList_append l cfg.bboDepth
    rw [hx] at hsplit
    have hfull : ((l.take (cfg.bboDepth + 1)).map toEntry).length > cfg.bboDepth := by
      rw [List.length_map, List.length_take]; omega
    simp only [hfull, if_true, hlast, hinit]
    refine ⟨⟨rfl, ?_, ?_⟩, rfl, rfl, rfl⟩
    · rw [hsplit]
      simp only [BBOHalf.addOutside, toEntry, hh.outside, hdrop, Option.toList_some, volume_append,
        volume_cons, volume_nil]
      ring
    · rw [hsplit, volumeIn_append, Option.toList_some, volumeIn_cons, volumeIn_nil, ← hdrop]
      show (if h.inRange x.1 then h.outsideSharesInRange + x.2 else h.outsideSharesInRange) =
        (if h.inRange x.1 then x.2 else 0) + 0 + volumeIn h.inRange ((pre ++ post).drop cfg.bboDepth)
      rw [← hh.inRange]
      split_ifs <;> ring
  · have hfit : ¬ ((l.take (cfg.bboDepth + 1)).map toEntry).length > cfg.bboDepth := by
      rw [List.length_map, List.length_take]; omega
    simp only [hfit, if_false]
    refine ⟨⟨?_, ?_, ?_⟩, rfl, rfl, rfl⟩
    · rw [List.take_of_length_le (show l.length ≤ cfg.bboDepth + 1 by omega),
        List.take_of_length_le (show l.length ≤ cfg.bboDepth by omega)]
    · rw [List.drop_of_length_le (show l.length ≤ cfg.bboDepth by omega), hh.outside, hdrop,
        List.drop_of_length_le (show l.length ≤ cfg.bboDepth + 1 by omega)]
    · rw [List.drop_of_length_le (show l.length ≤ cfg.bboDepth by omega), hh.inRange, hdrop,
        List.drop_of_length_le (show l.length ≤ cfg.bboDepth + 1 by omega)]
      rfl

/-- A new level at the end of a window that is not full. -/
theorem HalfAt.append (hh : HalfAt n h l) (hn : l.length < n) :
    HalfAt n { h with entries := h.entries ++ [⟨m, p⟩] } (l ++ [(p, m)]) where
  entries := by
    rw [hh.entries, List.take_of_length_le hn.le, List.take_of_length_le (by simp; omega)]
    simp [toEntry]
  outside := by
    rw [List.drop_of_length_le (by simp; omega), hh.outside, List.drop_of_length_le hn.le]
  inRange := by
    rw [List.drop_of_length_le (by simp; omega), hh.inRange, List.drop_of_length_le hn.le]
    rfl

end Update

/-! ### One message -/

section Message

variable {cfg : Params} {h : BBOHalf} {l pre post : List (ℤ × ℤ)} {msg : DownstreamOrderMsg} {m : ℤ}

theorem HalfAt.result {k : ℕ} (hh : HalfAt k h l) (hk : 1 ≤ k) :
    h.result false 0 = ⟨l.head?.map toEntry, false, 0⟩ := by
  rw [← hh.head?_entries hk]
  unfold BBOHalf.result
  cases h.entries <;> rfl

theorem HalfAt.result_updt {k : ℕ} (hh : HalfAt k h l) (hk : 1 ≤ k) (hl : l ≠ []) (last : ℤ) :
    h.result true last = ⟨l.head?.map toEntry, true, last⟩ := by
  have htop := hh.head?_entries hk
  unfold BBOHalf.result
  cases he : h.entries with
  | nil =>
    obtain ⟨x, l, rfl⟩ := List.exists_cons_of_ne_nil hl
    rw [he] at htop
    cases htop
  | cons e es =>
    rw [he] at htop
    rw [← htop]
    rfl

theorem volume_nonneg (hl : ∀ x ∈ l, 0 < x.2) : 0 ≤ volume l := by
  induction l with
  | nil => rfl
  | cons x l ih =>
    have := hl x List.mem_cons_self
    have := ih fun y hy => hl y (List.mem_cons_of_mem _ hy)
    rw [volume_cons]
    omega

theorem eq_nil_of_volume_le (hl : ∀ x ∈ l, 0 < x.2) (hv : volume l ≤ 0) : l = [] := by
  cases l with
  | nil => rfl
  | cons x l =>
    have := hl x List.mem_cons_self
    have := volume_nonneg fun y hy => hl y (List.mem_cons_of_mem _ hy)
    rw [volume_cons] at hv
    omega

/-- How a half reports a message after which its ladder is `l`: in full, with a request for the
last shown level, or with an error because that level is out of range. -/
def HalfStep (cfg : Params) (h : BBOHalf) (msg : DownstreamOrderMsg) (l : List (ℤ × ℤ))
    (h' : BBOHalf) : Prop :=
  (h.processMsg cfg msg = (.ret ⟨l.head?.map toEntry, false, 0⟩, h') ∧
    HalfAt cfg.bboDepth h' l) ∨
  (∃ last, h.processMsg cfg msg = (.ret ⟨l.head?.map toEntry, true, last⟩, h') ∧
    HalfAt (cfg.bboDepth - 1) h' l ∧ 0 < h'.outsideSharesInRange) ∨
  (h.processMsg cfg msg = (.err "No shares in range for updt.", h') ∧
    HalfAt (cfg.bboDepth - 1) h' l ∧ h'.outsideSharesInRange ≤ 0 ∧ 0 < h'.outsideShares)

/-- The end of a message that leaves a full window. -/
theorem halfStep_ret {h' : BBOHalf} (hn : 2 ≤ cfg.bboDepth)
    (hp : h.processMsg cfg msg = (.ret (h'.result false 0), h')) (hh : HalfAt cfg.bboDepth h' l) :
    HalfStep cfg h msg l h' :=
  Or.inl ⟨by rw [hp, hh.result (by omega)], hh⟩

/-- The removal of a depleted level. -/
theorem deplete_spec {p : ℤ} (hn : 2 ≤ cfg.bboDepth)
    (hh : HalfAt cfg.bboDepth h (pre ++ (p, m) :: post)) (hlen : pre.length < cfg.bboDepth)
    (hl : ∀ x ∈ pre ++ post, 0 < x.2)
    (hp : h.processMsg cfg msg = h.deplete cfg pre.length) :
    ∃ h', SameHalf h h' ∧ HalfStep cfg h msg (pre ++ post) h' := by
  have he := hh.erase hlen
  obtain ⟨h', hdef⟩ : ∃ h', h' = { h with entries := h.entries.eraseIdx pre.length } := ⟨_, rfl⟩
  -- what the call does, in terms of the half without the level
  have hupdt {last} (hr : h'.outsideSharesInRange > 0) (hfull : ¬ h'.entries.length + 1 ≠ cfg.bboDepth)
      (hlast : h'.entries[cfg.bboDepth - 2]? = some last) :
      h.deplete cfg pre.length = (.ret (h'.result true last.price), h') := by
    subst hdef
    exact (if_pos hr).trans ((if_neg hfull).trans (by rw [hlast]))
  have hrest (hr : ¬ h'.outsideSharesInRange > 0) : h.deplete cfg pre.length =
      if h'.outsideShares > 0 then (.err "No shares in range for updt.", h')
      else (.ret (h'.result false 0), h') := by
    subst hdef
    exact if_neg hr
  refine ⟨h', hdef ▸ ⟨rfl, rfl, rfl⟩, ?_⟩
  rw [← hdef] at he
  rw [HalfStep, hp]
  generalize pre ++ post = l at he hl ⊢
  have hlength := he.length_entries
  by_cases hr : h'.outsideSharesInRange > 0
  · have hlong : cfg.bboDepth - 1 < l.length := by
      by_contra hshort
      rw [he.inRange, List.drop_of_length_le (by omega), volumeIn_nil] at hr
      omega
    have hfull : ¬ h'.entries.length + 1 ≠ cfg.bboDepth := by omega
    have hlast := List.getElem?_eq_getElem (show cfg.bboDepth - 2 < h'.entries.length by omega)
    have hne : l ≠ [] := List.ne_nil_of_length_pos (by omega)
    refine Or.inr (Or.inl ⟨h'.entries[cfg.bboDepth - 2].price, ?_, he, hr⟩)
    rw [hupdt hr hfull hlast, he.result_updt (by omega) hne]
  · by_cases ho : h'.outsideShares > 0
    · refine Or.inr (Or.inr ⟨?_, he, by omega, ho⟩)
      rw [hrest hr, if_pos ho]
    · have hnil : l.drop (cfg.bboDepth - 1) = [] :=
        eq_nil_of_volume_le (fun x hx => hl x (List.mem_of_mem_drop hx)) (he.outside ▸ by omega)
      have hwide := he.widen (n := cfg.bboDepth) (List.drop_eq_nil_iff.1 hnil) (by omega)
      refine Or.inl ⟨?_, hwide⟩
      rw [hrest hr, if_neg ho, hwide.result (by omega)]

/-- **One message at a half.** The half follows the change of its ladder at the price of the
message. -/
theorem half_processMsg (hb : msg.isBuy = h.isBuy) (hn : 2 ≤ cfg.bboDepth)
    (hh : HalfAt cfg.bboDepth h (pre ++ rung msg.price m ++ post))
    (hpre : ∀ x ∈ pre, Better h.isBuy x.1 msg.price)
    (hpost : ∀ x ∈ post, Better h.isBuy msg.price x.1) (hl : ∀ x ∈ pre ++ post, 0 < x.2)
    (hm : 0 ≤ m) (hle : msg.msgType.isAdd = false → msg.shares ≤ m) (hs : 1 ≤ msg.shares) :
    ∃ h', SameHalf h h' ∧
      HalfStep cfg h msg (pre ++ rung msg.price (m + change msg) ++ post) h' := by
  have hside : ¬ msg.isBuy ≠ h.isBuy := not_not.2 hb
  by_cases hlen : pre.length < cfg.bboDepth
  · obtain ⟨j, hj⟩ : ∃ j, cfg.bboDepth - pre.length = j + 1 := ⟨_, (Nat.succ_pred (by omega)).symm⟩
    have hscan : BBOHalf.scan h.isBuy msg 0 h.entries =
        BBOHalf.scan h.isBuy msg pre.length (((rung msg.price m ++ post).take (j + 1)).map toEntry) := by
      rw [hh.entries, List.append_assoc, List.take_append,
        List.take_of_length_le (show pre.length ≤ cfg.bboDepth by omega), hj, List.map_append,
        scan_append hpre, Nat.zero_add]
    by_cases hm0 : m = 0
    · have ha : msg.msgType.isAdd = true := by
        by_contra hna
        have := hle (by simpa using hna)
        omega
      have hnew : m + change msg = msg.shares := by rw [change, if_pos ha, hm0, zero_add]
      rw [hnew, rung_of_ne (show msg.shares ≠ 0 by omega)]
      rw [hm0, rung_zero, List.append_nil] at hh
      rw [hm0, rung_zero, List.nil_append] at hscan
      cases post with
      | nil =>
        rw [List.append_nil] at hh ⊢
        have hshort : h.entries.length < cfg.bboDepth := by rw [hh.length_entries]; omega
        refine ⟨{ h with entries := h.entries ++ [⟨msg.shares, msg.price⟩] }, ⟨rfl, rfl, rfl⟩,
          halfStep_ret hn ?_ (hh.append hlen)⟩
        rw [BBOHalf.processMsg, if_neg hside, hscan]
        simp only [List.take_nil, List.map_nil, BBOHalf.scan, BBOHalf.outsideMsg, hshort, if_true]
      | cons y post =>
        have hy := hpost y List.mem_cons_self
        obtain ⟨hins, hsame⟩ := hh.insert (m := msg.shares) (p := msg.price) hlen
        rw [List.append_assoc, List.singleton_append]
        refine ⟨_, hsame, halfStep_ret hn ?_ hins⟩
        rw [BBOHalf.processMsg, if_neg hside, hscan, List.take_succ_cons, List.map_cons,
          BBOHalf.scan_of_closer (closer_iff.2 hy), if_pos ha]
    · rw [rung_of_ne hm0, List.append_assoc, List.singleton_append] at hh
      rw [rung_of_ne hm0, List.singleton_append, List.take_succ_cons, List.map_cons,
        BBOHalf.scan] at hscan
      cases ha : msg.msgType.isAdd with
      | true =>
        have hnew : m + change msg = m + msg.shares := by rw [change, if_pos ha]
        rw [hnew, rung_of_ne (show m + msg.shares ≠ 0 by omega), List.append_assoc,
          List.singleton_append]
        refine ⟨{ h with entries := h.entries.set pre.length ⟨m + msg.shares, msg.price⟩ },
          ⟨rfl, rfl, rfl⟩, halfStep_ret hn ?_ (hh.modify hlen)⟩
        rw [BBOHalf.processMsg, if_neg hside, hscan]
        simp only [toEntry, if_true, ha]
      | false =>
        have hle' := hle ha
        have hnew : m + change msg = m - msg.shares := by
          rw [change, ha, if_neg Bool.false_ne_true, sub_eq_add_neg]
        have hneg : ¬ m - msg.shares < 0 := by omega
        rw [hnew]
        simp only [toEntry, if_true, ha, Bool.false_eq_true, if_false, hneg] at hscan
        by_cases hz : m - msg.shares = 0
        · rw [hz, rung_zero, List.append_nil]
          simp only [hz, if_true] at hscan
          refine deplete_spec hn hh hlen hl ?_
          rw [BBOHalf.processMsg, if_neg hside, hscan]
        · rw [rung_of_ne hz, List.append_assoc, List.singleton_append]
          simp only [hz, if_false] at hscan
          refine ⟨{ h with entries := h.entries.set pre.length ⟨m - msg.shares, msg.price⟩ },
            ⟨rfl, rfl, rfl⟩, halfStep_ret hn ?_ (hh.modify hlen)⟩
          rw [BBOHalf.processMsg, if_neg hside, hscan]
  · have hscan : BBOHalf.scan h.isBuy msg 0 h.entries = .ok .outside := by
      rw [hh.entries, List.append_assoc, take_append_of_le (by omega),
        ← List.append_nil (List.map toEntry _),
        scan_append fun x hx => hpre x (List.mem_of_mem_take hx)]
      rfl
    have hfull : ¬ h.entries.length < cfg.bboDepth := by
      rw [hh.length_entries, List.length_append, List.length_append]
      omega
    have hout : HalfAt cfg.bboDepth (h.addOutside (m + change msg - m) msg.price)
        (pre ++ rung msg.price (m + change msg) ++ post) := hh.outside_change (not_lt.1 hlen)
    rw [add_sub_cancel_left] at hout
    refine ⟨_, addOutside_same _ _ _, halfStep_ret hn ?_ hout⟩
    rw [BBOHalf.processMsg, if_neg hside, hscan]
    simp only [BBOHalf.outsideMsg, hfull, if_false, change]

/-- **The refill.** The level asked for completes the window. -/
theorem half_processUpdt {x : ℤ × ℤ} (hn : 1 ≤ cfg.bboDepth) (hh : HalfAt (cfg.bboDepth - 1) h l)
    (hx : l[cfg.bboDepth - 1]? = some x) (hr : h.inRange x.1) :
    ∃ h', h.processUpdt cfg (toEntry x) = .ok h' ∧ SameHalf h h' ∧ HalfAt cfg.bboDepth h' l := by
  have hlong := (List.getElem?_eq_some_iff.1 hx).1
  have hfull : ¬ h.entries.length + 1 ≠ cfg.bboDepth := by rw [hh.length_entries]; omega
  have hdrop := drop_eq_getElem?_toList_append l (cfg.bboDepth - 1)
  have htake := take_succ_eq_append l (cfg.bboDepth - 1)
  rw [hx, show cfg.bboDepth - 1 + 1 = cfg.bboDepth by omega] at hdrop htake
  refine ⟨{ h with
      entries := h.entries ++ [toEntry x]
      outsideShares := h.outsideShares - (toEntry x).shares
      outsideSharesInRange := h.outsideSharesInRange - (toEntry x).shares },
    if_neg hfull, ⟨rfl, rfl, rfl⟩, ?_, ?_, ?_⟩
  · rw [htake, List.map_append, ← hh.entries]; rfl
  · rw [hh.outside, hdrop]
    simp [toEntry]
  · rw [hh.inRange, hdrop]
    simp only [toEntry, Option.toList_some, volumeIn_append, volumeIn_cons, volumeIn_nil, hr, if_true]
    show x.2 + 0 + volumeIn h.inRange _ - x.2 = volumeIn h.inRange _
    ring

end Message

end ItchOrderBook.Book
