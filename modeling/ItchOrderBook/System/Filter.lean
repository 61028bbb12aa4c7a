import ItchOrderBook.System.Sessions

/-!
# The filtered file

`filter_itch_file` keeps the messages that carry the locate of a stock, and those with the locate zero. If
the messages that concern the stock carry it, a message that is dropped changes nothing in the pipeline and
has no result (`Tracked.skip`). So the pipeline does the same with the filtered file as with the whole one,
however both are cut into packets (`filter_preserves`).
-/

namespace ItchOrderBook.System

open Framing (IsMsg payloads)
open Ref (BookResult Byte Control ControlResult ITCHMsg Params Top TopOut TopResult fromBytes slice
  filterItchFile generateMoldudpPackets isWritten streamRawItch)
open Session (Clean SameStock)

/-! ### The files -/

/-- The message, with its length in front, is written. -/
def keeps (targetLocate : ℕ) (m : List Byte) : Bool := isWritten targetLocate (m.drop 2)

/-- The file that is written has the messages that are kept. -/
theorem filterItchFile_eq (file : List Byte) (targetLocate : ℕ) :
    filterItchFile file targetLocate = ((streamRawItch file).filter (keeps targetLocate)).flatten := by
  fun_induction streamRawItch file with
  | case1 file lenBytes hlen =>
    rw [filterItchFile, dif_pos hlen]
    rfl
  | case2 file lenBytes hlen msgLen msg hmsg =>
    rw [filterItchFile, dif_neg hlen]
    exact if_pos hmsg
  | case3 file lenBytes hlen msgLen msg hmsg ih =>
    have htwo : lenBytes.length = 2 := by
      have : lenBytes.length ≤ 2 := List.length_take_le 2 file
      omega
    have hkeeps : keeps targetLocate (lenBytes ++ msg) = isWritten targetLocate msg := by
      rw [keeps, List.drop_left' htwo]
    rw [filterItchFile, dif_neg hlen, List.filter_cons, hkeeps]
    dsimp only
    rw [if_neg hmsg, ih]
    split_ifs
    · rw [List.flatten_cons]
    · rfl

theorem stream_filterItchFile (file : List Byte) (targetLocate : ℕ) :
    streamRawItch (filterItchFile file targetLocate) =
      (streamRawItch file).filter (keeps targetLocate) := by
  rw [filterItchFile_eq]
  exact Framing.streamRawItch_flatten fun m hm => Framing.isMsg_of_mem_stream (List.mem_of_mem_filter hm)

/-! ### Messages that do not concern the stock -/

/-- The message is about the system, or names the stock. -/
def Concerns (sym : String) : ITCHMsg → Prop
  | .systemEvent .. => True
  | .directory _ t | .tradeAction _ t _ | .opHalt _ t _ _ => t = sym
  | .book _ | .other _ => False

/-- The locate is the one that is kept, or zero. -/
def OnTarget (targetLocate l : ℕ) : Prop := l = targetLocate ∨ l = 0

/-- What concerns the stock carries the locate that is kept, or zero. -/
def Attributed (sym : String) (targetLocate : ℕ) (m : ITCHMsg) : Prop :=
  Concerns sym m → OnTarget targetLocate (locateOf m)

/-- The pipeline is set up for the stock, and its locate is one that is kept. -/
structure Tracked {cfg : Params} (sym : String) (targetLocate : ℕ) (s : Top cfg) : Prop where
  initialized : s.ctrl.initialized = true
  symbol : s.ctrl.stockSymbol = some sym
  active : s.stockActive = s.ctrl.stockActive
  locate : ∀ l, s.stockLocate = some l → OnTarget targetLocate l

section Control

variable {s : Control} {m : ITCHMsg}

/-- A message that does not concern the stock is not looked at. -/
theorem control_unconcerned {sym : String} (hinit : s.initialized = true) (hsym : s.stockSymbol = some sym)
    (hm : ¬ Concerns sym m) : s.processMsg m = s.finish s.msgHours none := by
  rw [Session.processMsg_of_initialized hinit]
  cases m with
  | systemEvent l e => exact absurd trivial hm
  | directory l t =>
    have hne : ¬ some t = s.stockSymbol := fun h => hm (Option.some.inj (h.trans hsym))
    exact if_neg hne
  | tradeAction l t a =>
    have hne : ¬ some t = s.stockSymbol := fun h => hm (Option.some.inj (h.trans hsym))
    exact if_neg hne
  | opHalt l t c b =>
    have hne : ¬ (some t = s.stockSymbol ∧ some c = s.marketCode) := fun h =>
      hm (Option.some.inj (h.1.trans hsym))
    exact if_neg hne
  | book o => rfl
  | other l => rfl

end Control

section Loop

variable {cfg : Params} {sym : String} {targetLocate : ℕ} {s s' : Top cfg}

/-- **A message that is dropped changes nothing.** -/
theorem Tracked.skip_message (h : Tracked sym targetLocate s) {m : ITCHMsg}
    (hm : Attributed sym targetLocate m) (hoff : ¬ OnTarget targetLocate (locateOf m))
    {res : Option BookResult} (hs : s.processMsg m = (.ok res, s')) : res = none ∧ s' = s := by
  have hno : ¬ Concerns sym m := fun hc => hoff (hm hc)
  have hsame : ({ s with stockActive := s.ctrl.stockActive } : Top cfg) = s := by rw [← h.active]
  unfold Top.processMsg at hs
  rw [control_unconcerned h.initialized h.symbol hno] at hs
  cases hhours : s.ctrl.msgHours with
  | false =>
    rw [hhours] at hs
    cases hs
  | true =>
    rw [hhours] at hs
    change ({ s with stockActive := s.ctrl.stockActive } : Top cfg).toBook m = (.ok res, s') at hs
    rw [hsame] at hs
    cases m with
    | book o =>
      unfold Top.toBook at hs
      dsimp only at hs
      cases hl : s.stockLocate with
      | none =>
        rw [hl] at hs
        cases hs
      | some l =>
        have hne : ¬ o.stockLocate = l := by
          rintro rfl
          exact hoff (h.locate _ hl)
        rw [hl] at hs
        dsimp only at hs
        rw [if_neg hne] at hs
        cases hs
        exact ⟨rfl, rfl⟩
    | systemEvent l e => exact absurd trivial hno
    | directory l t => cases hs; exact ⟨rfl, rfl⟩
    | tradeAction l t a => cases hs; exact ⟨rfl, rfl⟩
    | opHalt l t c b => cases hs; exact ⟨rfl, rfl⟩
    | other l => cases hs; exact ⟨rfl, rfl⟩

/-- The book stage changes the book only. -/
theorem toBook_eq (s : Top cfg) (m : ITCHMsg) :
    (s.toBook m).2 = { s with book := (s.toBook m).2.book } := by
  unfold Top.toBook
  split
  · split
    · rfl
    · split_ifs
      · split <;> rfl
      · rfl
  · rfl

/-- **A message that is taken keeps the pipeline on the stock.** -/
theorem Tracked.message (h : Tracked sym targetLocate s) {m : ITCHMsg} (hm : Attributed sym targetLocate m)
    {res : Option BookResult} (hs : s.processMsg m = (.ok res, s')) : Tracked sym targetLocate s' := by
  unfold Top.processMsg at hs
  rcases hc : s.ctrl.processMsg m with ⟨r, ctrl⟩
  rw [hc] at hs
  cases r with
  | err code => cases hs
  | raise e => cases hs
  | ret r =>
    obtain ⟨hinit, hsymbol, hactive⟩ := control_ret hc
    dsimp only at hs
    unfold Top.takeLocate at hs
    rcases Session.control_locate hc with ⟨l, t, rfl, ht, hl, -, -⟩ | ⟨-, hl, -⟩
    · rw [hl] at hs
      dsimp only at hs
      split_ifs at hs
      · cases hs
      · have hs' := congrArg Prod.snd hs
        rw [toBook_eq] at hs'
        dsimp only at hs'
        subst hs'
        refine ⟨hinit.trans h.initialized, hsymbol.trans h.symbol, hactive, fun l' hl' => ?_⟩
        obtain rfl := Option.some.inj hl'
        exact hm (Option.some.inj (ht.symm.trans h.symbol))
    · rw [hl] at hs
      have hs' := congrArg Prod.snd hs
      rw [toBook_eq] at hs'
      dsimp only at hs'
      subst hs'
      exact ⟨hinit.trans h.initialized, hsymbol.trans h.symbol, hactive, h.locate⟩

/-- The parsed messages of a chunk that is dropped. -/
theorem Tracked.skip_results (h : Tracked sym targetLocate s) {ms : List ITCHMsg}
    (hms : ∀ m ∈ ms, Attributed sym targetLocate m ∧ ¬ OnTarget targetLocate (locateOf m))
    {res : Option BookResult} (hs : s.processResults ms none = (.ok res, s')) : res = none ∧ s' = s := by
  induction ms with
  | nil =>
    cases hs
    exact ⟨rfl, rfl⟩
  | cons m ms ih =>
    obtain ⟨⟨hm, hoff⟩, hms⟩ := List.forall_mem_cons.1 hms
    rw [Top.processResults] at hs
    rcases hp : s.processMsg m with ⟨out | r, s₁⟩
    · rw [hp] at hs
      cases hs
    · obtain ⟨rfl, rfl⟩ := h.skip_message hm hoff hp
      rw [hp] at hs
      exact ih hms hs

theorem Tracked.results (h : Tracked sym targetLocate s) {ms : List ITCHMsg}
    (hms : ∀ m ∈ ms, Attributed sym targetLocate m) {last res : Option BookResult}
    (hs : s.processResults ms last = (.ok res, s')) : Tracked sym targetLocate s' := by
  induction ms generalizing s last with
  | nil =>
    cases hs
    exact h
  | cons m ms ih =>
    obtain ⟨hm, hms⟩ := List.forall_mem_cons.1 hms
    rw [Top.processResults] at hs
    rcases hp : s.processMsg m with ⟨out | r, s₁⟩
    · rw [hp] at hs
      cases hs
    · rw [hp] at hs
      exact ih (h.message hm hp) hms hs

/-! ### Chunks -/

/-- What the chunk is parsed into, if anything, is attributed. -/
def ChunkAttributed (sym : String) (targetLocate : ℕ) (m : List Byte) : Prop :=
  ∀ msgs, Ref.ITCHParser.parseMsg m = .ret msgs → ∀ x ∈ msgs, Attributed sym targetLocate x

/-- The messages of a chunk carry its locate. -/
theorem Chunked.locates {l : ℕ} {msgs : List ITCHMsg} (h : Chunked l msgs) : ∀ m ∈ msgs, locateOf m = l := by
  cases h with
  | single _ hl =>
    intro m hm
    rw [List.mem_singleton.1 hm]
    exact hl
  | replace old new shares price =>
    intro m hm
    rcases List.mem_cons.1 hm with rfl | hm
    · rfl
    · rw [List.mem_singleton.1 hm]
      rfl

/-- A parsed chunk is dropped if its locate is another one. -/
theorem keeps_iff {m : List Byte} (h : (Ref.ITCHParser.parseMsg m).IsRet) :
    keeps targetLocate m = true ↔ OnTarget targetLocate (fromBytes (slice m 3 5)) := by
  have hlen := length_of_ret h
  have hslice : slice (m.drop 2) 1 3 = slice m 3 5 := by
    simp only [slice, List.take_drop, List.drop_drop]
  have hdrop : (m.drop 2).length ≥ 3 := by
    rw [List.length_drop]
    omega
  rw [keeps, isWritten, hslice, decide_eq_true hdrop, Bool.true_and, Bool.or_eq_true, decide_eq_true_eq,
    decide_eq_true_eq, OnTarget]

/-- **A chunk that is dropped changes nothing**, and has no result. -/
theorem Tracked.skip (h : Tracked sym targetLocate s) {m : List Byte}
    (hm : ChunkAttributed sym targetLocate m) (hoff : keeps targetLocate m = false)
    {res : Option TopResult} (hs : s.processUnparsed m = (.ok res, s')) : res = none ∧ s' = s := by
  rw [Top.processUnparsed] at hs
  cases hp : Ref.ITCHParser.parseMsg m with
  | raise e =>
    rw [hp] at hs
    cases hs
  | err code =>
    rw [hp] at hs
    cases hs
  | ret msgs =>
    have hnot : ¬ OnTarget targetLocate (fromBytes (slice m 3 5)) := fun h => by
      rw [(keeps_iff ⟨msgs, hp⟩).2 h] at hoff
      cases hoff
    rw [hp] at hs
    dsimp only at hs
    rcases hr : s.processResults msgs none with ⟨out | r, s₁⟩
    · rw [hr] at hs
      cases hs
    · have hmsgs : ∀ x ∈ msgs, Attributed sym targetLocate x ∧ ¬ OnTarget targetLocate (locateOf x) := by
        intro x hx
        rw [(shaped_parseMsg m msgs hp).locates x hx]
        exact ⟨hm msgs hp x hx, hnot⟩
      obtain ⟨rfl, rfl⟩ := h.skip_results hmsgs hr
      rw [hr] at hs
      cases hs
      exact ⟨rfl, rfl⟩

theorem Tracked.unparsed (h : Tracked sym targetLocate s) {m : List Byte}
    (hm : ChunkAttributed sym targetLocate m) {res : Option TopResult}
    (hs : s.processUnparsed m = (.ok res, s')) : Tracked sym targetLocate s' := by
  rw [Top.processUnparsed] at hs
  cases hp : Ref.ITCHParser.parseMsg m with
  | raise e =>
    rw [hp] at hs
    cases hs
  | err code =>
    rw [hp] at hs
    cases hs
  | ret msgs =>
    rw [hp] at hs
    dsimp only at hs
    rcases hr : s.processResults msgs none with ⟨out | r, s₁⟩
    · rw [hr] at hs
      cases hs
    · rw [hr] at hs
      cases hs
      exact h.results (hm msgs hp) hr

/-- **The loop over the messages that are kept** is the loop over all messages. -/
theorem Tracked.filter (h : Tracked sym targetLocate s) {ms : List (List Byte)}
    (hms : ∀ m ∈ ms, ChunkAttributed sym targetLocate m) (hclean : Clean (s.processPayload ms).1) :
    s.processPayload (ms.filter (keeps targetLocate)) = s.processPayload ms := by
  induction ms generalizing s with
  | nil => rfl
  | cons m ms ih =>
    obtain ⟨hm, hms⟩ := List.forall_mem_cons.1 hms
    rcases hp : s.processUnparsed m with ⟨out | r, s₁⟩
    · rw [Top.processPayload, hp] at hclean
      exact absurd hclean (Session.not_clean_error hp)
    · rw [payload_cons hp] at hclean ⊢
      have hrest := ih (h.unparsed hm hp) hms (Session.clean_append.1 hclean).2
      cases hk : keeps targetLocate m with
      | true => rw [List.filter_cons_of_pos hk, payload_cons hp, hrest]
      | false =>
        obtain ⟨rfl, rfl⟩ := h.skip hm hk hp
        rw [List.filter_cons_of_neg (by simp [hk]), hrest]
        rfl

end Loop

/-! ### Both files -/

section Files

variable {cfg : Params} {sym : String} {targetLocate : ℕ} {s : Top cfg}

/-- The pipeline is on the stock as soon as it is initialised. -/
theorem Tracked.of_initParams {ideal b : Bool} {marketCode : Char} {base : ℤ}
    (h : (Top.new cfg ideal).initParams marketCode sym base = .ok (b, s)) : Tracked sym targetLocate s := by
  obtain ⟨book, -, -, rfl⟩ := initParams_new h
  constructor
  · rfl
  · rfl
  · rfl
  · intro l hl
    cases hl

/-- The packets of a file that end with it carry its messages. -/
theorem payloads_generate {file sessionId : List Byte} (hid : sessionId.length = 10) {batchSizes : List ℕ}
    (h : Framing.EndsEven 1 (streamRawItch file).length batchSizes) :
    payloads .new (generateMoldudpPackets file sessionId batchSizes).1 = some (streamRawItch file) :=
  ((Framing.generateFrom_iff (s := .new) hid (fun _ hm => Framing.isMsg_of_mem_stream hm)
    fun h => absurd h Bool.false_ne_true).2 h).2

/-- **The filtered file stands for the whole one**: if the pipeline takes the messages of the file, and what
concerns the stock carries the locate that is kept, then the messages that are kept have the same results and
leave the same book, whatever the sizes of the packets of both. The session ids have ten bytes, and the
batches end with the messages of either file (`EndsEven`): the generator drops a batch that is not full. -/
theorem filter_preserves {ideal b : Bool} {marketCode : Char} {base : ℤ}
    (hinit : (Top.new cfg ideal).initParams marketCode sym base = .ok (b, s)) {file : List Byte}
    (hfile : ∀ m ∈ streamRawItch file, ChunkAttributed sym targetLocate m)
    {sessionId sessionId' : List Byte} (hid : sessionId.length = 10) (hid' : sessionId'.length = 10)
    {batchSizes batchSizes' : List ℕ} (hsizes : Framing.EndsEven 1 (streamRawItch file).length batchSizes)
    (hsizes' : Framing.EndsEven 1 (streamRawItch (filterItchFile file targetLocate)).length batchSizes')
    (hclean : Clean (outputs s (generateMoldudpPackets file sessionId batchSizes).1)) :
    outputs s (generateMoldudpPackets (filterItchFile file targetLocate) sessionId' batchSizes').1 =
        outputs s (generateMoldudpPackets file sessionId batchSizes).1 ∧
      SameStock
        ((Top.onPkts cfg).run s
          (generateMoldudpPackets (filterItchFile file targetLocate) sessionId' batchSizes').1)
        ((Top.onPkts cfg).run s (generateMoldudpPackets file sessionId batchSizes).1) := by
  obtain ⟨-, hnp⟩ := Session.parsers_of_init hinit
  have hwhole := payloads_generate hid hsizes
  have hfiltered := payloads_generate hid' hsizes'
  rw [← hnp] at hwhole hfiltered
  obtain ⟨hiff, hrun⟩ := payloads_run hwhole
  obtain ⟨-, hrun'⟩ := payloads_run hfiltered
  have hpayload := hiff.1 hclean
  have hsame := (Tracked.of_initParams hinit).filter hfile hpayload
  rw [stream_filterItchFile, hsame] at hrun'
  obtain ⟨hout, hstock⟩ := hrun hpayload
  obtain ⟨hout', hstock'⟩ := hrun' hpayload
  exact ⟨hout'.trans hout.symm, hstock'.trans hstock.symm⟩

end Files

/-! ### A file with a second stock -/

/-- A bid of a stock with the locate 9. -/
def otherBidMsg : List Byte :=
  [0, 36, 65, 0, 9, 0, 0, 0, 0, 0, 0, 0, 0] ++ [0, 0, 0, 0, 0, 0, 0, 1] ++ [66] ++ [0, 0, 0, 100] ++
    [69, 88, 65, 77, 80, 76, 69, 50] ++ [0, 0, 41, 4]

/-- The stock is opened, and a bid is added between two bids of the other stock. -/
def mixedMsgs : List (List Byte) :=
  [Session.openMsg, Session.directoryMsg, Gating.eventMsg 83, Gating.actionMsg 84, otherBidMsg,
    Gating.bidMsg 1, otherBidMsg]

theorem stream_mixed : streamRawItch mixedMsgs.flatten = mixedMsgs :=
  Framing.streamRawItch_flatten (by unfold IsMsg; decide +kernel)

theorem attributed_mixed : ∀ m ∈ mixedMsgs, ChunkAttributed "EXAMPLE1" 7 m := by
  have hparsed : mixedMsgs.map Ref.ITCHParser.parseMsg =
      [.ret [.systemEvent 0 .msgBegin], .ret [.directory 7 "EXAMPLE1"], .ret [.systemEvent 0 .sysBegin],
        .ret [.tradeAction 7 "EXAMPLE1" .trade], .ret [.book (.add 9 1 true 100 10500)],
        .ret [.book (.add 7 1 true 100 10500)], .ret [.book (.add 9 1 true 100 10500)]] := by
    decide +kernel
  intro m hm msgs hmsgs x hx hconcerns
  have hmem : Ref.ITCHParser.parseMsg m ∈ mixedMsgs.map Ref.ITCHParser.parseMsg := List.mem_map_of_mem hm
  rw [hparsed, hmsgs] at hmem
  simp only [List.mem_cons, Ref.Outcome.ret.injEq, List.not_mem_nil, or_false] at hmem
  obtain rfl | rfl | rfl | rfl | rfl | rfl | rfl := hmem <;> obtain rfl := List.mem_singleton.1 hx
  · exact Or.inr rfl
  · exact Or.inl rfl
  · exact Or.inr rfl
  · exact Or.inl rfl
  · cases hconcerns
  · cases hconcerns
  · cases hconcerns

theorem filter_preserves_example :
    streamRawItch (filterItchFile mixedMsgs.flatten 7) = exampleMsgs ∧
      outputs Session.exampleTop
        (generateMoldudpPackets (filterItchFile mixedMsgs.flatten 7) Session.exampleSession [2, 3, 1]).1 =
        [.result ⟨some ⟨100, 10500⟩, none, none⟩] := by
  have hkept : streamRawItch (filterItchFile mixedMsgs.flatten 7) = exampleMsgs := by
    rw [stream_filterItchFile, stream_mixed]
    decide +kernel
  have hwhole : outputs Session.exampleTop
      (generateMoldudpPackets mixedMsgs.flatten Session.exampleSession [4, 3, 1]).1 =
        [.result ⟨some ⟨100, 10500⟩, none, none⟩] := by
    rw [generateMoldudpPackets, stream_mixed]
    decide +kernel
  have hfile : ∀ m ∈ streamRawItch mixedMsgs.flatten, ChunkAttributed "EXAMPLE1" 7 m := by
    rw [stream_mixed]
    exact attributed_mixed
  have hsizes : Framing.EndsEven 1 (streamRawItch mixedMsgs.flatten).length [4, 3, 1] := by
    rw [stream_mixed]
    exact ⟨[4, 3], 1, [], rfl, by decide, rfl, by decide, by decide⟩
  have hsizes' : Framing.EndsEven 1 (streamRawItch (filterItchFile mixedMsgs.flatten 7)).length [2, 3, 1] := by
    rw [hkept]
    exact ⟨[2, 3], 1, [], rfl, by decide, rfl, by decide, by decide⟩
  have hclean : Clean (outputs Session.exampleTop
      (generateMoldudpPackets mixedMsgs.flatten Session.exampleSession [4, 3, 1]).1) := by
    rw [hwhole]
    exact fun out h => ⟨_, List.mem_singleton.1 h⟩
  refine ⟨hkept, ?_⟩
  rw [(filter_preserves Session.exampleTop_init hfile rfl rfl hsizes hsizes' hclean).1, hwhole]

end ItchOrderBook.System
