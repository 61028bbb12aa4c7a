import ItchOrderBook.Framing.Delivery
import ItchOrderBook.Ref.Top

/-!
# The stock locate of the pipeline and of the control module

Both `Top` and its `Control` keep the stock locate. `Control` reports it on every directory message
for the configured symbol; `Top` asserts that it has none yet. So the two agree, and nothing is
raised outside the book, exactly as long as no such message comes while a locate is set
(`synced_iff`).
-/

namespace ItchOrderBook.Session

open Ref

variable {cfg : Params}

/-! ### The messages of a packet that reach the control module -/

/-- The messages that the loop over `msgs` hands on, each with the state it meets. -/
def handledMsgs (s : Top cfg) : List ITCHMsg → List (Top cfg × ITCHMsg)
  | [] => []
  | m :: ms =>
    (s, m) :: match s.processMsg m with
      | (.error _, _) => []
      | (.ok _, s') => handledMsgs s' ms

/-- The messages that the loop over a payload hands on. -/
def handledPayload (s : Top cfg) : List (List Byte) → List (Top cfg × ITCHMsg)
  | [] => []
  | m :: ms =>
    (match ITCHParser.parseMsg m with
      | .ret msgs => handledMsgs s msgs
      | _ => []) ++
    match s.processUnparsed m with
      | (.error _, _) => []
      | (.ok _, s') => handledPayload s' ms

/-- The messages of a packet that are handed on. -/
def handled (s : Top cfg) (pkt : List Byte) : List (Top cfg × ITCHMsg) :=
  match s.np.processPkt pkt with
  | (.ret payload, np) => handledPayload { s with np } payload
  | _ => []

/-- The control module takes the message without an error. -/
def ControlOk (v : Top cfg × ITCHMsg) : Prop := (v.1.ctrl.processMsg v.2).1.IsRet

instance : DecidablePred fun v : Top cfg × ITCHMsg => ControlOk v := fun _ =>
  inferInstanceAs (Decidable (Outcome.IsRet _))

/-- A directory message for the configured symbol comes before a locate is set. -/
def FirstDirectory (v : Top cfg × ITCHMsg) : Prop :=
  ∀ l sym, v.2 = .directory l sym → v.1.ctrl.stockSymbol = some sym → v.1.ctrl.stockLocate = none

/-- The two stock locates are the same. -/
def Synced (s : Top cfg) : Prop := s.stockLocate = s.ctrl.stockLocate

/-- They are after the message. -/
def SyncedAfter (v : Top cfg × ITCHMsg) : Prop := Synced (v.1.processMsg v.2).2

/-- Nothing is raised outside the book. -/
def BookOnly (out : TopOut) : Prop := ∀ o e, out = .raised o e → o = .book

/-- The assertion of `Top`. -/
def DuplicateLocate (out : TopOut) : Prop :=
  out = .raised .top (.assertion "Top-level stock_locate already initialized.")

/-! ### One message -/

/-- A message that the control module takes assigns the locate it reports, if it is a directory
message for the configured symbol, and otherwise reports none. -/
theorem control_locate {s s' : Control} {m : ITCHMsg} {r : ControlResult}
    (h : s.processMsg m = (.ret r, s')) :
    (∃ l sym, m = .directory l sym ∧ s.stockSymbol = some sym ∧ r.stockLocate = some l ∧
      s'.stockLocate = some l ∧ (s.stockLocate = none ∨ s.stockLocate = some l)) ∨
    ((∀ l sym, m = .directory l sym → s.stockSymbol ≠ some sym) ∧ r.stockLocate = none ∧
      s'.stockLocate = s.stockLocate) := by
  have hfin : ∀ (t : Control) (b : Bool) (l x : Option ℕ), t.finish b l = (.ret r, s') →
      t.stockLocate = x → r.stockLocate = l ∧ s'.stockLocate = x := by
    intro t b l x ht hx
    unfold Control.finish at ht
    cases b <;> cases ht
    exact ⟨rfl, hx⟩
  unfold Control.processMsg at h
  split_ifs at h
  · cases h
  cases m with
  | systemEvent l e =>
    refine Or.inr ⟨fun _ _ hm => (nomatch hm), ?_⟩
    cases e <;> simp only [Control.onEvent] at h <;> split_ifs at h <;>
      first | exact hfin _ _ _ _ h rfl | cases h
  | directory l sym =>
    simp only [Control.onDirectory] at h
    split_ifs at h with hsame hmis
    · cases h
    · refine Or.inl ⟨l, sym, rfl, hsame.symm, (hfin _ _ _ _ h rfl).1, (hfin _ _ _ _ h rfl).2, ?_⟩
      by_cases hnone : s.stockLocate = none
      · exact Or.inl hnone
      · exact Or.inr (not_not.1 fun hne => hmis ⟨hnone, fun he => hne he.symm⟩)
    · refine Or.inr ⟨?_, hfin _ _ _ _ h rfl⟩
      intro l' sym' hm he
      cases hm
      exact hsame he.symm
  | tradeAction l sym a =>
    refine Or.inr ⟨fun _ _ hm => (nomatch hm), ?_⟩
    simp only [Control.onAction] at h
    split_ifs at h
    · cases a <;> exact hfin _ _ _ _ h rfl
    · exact hfin _ _ _ _ h rfl
  | opHalt l sym c b =>
    refine Or.inr ⟨fun _ _ hm => (nomatch hm), ?_⟩
    simp only [Control.onHalt] at h
    split_ifs at h
    · cases h
    · exact hfin _ _ _ _ h rfl
    · exact hfin _ _ _ _ h rfl
  | book m => exact Or.inr ⟨fun _ _ hm => (nomatch hm), hfin _ _ _ _ h rfl⟩
  | other l => exact Or.inr ⟨fun _ _ hm => (nomatch hm), hfin _ _ _ _ h rfl⟩

/-- The book stage leaves the locates alone, and only the book raises in it. -/
theorem toBook_keeps (s : Top cfg) (m : ITCHMsg) :
    (s.toBook m).2.stockLocate = s.stockLocate ∧ (s.toBook m).2.ctrl = s.ctrl ∧
      ∀ out, (s.toBook m).1 = .error out → BookOnly out := by
  unfold Top.toBook
  split
  · split
    · refine ⟨rfl, rfl, ?_⟩
      intro out h o e he
      cases h
      cases he
    · split_ifs
      · split
        · refine ⟨rfl, rfl, ?_⟩
          intro out h o e he
          cases h
          cases he
          rfl
        · refine ⟨rfl, rfl, ?_⟩
          intro out h o e he
          cases h
          cases he
        · exact ⟨rfl, rfl, fun out h => nomatch h⟩
      · exact ⟨rfl, rfl, fun out h => nomatch h⟩
  · exact ⟨rfl, rfl, fun out h => nomatch h⟩

/-- **One message.** -/
theorem message_synced {s : Top cfg} (hs : Synced s) {m : ITCHMsg} (hok : ControlOk (s, m)) :
    SyncedAfter (s, m) ∧
    (FirstDirectory (s, m) → ∀ out, (s.processMsg m).1 = .error out → BookOnly out) ∧
    (¬ FirstDirectory (s, m) → ∃ out, (s.processMsg m).1 = .error out ∧ DuplicateLocate out) := by
  obtain ⟨r, hr⟩ := hok
  have hc : s.ctrl.processMsg m = (.ret r, (s.ctrl.processMsg m).2) := Prod.ext hr rfl
  unfold SyncedAfter Top.processMsg
  simp only
  rw [hc]
  dsimp only
  generalize (s.ctrl.processMsg m).2 = ctrl at hc
  rcases control_locate hc with ⟨l, sym, rfl, hsym, hl, hl', hold⟩ | ⟨hno, hl, hl'⟩
  · rw [hl, Top.takeLocate]
    by_cases hset : s.ctrl.stockLocate = none
    · have hset' : s.stockLocate = none := hs.trans hset
      rw [if_neg (not_not.2 hset')]
      obtain ⟨h1, h2, h3⟩ := toBook_keeps
        { s with ctrl, stockActive := r.stockActive, stockLocate := some l } (.directory l sym)
      refine ⟨?_, fun _ => h3, fun h => absurd (fun _ _ _ _ => hset) h⟩
      rw [Synced, h1, h2, hl']
    · have hset' : s.stockLocate ≠ none := fun h => hset (hs.symm.trans h)
      rw [if_pos hset']
      refine ⟨?_, fun h => absurd (h l sym rfl hsym) hset, fun _ => ⟨_, rfl, rfl⟩⟩
      -- the control module only reports the locate again
      have hsame : s.ctrl.stockLocate = some l := hold.resolve_left hset
      rw [Synced, hl', ← hsame]
      exact hs
  · rw [hl, Top.takeLocate]
    obtain ⟨h1, h2, h3⟩ := toBook_keeps { s with ctrl, stockActive := r.stockActive } m
    refine ⟨?_, fun _ => h3, fun h => absurd (fun l sym hm he => absurd he (hno l sym hm)) h⟩
    rw [Synced, h1, h2, hl']
    exact hs

/-! ### The loops -/

/-- What a loop did: the messages handed on, the state at its end, and the outputs it ends with. -/
structure LoopOk (vs : List (Top cfg × ITCHMsg)) (s' : Top cfg) (outs : TopOut → Prop) : Prop where
  after : ∀ v ∈ vs, SyncedAfter v
  synced : Synced s'
  bookOnly : (∀ v ∈ vs, FirstDirectory v) → ∀ out, outs out → BookOnly out
  duplicate : ¬ (∀ v ∈ vs, FirstDirectory v) → ∃ out, outs out ∧ DuplicateLocate out

theorem handledMsgs_cons (s : Top cfg) (m : ITCHMsg) (ms : List ITCHMsg) :
    handledMsgs s (m :: ms) = (s, m) :: match s.processMsg m with
      | (.error _, _) => []
      | (.ok _, s') => handledMsgs s' ms := rfl

/-- The loop over the parsed messages. -/
theorem results_ok {s : Top cfg} (hs : Synced s) (ms : List ITCHMsg) (last : Option BookResult)
    (hok : ∀ v ∈ handledMsgs s ms, ControlOk v) :
    LoopOk (handledMsgs s ms) (s.processResults ms last).2
      fun out => (s.processResults ms last).1 = .error out := by
  induction ms generalizing s last with
  | nil =>
    refine ⟨fun v hv => (nomatch hv), hs, fun _ out h => (nomatch h), fun h => ?_⟩
    exact absurd (fun v hv => nomatch hv) h
  | cons m ms ih =>
    obtain ⟨hafter, honly, hdup⟩ := message_synced hs (hok _ List.mem_cons_self)
    rw [handledMsgs_cons] at hok ⊢
    rw [Top.processResults]
    unfold SyncedAfter at hafter
    simp only at hafter
    rcases hp : s.processMsg m with ⟨out | res, s'⟩
    · -- the message ends the loop
      rw [hp] at hafter honly hdup
      dsimp only
      refine ⟨?_, hafter, fun hfirst => ?_, fun hno => ?_⟩
      · intro v hv
        rw [List.mem_singleton.1 hv, SyncedAfter, hp]
        exact hafter
      · exact honly (hfirst _ List.mem_cons_self)
      · refine hdup fun hfirst => hno fun v hv => ?_
        rw [List.mem_singleton.1 hv]
        exact hfirst
    · rw [hp] at hafter hdup hok
      dsimp only at hok ⊢
      have hrest := ih hafter (res <|> last) fun v hv => hok v (List.mem_cons_of_mem _ hv)
      have hfirst : FirstDirectory (s, m) := by
        by_contra hno
        obtain ⟨out, h, -⟩ := hdup hno
        cases h
      refine ⟨?_, hrest.synced, fun h => ?_, fun hno => ?_⟩
      · intro v hv
        rcases List.mem_cons.1 hv with rfl | hv
        · rw [SyncedAfter, hp]
          exact hafter
        · exact hrest.after v hv
      · exact hrest.bookOnly fun v hv => h v (List.mem_cons_of_mem _ hv)
      · refine hrest.duplicate fun h => hno fun v hv => ?_
        rcases List.mem_cons.1 hv with rfl | hv
        · exact hfirst
        · exact h v hv

/-- The messages of one chunk that are handed on. -/
def handledChunk (s : Top cfg) (m : List Byte) : List (Top cfg × ITCHMsg) :=
  match ITCHParser.parseMsg m with
  | .ret msgs => handledMsgs s msgs
  | _ => []

/-- The parser raises nothing on the chunk. -/
def ParserOk (out : TopOut) : Prop := ∀ e, out ≠ .raised .ip e

theorem chunk_ok {s : Top cfg} (hs : Synced s) (m : List Byte)
    (hok : ∀ v ∈ handledChunk s m, ControlOk v)
    (hip : ∀ out, (s.processUnparsed m).1 = .error out → ParserOk out) :
    LoopOk (handledChunk s m) (s.processUnparsed m).2
      fun out => (s.processUnparsed m).1 = .error out := by
  unfold handledChunk at hok ⊢
  unfold Top.processUnparsed at hip ⊢
  cases hm : ITCHParser.parseMsg m with
  | ret msgs =>
    rw [hm] at hok hip
    dsimp only at hok hip ⊢
    have h := results_ok hs msgs none hok
    rcases hp : s.processResults msgs none with ⟨out | res, s'⟩
    · rw [hp] at h
      refine ⟨h.after, h.synced, fun hfirst out' hout' => ?_, fun hno => ?_⟩
      · cases hout'
        exact h.bookOnly hfirst _ rfl
      · obtain ⟨out', hout', hdup⟩ := h.duplicate hno
        cases hout'
        exact ⟨_, rfl, hdup⟩
    · rw [hp] at h
      refine ⟨h.after, h.synced, fun _ out hout => (nomatch hout), fun hno => ?_⟩
      obtain ⟨out, hout, -⟩ := h.duplicate hno
      cases hout
  | err code =>
    refine ⟨fun v hv => (nomatch hv), hs, fun _ out h => ?_, fun h => ?_⟩
    · cases h
      intro o e he
      cases he
    · exact absurd (fun v hv => nomatch hv) h
  | raise e =>
    rw [hm] at hip
    exact absurd rfl (hip _ rfl e)

/-- The loop over a payload. -/
theorem payload_ok {s : Top cfg} (hs : Synced s) (payload : List (List Byte))
    (hok : ∀ v ∈ handledPayload s payload, ControlOk v)
    (hip : ∀ out ∈ (s.processPayload payload).1, ParserOk out) :
    LoopOk (handledPayload s payload) (s.processPayload payload).2
      fun out => out ∈ (s.processPayload payload).1 := by
  induction payload generalizing s with
  | nil =>
    refine ⟨fun v hv => (nomatch hv), hs, fun _ out h => (nomatch h), fun h => ?_⟩
    exact absurd (fun v hv => nomatch hv) h
  | cons m payload ih =>
    have hcons : handledPayload s (m :: payload) = handledChunk s m ++
        match s.processUnparsed m with
        | (.error _, _) => []
        | (.ok _, s') => handledPayload s' payload := rfl
    rw [hcons] at hok ⊢
    rw [Top.processPayload] at hip ⊢
    have hchunk := chunk_ok hs m (fun v hv => hok v (List.mem_append_left _ hv))
    rcases hp : s.processUnparsed m with ⟨out | res, s'⟩
    · rw [hp] at hip hchunk
      dsimp only at hip ⊢
      have h := hchunk fun out' hout' => hip out' (by rw [Except.error.inj hout']; simp)
      rw [List.append_nil]
      refine ⟨h.after, h.synced, fun hfirst out' hout' => ?_, fun hno => ?_⟩
      · exact h.bookOnly hfirst out' (by rw [List.mem_singleton.1 hout'])
      · obtain ⟨out', hout', hdup⟩ := h.duplicate hno
        exact ⟨out', by rw [Except.error.inj hout']; exact List.mem_singleton_self _, hdup⟩
    · rw [hp] at hok hip hchunk
      dsimp only at hok hip ⊢
      have h := hchunk fun out' hout' => nomatch hout'
      have hrest := ih h.synced (fun v hv => hok v (List.mem_append_right _ hv))
        fun out hout => hip out (List.mem_append_right _ hout)
      have hfirst : ∀ v ∈ handledChunk s m, FirstDirectory v := by
        by_contra hno
        obtain ⟨out, hout, -⟩ := h.duplicate hno
        cases hout
      refine ⟨?_, hrest.synced, fun hall out hout => ?_, fun hno => ?_⟩
      · intro v hv
        rcases List.mem_append.1 hv with hv | hv
        · exact h.after v hv
        · exact hrest.after v hv
      · rcases List.mem_append.1 hout with hout | hout
        · obtain ⟨r, -, rfl⟩ := List.mem_map.1 hout
          intro o e he
          cases he
        · exact hrest.bookOnly (fun v hv => hall v (List.mem_append_right _ hv)) out hout
      · obtain ⟨out, hout, hdup⟩ := hrest.duplicate fun hall => hno fun v hv => by
          rcases List.mem_append.1 hv with hv | hv
          · exact hfirst v hv
          · exact hall v hv
        exact ⟨out, List.mem_append_right _ hout, hdup⟩

/-! ### Packets -/

/-- The messages of the packet that are handed on are taken by the control module, and the parser
raises nothing. -/
def Undisputed (s : Top cfg) (pkt : List Byte) : Prop :=
  (∀ v ∈ handled s pkt, ControlOk v) ∧ ∀ out ∈ (s.processPkt pkt).1, ParserOk out

/-- Nothing is raised outside the book, and the locates are the same after every message. -/
def LocatesAgree (s : Top cfg) (pkt : List Byte) : Prop :=
  (∀ out ∈ (s.processPkt pkt).1, BookOnly out) ∧ ∀ v ∈ handled s pkt, SyncedAfter v

/-- A directory message for the configured symbol only comes before a locate is set. -/
def DirectoryOnce (s : Top cfg) (pkt : List Byte) : Prop := ∀ v ∈ handled s pkt, FirstDirectory v

theorem packet_ok {s : Top cfg} (hs : Synced s) (pkt : List Byte) (h : Undisputed s pkt) :
    LoopOk (handled s pkt) (s.processPkt pkt).2 fun out => out ∈ (s.processPkt pkt).1 := by
  obtain ⟨hok, hip⟩ := h
  unfold handled at hok ⊢
  unfold Top.processPkt at hip ⊢
  have hquiet : ∀ (np : MoldUDP64Parser) (out : TopOut), BookOnly out →
      LoopOk ([] : List (Top cfg × ITCHMsg)) { s with np } fun o => o ∈ [out] := by
    intro np out hout
    refine ⟨fun v hv => (nomatch hv), hs, fun _ o ho => ?_, fun h => ?_⟩
    · rw [List.mem_singleton.1 ho]
      exact hout
    · exact absurd (fun v hv => nomatch hv) h
  have herr : ∀ c np, s.np.processPkt pkt = (.err c, np) →
      LoopOk (match s.np.processPkt pkt with
        | (.ret payload, np) => handledPayload { s with np } payload
        | _ => []) (s.processPkt pkt).2 fun out => out ∈ (s.processPkt pkt).1 := by
    intro c np hp
    unfold Top.processPkt
    rw [hp]
    exact hquiet np _ fun o e he => nomatch he
  rcases Framing.processPkt_spec s.np pkt with ⟨-, c, hp⟩ | ⟨-, -, c, hp⟩ | ⟨-, -, -, c, hp⟩ |
    ⟨-, -, payload, -, hp⟩
  · exact herr c _ hp
  · exact herr c _ hp
  · exact herr c _ hp
  · rw [hp] at hok hip ⊢
    have hs' : Synced { s with np := Framing.advanced s.np pkt } := hs
    exact payload_ok hs' payload hok hip

/-- Runs from a state whose locates are the same. -/
theorem synced_run {s : Top cfg} (hs : Synced s) {pkts : List (List Byte)}
    (hok : (Top.onPkts cfg).Along Undisputed s pkts) :
    (Top.onPkts cfg).Along LocatesAgree s pkts ↔ (Top.onPkts cfg).Along DirectoryOnce s pkts := by
  refine Circuit.along_iff Synced ?_ ?_ hs hok
  · intro s pkt hs hpkt honce
    have h := packet_ok hs pkt hpkt
    exact ⟨⟨h.bookOnly honce, h.after⟩, h.synced⟩
  · intro s pkt hs hpkt hmore hagree
    obtain ⟨out, hout, hdup⟩ := (packet_ok hs pkt hpkt).duplicate hmore
    cases hagree.1 out hout _ _ hdup

theorem synced_of_init {ideal b : Bool} {marketCode : Char} {stockSymbol : String} {priceBase : ℤ}
    {s : Top cfg}
    (hinit : (Top.new cfg ideal).initParams marketCode stockSymbol priceBase = .ok (b, s)) :
    Synced s := by
  unfold Top.initParams at hinit
  split at hinit
  · cases hinit
  · rename_i ctrl hctrl
    split at hinit
    · cases hinit
    · cases hinit
      unfold Control.initParams at hctrl
      split_ifs at hctrl
      cases hctrl
      rfl

/-- **The stock locates over a run.** On every stream of packets that the parser takes and whose
messages the control module takes, nothing is raised outside the book and the locates agree after
every message if and only if every directory message for the configured symbol comes before a locate
is set. -/
theorem synced_iff {ideal b : Bool} {marketCode : Char} {stockSymbol : String} {priceBase : ℤ}
    {s : Top cfg}
    (hinit : (Top.new cfg ideal).initParams marketCode stockSymbol priceBase = .ok (b, s))
    {pkts : List (List Byte)} (hok : (Top.onPkts cfg).Along Undisputed s pkts) :
    (Top.onPkts cfg).Along LocatesAgree s pkts ↔ (Top.onPkts cfg).Along DirectoryOnce s pkts :=
  synced_run (synced_of_init hinit) hok

/-- A packet of a session, with the sequence number in one byte. -/
def examplePkt (seq count : Byte) (msgs : List (List Byte)) : List Byte :=
  [84, 69, 83, 84, 95, 68, 82, 67, 84, 89] ++ [0, 0, 0, 0, 0, 0, 0, seq] ++ [0, count] ++ msgs.flatten

/-- The event that opens the message hours. -/
def openMsg : List Byte := [0, 12, 83, 0, 0, 0, 0, 0, 0, 0, 0, 0, 0, 79]

/-- The directory message that gives the symbol `EXAMPLE1` the locate 7. -/
def directoryMsg : List Byte :=
  [0, 39, 82, 0, 7, 0, 0, 0, 0, 0, 0, 0, 0] ++ [69, 88, 65, 77, 80, 76, 69, 49] ++
    List.replicate 20 0

/-- An initialised pipeline. -/
def exampleTop : Top {} :=
  match (Top.new {} false).initParams 'B' "EXAMPLE1" 10000 with
  | .ok (_, s) => s
  | .error _ => .new {} false

theorem exampleTop_init :
    (Top.new {} false).initParams 'B' "EXAMPLE1" 10000 = .ok (false, exampleTop) := by
  have hflag : (match (Top.new {} false).initParams 'B' "EXAMPLE1" 10000 with
      | .ok (initError, _) => initError
      | .error _ => true) = false := by decide +kernel
  unfold exampleTop
  cases h : (Top.new {} false).initParams 'B' "EXAMPLE1" 10000 with
  | error e =>
    rw [h] at hflag
    cases hflag
  | ok r =>
    rw [h] at hflag
    exact congrArg Except.ok (Prod.ext hflag rfl)

theorem undisputed_of_outs {s : Top {}} {pkt : List Byte}
    (hok : ∀ v ∈ handled s pkt, ControlOk v) {outs : List TopOut} (houts : (s.processPkt pkt).1 = outs)
    (hip : ∀ out ∈ outs, ParserOk out) : Undisputed s pkt := ⟨hok, houts ▸ hip⟩

theorem synced_iff_directory :
    (Top.onPkts {}).Along LocatesAgree exampleTop [examplePkt 1 2 [openMsg, directoryMsg]] ↔
      (Top.onPkts {}).Along DirectoryOnce exampleTop [examplePkt 1 2 [openMsg, directoryMsg]] := by
  refine synced_iff exampleTop_init (Circuit.along_cons.2 ⟨?_, Circuit.along_nil⟩)
  refine undisputed_of_outs (by decide +kernel)
    (show (exampleTop.processPkt _).1 = [] by decide +kernel) ?_
  intro out hout
  cases hout

/-- The directory message is sent twice. -/
theorem directoryTwice_raises :
    (Top.new {} false).initParams 'B' "EXAMPLE1" 10000 = .ok (false, exampleTop) ∧
      (Top.onPkts {}).Along Undisputed exampleTop
        [examplePkt 1 3 [openMsg, directoryMsg, directoryMsg]] ∧
      (exampleTop.processPkt (examplePkt 1 3 [openMsg, directoryMsg, directoryMsg])).1 =
        [.raised .top (.assertion "Top-level stock_locate already initialized.")] ∧
      ¬ (Top.onPkts {}).Along LocatesAgree exampleTop
        [examplePkt 1 3 [openMsg, directoryMsg, directoryMsg]] := by
  have houts : (exampleTop.processPkt (examplePkt 1 3 [openMsg, directoryMsg, directoryMsg])).1 =
      [.raised .top (.assertion "Top-level stock_locate already initialized.")] := by
    decide +kernel
  refine ⟨exampleTop_init, Circuit.along_cons.2 ⟨?_, Circuit.along_nil⟩, houts, fun h => ?_⟩
  · refine undisputed_of_outs (by decide +kernel) houts ?_
    intro out hout e he
    rw [List.mem_singleton.1 hout] at he
    cases he
  · have hraised := (Circuit.along_cons.1 h).1.1 _ (houts ▸ List.mem_singleton_self _)
    cases hraised _ _ rfl

end ItchOrderBook.Session
