import Z1Kv.Store.GatedEffects

/-! The calls on the gated layers take effect one after the other. A read takes effect when
it looks at L1, a put when it enters the hot buffer, a flush and a compaction when they
leave the gate; puts that came in after a flush took the hot buffer count as later than the
flush, those that came in during a compaction as later than the compaction. -/
namespace Z1Kv

section Specs
variable {a b s : Store}

theorem layerSpec_flush {writes : Nat → PatchOutcome} {result : Except Z1Error Nat}
    (h : a.flushL1ToL2 writes = (result, b)) :
    LayerSpec a (.flushL1ToL2 fun _ => ()) (result.map LayerReply.flushed) b := by
  have hStep : a.layerStep (.flushL1ToL2 writes) = (result.map LayerReply.flushed, b) := by
    rw [Store.layerStep, h]
    cases result <;> rfl
  have hSpec := LayerSpec.answers (s := a) (LayerOp.SameCall.flushL1ToL2 (fun _ => ()) writes)
  rwa [hStep] at hSpec

theorem layerSpec_compact {writes : Nat → PatchOutcome} {minActiveBeginTs : TxnId}
    {result : Except Z1Error (Nat × Nat)} (h : a.compactL2ToL3 writes minActiveBeginTs = (result, b)) :
    LayerSpec a (.compactL2ToL3 (fun _ => ()) minActiveBeginTs) (result.map LayerReply.compacted) b := by
  have hStep : a.layerStep (.compactL2ToL3 writes minActiveBeginTs) =
      (result.map LayerReply.compacted, b) := by
    rw [Store.layerStep, h]
    cases result <;> rfl
  have hSpec := LayerSpec.answers (s := a)
    (LayerOp.SameCall.compactL2ToL3 (fun _ => ()) writes minActiveBeginTs)
  rwa [hStep] at hSpec

theorem Store.Ahead.layerSpec_get (h : a.Ahead [] s) (call : ReadCall) :
    LayerSpec a (.getAt call.snap call.cf call.key)
      (.ok (.value (s.getAt call.snap call.cf call.key))) a := by
  rw [h.getAt]
  exact .answers (.getAt call.snap call.cf call.key)

theorem Store.Ahead.layerSpec_scan (h : a.Ahead [] s) (call : ScanCall) :
    LayerSpec a (.scanAt call.snap call.cf call.start call.endKey)
      (.ok (.pairs (s.scanAt call.snap call.cf call.start call.endKey))) a := by
  rw [h.scanAt]
  exact .answers (.scanAt call.snap call.cf call.start call.endKey)

end Specs

/-- What a step of a flush or of a compaction does. -/
inductive WriterEffect (i : Nat) (call : GatedCall) (s : Store) (gate : MigrationGate) :
    GatedCall → Store → MigrationGate → Prop
  | enters {call' : GatedCall} (hAnswer : call.answer s = none) (hAfter : call'.writes = true)
      (hReaders : gate.readers = ∅) (hWriter : gate.writer = none)
      (hFollows : ∀ a, call'.Follows a a) :
      WriterEffect i call s gate call' s { gate with writer := some i }
  | works {call' : GatedCall} {s' : Store} (hBefore : call.writes = true)
      (hAfter : call'.writes = true) (hTaken : call'.atTake = false)
      (hAhead : ∀ b puts, b.Ahead puts s → (call.atTake = true → puts = []) →
        ∃ b', b'.Ahead puts s' ∧ ∀ a, call.Follows a b → call'.Follows a b') :
      WriterEffect i call s gate call' s' gate
  | leaves {call' : GatedCall} {op : ClientOp} {ret : ClientReply} (hBefore : call.writes = true)
      (hAfter : call'.writes = false) (hOp : call.op = some op) (hAnswer : call'.answer s = some ret)
      (hSpec : ∀ a b, call.Follows a b → LayerSpec a op ret b) :
      WriterEffect i call s gate call' s { gate with writer := none }

theorem FlushStep.effect {i : Nat} {phase phase' : FlushPhase} {s s' : Store} {gate gate' : MigrationGate}
    (h : FlushStep i (phase, s, gate) (phase', s', gate')) :
    WriterEffect i (.flushL1ToL2 phase) s gate (.flushL1ToL2 phase') s' gate' := by
  have hAhead : ∀ b puts, b.Ahead puts s → (GatedCall.atTake (.flushL1ToL2 phase) = true → puts = []) →
      ∃ b', b'.Ahead puts s' ∧ ∀ a, phase.Follows a b → phase'.Follows a b' := by
    intro b puts hAhead hTake
    obtain ⟨b', hStep, hAfter⟩ := h.ahead hAhead fun hGated => hTake (by rw [hGated]; rfl)
    exact ⟨b', hAfter, fun a hFollows => hStep.follows hFollows⟩
  cases h with
  | enter _ _ hReaders hWriter => exact .enters rfl rfl hReaders hWriter fun a => rfl
  | leave =>
      refine .leaves rfl rfl rfl rfl fun a b hFollows => ?_
      obtain ⟨writes, hFlush⟩ := hFollows
      exact layerSpec_flush hFlush
  | leaveFailed =>
      refine .leaves rfl rfl rfl rfl fun a b hFollows => ?_
      obtain ⟨writes, hFlush⟩ := hFollows
      exact layerSpec_flush hFlush
  | _ => exact .works rfl rfl rfl hAhead

theorem CompactStep.effect {i : Nat} {minActiveBeginTs : TxnId} {phase phase' : CompactPhase}
    {s s' : Store} {gate gate' : MigrationGate}
    (h : CompactStep i minActiveBeginTs (phase, s, gate) (phase', s', gate')) :
    WriterEffect i (.compactL2ToL3 minActiveBeginTs phase) s gate
      (.compactL2ToL3 minActiveBeginTs phase') s' gate' := by
  have hAhead : ∀ b puts, b.Ahead puts s →
      (GatedCall.atTake (.compactL2ToL3 minActiveBeginTs phase) = true → puts = []) →
      ∃ b', b'.Ahead puts s' ∧
        ∀ a, phase.Follows minActiveBeginTs a b → phase'.Follows minActiveBeginTs a b' := by
    intro b puts hAhead _
    obtain ⟨b', hStep, hAfter⟩ := h.ahead hAhead
    exact ⟨b', hAfter, fun a hFollows => hStep.follows hFollows⟩
  cases h with
  | enter _ _ hReaders hWriter => exact .enters rfl rfl hReaders hWriter fun a => rfl
  | leave =>
      refine .leaves rfl rfl rfl rfl fun a b hFollows => ?_
      obtain ⟨writes, hCompact⟩ := Continues.done hFollows
      exact layerSpec_compact hCompact
  | leaveFailed =>
      refine .leaves rfl rfl rfl rfl fun a b hFollows => ?_
      obtain ⟨writes, hCompact⟩ := hFollows
      exact layerSpec_compact hCompact
  | _ => exact .works rfl rfl rfl hAhead

/-- What a step of a read does. -/
inductive ReaderEffect (i : Nat) (call : GatedCall) (s : Store) (gate : MigrationGate) :
    GatedCall → MigrationGate → Prop
  | enters {call' : GatedCall} (hWriter : gate.writer = none) (hSame : call'.answer s = call.answer s) :
      ReaderEffect i call s gate call' { gate with readers := insert i gate.readers }
  | looks {call' : GatedCall} {op : ClientOp} {ret : ClientReply} (hBefore : call.reads = true)
      (hOp : call.op = some op) (hWaiting : call.answer s = none) (hAnswer : call'.answer s = some ret)
      (hSpec : ∀ a, a.Ahead [] s → LayerSpec a op ret a) :
      ReaderEffect i call s gate call' gate
  | goes {call' : GatedCall} (hBefore : call.reads = true) (hSame : call'.answer s = call.answer s) :
      ReaderEffect i call s gate call' gate
  | leaves {call' : GatedCall} (hAfter : call'.reads = false) (hSame : call'.answer s = call.answer s) :
      ReaderEffect i call s gate call' { gate with readers := gate.readers.erase i }

theorem ReadStep.effect {s : Store} {i : Nat} {call : ReadCall} {phase phase' : ReadPhase}
    {gate gate' : MigrationGate} (h : ReadStep s i (phase, gate) (phase', gate'))
    (hServes : phase'.Serves call) :
    ReaderEffect i (.getAt call phase) s gate (.getAt call phase') gate' := by
  cases h with
  | enter _ _ hWriter => exact .enters hWriter rfl
  | l1 _ own =>
      obtain rfl : own = call := hServes
      exact .looks rfl rfl rfl rfl fun a hAhead => hAhead.layerSpec_get own
  | leave => exact .leaves rfl rfl
  | _ => exact .goes rfl rfl

theorem ScanStep.effect {s : Store} {i : Nat} {call : ScanCall} {phase phase' : ScanPhase}
    {gate gate' : MigrationGate} (h : ScanStep s i call (phase, gate) (phase', gate')) :
    ReaderEffect i (.scanAt call phase) s gate (.scanAt call phase') gate' := by
  cases h with
  | enter _ hWriter => exact .enters hWriter rfl
  | l1 =>
      refine .looks rfl rfl rfl ?_ fun a hAhead => hAhead.layerSpec_scan call
      rw [GatedCall.answer, ScanPhase.found_readL1]
      rfl
  | cache _ best =>
      refine .goes rfl ?_
      rw [GatedCall.answer, GatedCall.answer, ScanPhase.found_readCache]
  | l2 _ best =>
      refine .goes rfl ?_
      rw [GatedCall.answer, GatedCall.answer, ScanPhase.found_readL2]
  | l3 => exact .goes rfl rfl
  | leave => exact .leaves rfl rfl

/-- Puts that have taken effect or failed, with the entries they have inserted. -/
inductive PutsOnly : List (Answered ClientOp ClientReply) → List Z1Entry → Prop
  | nil : PutsOnly [] []
  | inserted {late : List (Answered ClientOp ClientReply)} {puts : List Z1Entry}
      (h : PutsOnly late puts) (i : Nat) (e : Z1Entry) :
      PutsOnly (late ++ [⟨i, .put e, .ok .inserted⟩]) (puts ++ [e])
  | failed {late : List (Answered ClientOp ClientReply)} {puts : List Z1Entry}
      (h : PutsOnly late puts) (i : Nat) (e : Z1Entry) (err : Z1Error) :
      PutsOnly (late ++ [⟨i, .put e, .error err⟩]) puts

theorem PutsOnly.eq_nil {puts : List Z1Entry} (h : PutsOnly [] puts) : puts = [] := by
  generalize hLate : ([] : List (Answered ClientOp ClientReply)) = late at h
  cases h with
  | nil => rfl
  | inserted => simp at hLate
  | failed => simp at hLate

theorem PutsOnly.legal {late : List (Answered ClientOp ClientReply)} {puts : List Z1Entry}
    (h : PutsOnly late puts) (b : Store) : Legal LayerSpec b late (b.replayAll puts) := by
  induction h with
  | nil => exact .nil b
  | inserted _ i e ih =>
      rw [Store.replayAll, List.foldl_append]
      exact ih.concat (.answers (.put e))
  | failed _ i e err ih => exact ih.concat (.logFails e err)

namespace GatedStore

/-- Who is at work holds the gate, and nobody reads beside a writer. -/
structure Gates (g : GatedStore) : Prop where
  reads : ∀ i, (g.calls i).reads = true → i ∈ g.gate.readers
  writes : ∀ i, (g.calls i).writes = true → g.gate.writer = some i
  apart : g.gate.writer ≠ none → g.gate.readers = ∅

/-- What the clients have seen of the call `i`, and its place in the order. -/
structure Traced (g : GatedStore) (order : List (Answered ClientOp ClientReply)) (i : Nat) : Prop where
  unused : g.calls i = .unused → ∀ op, .invoke i op ∉ g.history
  invoked : ∀ op, (g.calls i).op = some op → .invoke i op ∈ g.history
  pending : g.calls i ≠ .done → ∀ ret, .respond i ret ∉ g.history
  answered : ∀ ret, (g.calls i).answer g.store = some ret →
    ∃ op, (g.calls i).op = some op ∧ ⟨i, op, ret⟩ ∈ order
  waiting : g.calls i ≠ .done → (g.calls i).answer g.store = none → i ∉ order.map Answered.id

/-- The order leads from `start` to `a`; the flush or compaction at work has made `b` of
that, and the late puts come on top. -/
structure Placed (start : Store) (g : GatedStore) (order late : List (Answered ClientOp ClientReply))
    (puts : List Z1Entry) (a b : Store) : Prop where
  orders : Orders g.history (order ++ late)
  legal : Legal LayerSpec start order a
  latePuts : PutsOnly late puts
  ahead : b.Ahead puts g.store
  settled : g.gate.writer = none → late = [] ∧ b = a
  working : ∀ w, g.gate.writer = some w → (g.calls w).writes = true
  follows : ∀ w, g.gate.writer = some w → (g.calls w).Follows a b
  taken : ∀ w, g.gate.writer = some w → (g.calls w).atTake = true → late = []
  overlaps : ∀ w, g.gate.writer = some w → ∀ call ∈ late, ¬ PrecedesIn g.history call.id w

/-- The order of the calls so far, those that may have to wait for a place at its end. -/
def Explained (start : Store) (g : GatedStore) : Prop :=
  g.Gates ∧ ∃ order late puts a b,
    g.Placed start order late puts a b ∧ ∀ i, g.Traced (order ++ late) i

section Moved
variable {start : Store} {g : GatedStore} {i : Nat} {call' : GatedCall} {s' : Store}
  {gate' : MigrationGate} {order order' late : List (Answered ClientOp ClientReply)}
  {puts : List Z1Entry} {a a' b : Store} {op : ClientOp} {ret : ClientReply}

theorem moved_calls_self : (g.moved i call' s' gate').calls i = call' := Function.update_self ..

theorem moved_calls_ne {j : Nat} (h : j ≠ i) : (g.moved i call' s' gate').calls j = g.calls j :=
  Function.update_of_ne h ..

theorem Gates.moved (h : g.Gates) (hReads : call'.reads = true → i ∈ gate'.readers)
    (hWrites : call'.writes = true → gate'.writer = some i)
    (hReaders : ∀ j, j ≠ i → j ∈ g.gate.readers → j ∈ gate'.readers)
    (hWriter : ∀ j, j ≠ i → g.gate.writer = some j → gate'.writer = some j)
    (hApart : gate'.writer ≠ none → gate'.readers = ∅) : (g.moved i call' s' gate').Gates where
  reads j hj := by
    by_cases hSame : j = i
    · subst hSame
      rw [moved_calls_self] at hj
      exact hReads hj
    · rw [moved_calls_ne hSame] at hj
      exact hReaders j hSame (h.reads j hj)
  writes j hj := by
    by_cases hSame : j = i
    · subst hSame
      rw [moved_calls_self] at hj
      exact hWrites hj
    · rw [moved_calls_ne hSame] at hj
      exact hWriter j hSame (h.writes j hj)
  apart := hApart

/-- A call that wants nothing of the gate. -/
theorem Gates.beside (h : g.Gates) (hReads : call'.reads = false) (hWrites : call'.writes = false) :
    (g.moved i call' s' g.gate).Gates := by
  refine h.moved ?_ ?_ (fun j _ hj => hj) (fun j _ hj => hj) h.apart
  · rw [hReads]
    exact fun hNo => nomatch hNo
  · rw [hWrites]
    exact fun hNo => nomatch hNo

/-- While a writer is at work no read depends on what it does. -/
theorem Gates.answer_eq (h : g.Gates) (hWriting : g.gate.writer ≠ none) (j : Nat) (s' : Store) :
    (g.calls j).answer s' = (g.calls j).answer g.store := by
  apply GatedCall.answer_of_not_reads
  by_contra hReads
  have hIn := h.reads j (by simpa using hReads)
  rw [h.apart hWriting] at hIn
  cases hIn

/-- A call that has been invoked and has not taken effect. -/
theorem Traced.fresh (h : g.Traced order i) (hOp : (g.calls i).op = some op)
    (hWaiting : (g.calls i).answer g.store = none) :
    .invoke i op ∈ g.history ∧ (∀ ret, .respond i ret ∉ g.history) ∧ i ∉ order.map Answered.id := by
  have hOpen : g.calls i ≠ .done := by
    intro hDone
    rw [hDone] at hOp
    cases hOp
  exact ⟨h.invoked op hOp, h.pending hOpen, h.waiting hOpen hWaiting⟩

/-- One call moves; the others keep their answers, and at most this call is new in the
order. -/
theorem Traced.moved (h : ∀ j, g.Traced order j) (hOp : (g.calls i).op = some op)
    (hOp' : call'.op = some op)
    (hOthers : ∀ j, j ≠ i → (g.calls j).answer s' = (g.calls j).answer g.store)
    (hOrder : ∀ call, call ∈ order' → call ∈ order ∨ call.id = i)
    (hKept : ∀ call ∈ order, call ∈ order')
    (hAnswered : ∀ ret, call'.answer s' = some ret → ⟨i, op, ret⟩ ∈ order')
    (hWaiting : call'.answer s' = none → i ∉ order'.map Answered.id) (j : Nat) :
    (g.moved i call' s' gate').Traced order' j := by
  by_cases hSame : j = i
  · subst hSame
    have hOpen : g.calls j ≠ .done := by
      intro hDone
      rw [hDone] at hOp
      cases hOp
    constructor
    · rw [moved_calls_self]
      rintro rfl
      cases hOp'
    · intro other hOther
      rw [moved_calls_self, hOp'] at hOther
      exact Option.some.inj hOther ▸ (h j).invoked op hOp
    · exact fun _ => (h j).pending hOpen
    · intro ret hRet
      rw [moved_calls_self] at hRet ⊢
      exact ⟨op, hOp', hAnswered ret hRet⟩
    · intro _ hNone
      rw [moved_calls_self] at hNone
      exact hWaiting hNone
  · have hCall := @moved_calls_ne g i call' s' gate' j hSame
    constructor
    · rw [hCall]
      exact (h j).unused
    · rw [hCall]
      exact (h j).invoked
    · rw [hCall]
      exact (h j).pending
    · intro ret hRet
      rw [hCall] at hRet ⊢
      obtain ⟨other, hOther, hIn⟩ := (h j).answered ret ((hOthers j hSame).symm.trans hRet)
      exact ⟨other, hOther, hKept _ hIn⟩
    · intro hOpen hNone hIn
      rw [hCall] at hOpen hNone
      obtain ⟨call, hCallIn, hId⟩ := List.mem_map.mp hIn
      rcases hOrder call hCallIn with hOld | hNew
      · exact (h j).waiting hOpen ((hOthers j hSame).symm.trans hNone) (List.mem_map.mpr ⟨call, hOld, hId⟩)
      · exact hSame (hId.symm.trans hNew)

/-- The call moves on without taking effect. -/
theorem Traced.silent (h : ∀ j, g.Traced order j) (hOp : (g.calls i).op = some op)
    (hOp' : call'.op = some op)
    (hOthers : ∀ j, j ≠ i → (g.calls j).answer s' = (g.calls j).answer g.store)
    (hSame : call'.answer s' = (g.calls i).answer g.store) (j : Nat) :
    (g.moved i call' s' gate').Traced order j := by
  refine Traced.moved h hOp hOp' hOthers (fun call hCall => Or.inl hCall) (fun call hCall => hCall) ?_ ?_ j
  · intro ret hRet
    obtain ⟨other, hOther, hIn⟩ := (h i).answered ret (hSame.symm.trans hRet)
    rw [hOp] at hOther
    exact Option.some.inj hOther ▸ hIn
  · intro hNone
    refine (h i).waiting ?_ (hSame.symm.trans hNone)
    intro hDone
    rw [hDone] at hOp
    cases hOp

/-- The call takes effect. -/
theorem Traced.placed {first second : List (Answered ClientOp ClientReply)}
    (h : ∀ j, g.Traced (first ++ second) j) (hOp : (g.calls i).op = some op) (hOp' : call'.op = some op)
    (hOthers : ∀ j, j ≠ i → (g.calls j).answer s' = (g.calls j).answer g.store)
    (hAnswer : call'.answer s' = some ret) (j : Nat) :
    (g.moved i call' s' gate').Traced (first ++ ⟨i, op, ret⟩ :: second) j := by
  refine Traced.moved h hOp hOp' hOthers ?_ ?_ ?_ ?_ j
  · intro call hCall
    simp only [List.mem_append, List.mem_cons] at hCall ⊢
    rcases hCall with hFirst | rfl | hSecond
    · exact Or.inl (Or.inl hFirst)
    · exact Or.inr rfl
    · exact Or.inl (Or.inr hSecond)
  · intro call hCall
    simp only [List.mem_append, List.mem_cons] at hCall ⊢
    rcases hCall with hFirst | hSecond
    · exact Or.inl hFirst
    · exact Or.inr (Or.inr hSecond)
  · intro other hOther
    rw [hAnswer] at hOther
    obtain rfl := Option.some.inj hOther
    simp
  · intro hNone
    rw [hAnswer] at hNone
    cases hNone

/-- A call that is neither a flush nor a compaction does not hold the write side. -/
theorem Placed.writer_ne (h : g.Placed start order late puts a b) (hOther : (g.calls i).writes = false)
    {w : Nat} (hWriter : g.gate.writer = some w) : w ≠ i := by
  rintro rfl
  exact nomatch hOther.symm.trans (h.working w hWriter)

/-- A put or a read moves on. -/
theorem Placed.beside (h : g.Placed start order late puts a b) (hOther : (g.calls i).writes = false)
    (hWriter : gate'.writer = g.gate.writer) (hAhead : b.Ahead puts s') :
    (g.moved i call' s' gate').Placed start order late puts a b where
  orders := h.orders
  legal := h.legal
  latePuts := h.latePuts
  ahead := hAhead
  settled hNone := h.settled (hWriter.symm.trans hNone)
  working w hw := by
    have hw := hWriter.symm.trans hw
    rw [moved_calls_ne (h.writer_ne hOther hw)]
    exact h.working w hw
  follows w hw := by
    have hw := hWriter.symm.trans hw
    rw [moved_calls_ne (h.writer_ne hOther hw)]
    exact h.follows w hw
  taken w hw := by
    have hw := hWriter.symm.trans hw
    rw [moved_calls_ne (h.writer_ne hOther hw)]
    exact h.taken w hw
  overlaps w hw := h.overlaps w (hWriter.symm.trans hw)

/-- A put or a read takes effect on layers nobody has begun to change. -/
theorem Placed.next (h : g.Placed start order [] [] a a) (hTraced : g.Traced (order ++ []) i)
    (hOther : (g.calls i).writes = false) (hOp : (g.calls i).op = some op)
    (hWaiting : (g.calls i).answer g.store = none) (hSpec : LayerSpec a op ret a')
    (hAhead : a'.Ahead [] s') (hFollows : ∀ w, g.gate.writer = some w → (g.calls w).Follows a' a') :
    (g.moved i call' s' g.gate).Placed start (order ++ [⟨i, op, ret⟩]) [] [] a' a' where
  orders := by
    obtain ⟨hInvoked, hPending, hNew⟩ := hTraced.fresh hOp hWaiting
    rw [List.append_nil] at hNew ⊢
    have hOrders := h.orders
    rw [List.append_nil] at hOrders
    exact hOrders.concat hInvoked hPending hNew
  legal := h.legal.concat hSpec
  latePuts := .nil
  ahead := hAhead
  settled _ := ⟨rfl, rfl⟩
  working w hw := by
    rw [moved_calls_ne (h.writer_ne hOther hw)]
    exact h.working w hw
  follows w hw := by
    rw [moved_calls_ne (h.writer_ne hOther hw)]
    exact hFollows w hw
  taken _ _ _ := rfl
  overlaps := by simp

/-- A put takes effect beside a writer, and counts as later. -/
theorem Placed.later {puts' : List Z1Entry} (h : g.Placed start order late puts a b)
    (hTraced : g.Traced (order ++ late) i) (hOther : (g.calls i).writes = false)
    (hOp : (g.calls i).op = some op) (hWaiting : (g.calls i).answer g.store = none)
    (hPuts : PutsOnly (late ++ [⟨i, op, ret⟩]) puts') (hAhead : b.Ahead puts' s') {w : Nat}
    (hWriter : g.gate.writer = some w) (hTaken : (g.calls w).atTake = false) :
    (g.moved i call' s' g.gate).Placed start order (late ++ [⟨i, op, ret⟩]) puts' a b where
  orders := by
    obtain ⟨hInvoked, hPending, hNew⟩ := hTraced.fresh hOp hWaiting
    rw [← List.append_assoc]
    exact h.orders.concat hInvoked hPending hNew
  legal := h.legal
  latePuts := hPuts
  ahead := hAhead
  settled hNone := nomatch hWriter.symm.trans hNone
  working other hOwn := by
    rw [moved_calls_ne (h.writer_ne hOther hOwn)]
    exact h.working other hOwn
  follows other hOwn := by
    rw [moved_calls_ne (h.writer_ne hOther hOwn)]
    exact h.follows other hOwn
  taken other hOwn hTake := by
    obtain rfl : other = w := Option.some.inj (hOwn.symm.trans hWriter)
    rw [moved_calls_ne (h.writer_ne hOther hOwn), hTaken] at hTake
    cases hTake
  overlaps other hOwn call hCall := by
    rcases List.mem_append.mp hCall with hOld | hNew
    · exact h.overlaps other hOwn call hOld
    · obtain rfl := List.mem_singleton.mp hNew
      intro hBefore
      obtain ⟨ret, hRet⟩ := hBefore.responded
      exact (hTraced.fresh hOp hWaiting).2.1 ret hRet

theorem follows_of_atTake {call : GatedCall} (h : call.atTake = true) (hFollows : call.Follows a b) :
    b = a ∧ ∀ c, call.Follows c c := by
  cases call with
  | flushL1ToL2 phase =>
      cases phase with
      | gated => exact ⟨hFollows, fun c => rfl⟩
      | _ => cases h
  | _ => cases h

/-- Either the next put comes next in the order, or a writer has taken what it works on. -/
theorem Placed.open_or_taken (h : g.Placed start order late puts a b) :
    (late = [] ∧ puts = [] ∧ b = a ∧ ∀ w, g.gate.writer = some w → ∀ c, (g.calls w).Follows c c) ∨
      ∃ w, g.gate.writer = some w ∧ (g.calls w).atTake = false := by
  cases hWriter : g.gate.writer with
  | none =>
      obtain ⟨rfl, rfl⟩ := h.settled hWriter
      exact Or.inl ⟨rfl, h.latePuts.eq_nil, rfl, fun w hw => nomatch hw⟩
  | some w =>
      cases hTake : (g.calls w).atTake with
      | false => exact Or.inr ⟨w, rfl, hTake⟩
      | true =>
          obtain rfl := h.taken w hWriter hTake
          obtain ⟨hSame, hAny⟩ := follows_of_atTake hTake (h.follows w hWriter)
          refine Or.inl ⟨rfl, h.latePuts.eq_nil, hSame, fun own hOwn => ?_⟩
          exact Option.some.inj hOwn ▸ hAny

end Moved

section Steps
variable {start : Store} {g : GatedStore} {i : Nat}

theorem Explained.initial (start : Store) : Explained start { store := start } := by
  have hGates : Gates { store := start } :=
    { reads := fun i hi => nomatch hi
      writes := fun i hi => nomatch hi
      apart := fun hSome => absurd rfl hSome }
  have hPlaced : Placed start { store := start } [] [] [] start start :=
    { orders := .nil
      legal := .nil start
      latePuts := .nil
      ahead := .refl start
      settled := fun _ => ⟨rfl, rfl⟩
      working := fun w hw => nomatch hw
      follows := fun w hw => nomatch hw
      taken := fun w hw => nomatch hw
      overlaps := fun w hw => nomatch hw }
  refine ⟨hGates, [], [], [], start, start, hPlaced, fun i => ?_⟩
  exact
    { unused := by simp
      invoked := fun op hOp => nomatch hOp
      pending := by simp
      answered := fun ret hRet => nomatch hRet
      waiting := by simp }

/-- A put comes in, or fails in the log. -/
theorem Explained.put (h : g.Explained start) {e : Z1Entry} {phase' : PutPhase} {ret : ClientReply}
    {s' : Store} (hCall : g.calls i = .put e .called) (hResult : phase'.result = some ret)
    (hCache : s'.recentFlush = g.store.recentFlush) (hL2 : s'.l2 = g.store.l2) (hL3 : s'.l3 = g.store.l3)
    (hNext : ∀ a, a.Ahead [] g.store → ∃ a', LayerSpec a (.put e) ret a' ∧ a'.Ahead [] s')
    (hLater : ∀ late puts (b : Store), PutsOnly late puts → b.Ahead puts g.store →
      ∃ puts', PutsOnly (late ++ [⟨i, .put e, ret⟩]) puts' ∧ b.Ahead puts' s') :
    (g.moved i (.put e phase') s' g.gate).Explained start := by
  obtain ⟨hGates, order, late, puts, a, b, hPlaced, hTraced⟩ := h
  have hOp : (g.calls i).op = some (.put e) := by rw [hCall]; rfl
  have hWaiting : (g.calls i).answer g.store = none := by rw [hCall]; rfl
  have hOther : (g.calls i).writes = false := by rw [hCall]; rfl
  have hOthers : ∀ j, j ≠ i → (g.calls j).answer s' = (g.calls j).answer g.store := fun j _ =>
    GatedCall.answer_congr hCache hL2 hL3 (g.calls j)
  refine ⟨hGates.beside rfl rfl, ?_⟩
  rcases hPlaced.open_or_taken with ⟨rfl, rfl, rfl, hFollows⟩ | ⟨w, hWriter, hTaken⟩
  · obtain ⟨a', hSpec, hAhead⟩ := hNext b hPlaced.ahead
    refine ⟨order ++ [⟨i, .put e, ret⟩], [], [], a', a', ?_, ?_⟩
    · exact hPlaced.next (hTraced i) hOther hOp hWaiting hSpec hAhead fun w hw => hFollows w hw a'
    · rw [List.append_nil]
      exact Traced.placed hTraced hOp rfl hOthers hResult
  · obtain ⟨puts', hPuts, hAhead⟩ := hLater late puts b hPlaced.latePuts hPlaced.ahead
    refine ⟨order, late ++ [⟨i, .put e, ret⟩], puts', a, b, ?_, ?_⟩
    · exact hPlaced.later (hTraced i) hOther hOp hWaiting hPuts hAhead hWriter hTaken
    · rw [← List.append_assoc]
      have hAll : ∀ j, g.Traced ((order ++ late) ++ []) j := by simpa using hTraced
      exact Traced.placed hAll hOp rfl hOthers hResult

theorem Explained.count (h : g.Explained start) {e : Z1Entry} (hCall : g.calls i = .put e .inserted)
    (hotSizeBytes : Nat) :
    (g.moved i (.put e .counted) { g.store with l1 := { g.store.l1 with hotSizeBytes } } g.gate).Explained
      start := by
  obtain ⟨hGates, order, late, puts, a, b, hPlaced, hTraced⟩ := h
  have hOp : (g.calls i).op = some (.put e) := by rw [hCall]; rfl
  have hOther : (g.calls i).writes = false := by rw [hCall]; rfl
  refine ⟨hGates.beside rfl rfl, order, late, puts, a, b, ?_, ?_⟩
  · exact hPlaced.beside hOther rfl (hPlaced.ahead.count hotSizeBytes)
  · refine Traced.silent hTraced hOp rfl (fun j _ => GatedCall.answer_congr rfl rfl rfl _) ?_
    rw [hCall]
    rfl

/-- A flush or a compaction takes a step. -/
theorem Explained.writer (h : g.Explained start) {call' : GatedCall} {s' : Store} {gate' : MigrationGate}
    {op : ClientOp} (hEffect : WriterEffect i (g.calls i) g.store g.gate call' s' gate')
    (hOp : (g.calls i).op = some op) (hOp' : call'.op = some op) (hReads : call'.reads = false) :
    (g.moved i call' s' gate').Explained start := by
  obtain ⟨hGates, order, late, puts, a, b, hPlaced, hTraced⟩ := h
  have hNoRead : ∀ gate'' : MigrationGate, call'.reads = true → i ∈ gate''.readers := fun _ hYes =>
    nomatch hReads.symm.trans hYes
  cases hEffect with
  | enters hAnswer hAfter hReaders hWriter hFollows =>
      obtain ⟨rfl, rfl⟩ := hPlaced.settled hWriter
      have hWriting : ∀ w, some i = some w → w = i := fun w hw => (Option.some.inj hw).symm
      refine ⟨hGates.moved (hNoRead _) (fun _ => rfl) (fun j _ hj => hj) ?_ fun _ => hReaders,
        order, [], puts, b, b, ?_, ?_⟩
      · exact fun j _ hj => nomatch hWriter.symm.trans hj
      · refine ⟨hPlaced.orders, hPlaced.legal, hPlaced.latePuts, hPlaced.ahead, ?_, ?_, ?_, ?_, ?_⟩
        · exact fun hNone => nomatch hNone
        · intro w hw
          obtain rfl := hWriting w hw
          rw [moved_calls_self]
          exact hAfter
        · intro w hw
          obtain rfl := hWriting w hw
          rw [moved_calls_self]
          exact hFollows b
        · exact fun w _ _ => rfl
        · simp
      · refine Traced.silent hTraced hOp hOp' (fun j _ => rfl) ?_
        rw [hAnswer]
        exact GatedCall.answer_of_writes hAfter g.store
  | works hBefore hAfter hTaken hAhead =>
      have hWriter := hGates.writes i hBefore
      have hWriting : ∀ w, g.gate.writer = some w → w = i := fun w hw =>
        Option.some.inj (hw.symm.trans hWriter)
      have hSome : g.gate.writer ≠ none := by simp [hWriter]
      obtain ⟨b', hAhead', hFollows⟩ := hAhead b puts hPlaced.ahead fun hTake => by
        obtain rfl := hPlaced.taken i hWriter hTake
        exact hPlaced.latePuts.eq_nil
      refine ⟨hGates.moved (hNoRead _) (fun _ => hWriter) (fun j _ hj => hj) (fun j _ hj => hj) hGates.apart,
        order, late, puts, a, b', ?_, ?_⟩
      · refine ⟨hPlaced.orders, hPlaced.legal, hPlaced.latePuts, hAhead', ?_, ?_, ?_, ?_, hPlaced.overlaps⟩
        · exact fun hNone => absurd hNone hSome
        · intro w hw
          obtain rfl := hWriting w hw
          rw [moved_calls_self]
          exact hAfter
        · intro w hw
          obtain rfl := hWriting w hw
          rw [moved_calls_self]
          exact hFollows a (hPlaced.follows w hWriter)
        · intro w hw hTake
          obtain rfl := hWriting w hw
          rw [moved_calls_self, hTaken] at hTake
          cases hTake
      · refine Traced.silent hTraced hOp hOp' (fun j _ => hGates.answer_eq hSome j s') ?_
        rw [GatedCall.answer_of_writes hAfter, GatedCall.answer_of_writes hBefore]
  | @leaves own ret hBefore hAfter hOwn hAnswer hSpec =>
      have hWriter := hGates.writes i hBefore
      obtain rfl : own = op := Option.some.inj (hOwn.symm.trans hOp)
      obtain ⟨hInvoked, hPending, hNew⟩ :=
        (hTraced i).fresh hOp (GatedCall.answer_of_writes hBefore g.store)
      refine ⟨hGates.moved (hNoRead _) (fun hYes => nomatch hAfter.symm.trans hYes) (fun j _ hj => hj) ?_
        fun hSome => absurd rfl hSome, order ++ ⟨i, own, ret⟩ :: late, [], [], b.replayAll puts,
        b.replayAll puts, ?_, ?_⟩
      · exact fun j hj hOther => absurd (Option.some.inj (hOther.symm.trans hWriter)) hj
      · refine ⟨?_, ?_, .nil, hPlaced.ahead.replayAll, fun _ => ⟨rfl, rfl⟩, ?_, ?_, ?_, ?_⟩
        · rw [List.append_nil]
          exact hPlaced.orders.insert hInvoked hPending hNew (hPlaced.overlaps i hWriter)
        · exact hPlaced.legal.append
            (.cons (hSpec a b (hPlaced.follows i hWriter)) (hPlaced.latePuts.legal b))
        · exact fun w hw => nomatch hw
        · exact fun w hw => nomatch hw
        · exact fun w hw => nomatch hw
        · exact fun w hw => nomatch hw
      · rw [List.append_nil]
        exact Traced.placed hTraced hOp hOp' (fun j _ => rfl) hAnswer

/-- A read takes a step. -/
theorem Explained.reader (h : g.Explained start) {call' : GatedCall} {gate' : MigrationGate}
    {op : ClientOp} (hEffect : ReaderEffect i (g.calls i) g.store g.gate call' gate')
    (hOp : (g.calls i).op = some op) (hOp' : call'.op = some op) (hWrites : (g.calls i).writes = false)
    (hWrites' : call'.writes = false) : (g.moved i call' g.store gate').Explained start := by
  obtain ⟨hGates, order, late, puts, a, b, hPlaced, hTraced⟩ := h
  have hNoWrite : ∀ gate'' : MigrationGate, call'.writes = true → gate''.writer = some i := fun _ hYes =>
    nomatch hWrites'.symm.trans hYes
  have hSilent : call'.answer g.store = (g.calls i).answer g.store →
      ∀ j, (g.moved i call' g.store gate').Traced (order ++ late) j := fun hSame =>
    Traced.silent hTraced hOp hOp' (fun j _ => rfl) hSame
  cases hEffect with
  | enters hWriter hSame =>
      refine ⟨hGates.moved (fun _ => Finset.mem_insert_self i _) (hNoWrite _) ?_ (fun j _ hj => hj)
        fun hSome => absurd hWriter hSome, order, late, puts, a, b, ?_, hSilent hSame⟩
      · exact fun j _ hj => Finset.mem_insert_of_mem hj
      · exact hPlaced.beside hWrites rfl hPlaced.ahead
  | @looks own ret hBefore hOwn hWaiting hAnswer hSpec =>
      have hIn := hGates.reads i hBefore
      have hWriter : g.gate.writer = none := by
        by_contra hSome
        rw [hGates.apart hSome] at hIn
        cases hIn
      obtain rfl : own = op := Option.some.inj (hOwn.symm.trans hOp)
      obtain ⟨rfl, rfl⟩ := hPlaced.settled hWriter
      obtain rfl := hPlaced.latePuts.eq_nil
      refine ⟨hGates.moved (fun _ => hIn) (hNoWrite _) (fun j _ hj => hj) (fun j _ hj => hj) hGates.apart,
        order ++ [⟨i, own, ret⟩], [], [], b, b, ?_, ?_⟩
      · exact hPlaced.next (hTraced i) hWrites hOp hWaiting (hSpec b hPlaced.ahead) hPlaced.ahead
          fun w hw => nomatch hWriter.symm.trans hw
      · rw [List.append_nil]
        exact Traced.placed hTraced hOp hOp' (fun j _ => rfl) hAnswer
  | goes hBefore hSame =>
      have hIn := hGates.reads i hBefore
      exact ⟨hGates.moved (fun _ => hIn) (hNoWrite _) (fun j _ hj => hj) (fun j _ hj => hj) hGates.apart,
        order, late, puts, a, b, hPlaced.beside hWrites rfl hPlaced.ahead, hSilent hSame⟩
  | leaves hAfter hSame =>
      refine ⟨hGates.moved (fun hYes => nomatch hAfter.symm.trans hYes) (hNoWrite _) ?_ (fun j _ hj => hj)
        ?_, order, late, puts, a, b, hPlaced.beside hWrites rfl hPlaced.ahead, hSilent hSame⟩
      · exact fun j hj hIn => Finset.mem_erase.mpr ⟨hj, hIn⟩
      · intro hSome
        have hEmpty := hGates.apart hSome
        dsimp only
        rw [hEmpty, Finset.erase_empty]

theorem start_spec (s : Store) (op : ClientOp) :
    (GatedCall.start op).op = some op ∧ (GatedCall.start op).answer s = none ∧
      (GatedCall.start op).reads = false ∧ (GatedCall.start op).writes = false := by
  cases op <;> exact ⟨rfl, rfl, rfl, rfl⟩

/-- A call that has been in the history before is traced as before when the clients see
something of another call. -/
theorem Traced.observed {order : List (Answered ClientOp ClientReply)} {call' : GatedCall}
    {event : CallEvent ClientOp ClientReply} {j : Nat} (h : g.Traced order j) (hNe : j ≠ i)
    (hInvoke : ∀ op, event ≠ .invoke j op) (hRespond : ∀ ret, event ≠ .respond j ret) :
    ((g.moved i call' g.store g.gate).observed event).Traced order j := by
  have hCall : ((g.moved i call' g.store g.gate).observed event).calls j = g.calls j :=
    Function.update_of_ne hNe ..
  have hHistory : ((g.moved i call' g.store g.gate).observed event).history = g.history ++ [event] := rfl
  have hStore : ((g.moved i call' g.store g.gate).observed event).store = g.store := rfl
  constructor
  · rw [hCall, hHistory]
    intro hUnused op hIn
    rcases List.mem_append.mp hIn with hOld | hNow
    · exact h.unused hUnused op hOld
    · exact hInvoke op (List.mem_singleton.mp hNow).symm
  · rw [hCall, hHistory]
    exact fun op hOp => List.mem_append_left _ (h.invoked op hOp)
  · rw [hCall, hHistory]
    intro hOpen ret hIn
    rcases List.mem_append.mp hIn with hOld | hNow
    · exact h.pending hOpen ret hOld
    · exact hRespond ret (List.mem_singleton.mp hNow).symm
  · rw [hCall, hStore]
    exact h.answered
  · rw [hCall, hStore]
    exact h.waiting

theorem Explained.invoke (h : g.Explained start) (hCall : g.calls i = .unused) (op : ClientOp) :
    ((g.moved i (.start op) g.store g.gate).observed (.invoke i op)).Explained start := by
  obtain ⟨hGates, order, late, puts, a, b, hPlaced, hTraced⟩ := h
  obtain ⟨hOp, hAnswer, hReads, hWrites⟩ := start_spec g.store op
  have hFresh := (hTraced i).unused hCall
  have hOther : (g.calls i).writes = false := by rw [hCall]; rfl
  have hOpen : g.calls i ≠ .done := by simp [hCall]
  have hAfter : (g.moved i (.start op) g.store g.gate).Placed start order late puts a b :=
    hPlaced.beside hOther rfl hPlaced.ahead
  have hGates' : (g.moved i (.start op) g.store g.gate).Gates := hGates.beside hReads hWrites
  refine ⟨⟨hGates'.reads, hGates'.writes, hGates'.apart⟩, order, late, puts, a, b, ?_, fun j => ?_⟩
  · refine ⟨hPlaced.orders.invoke op hFresh, hPlaced.legal, hPlaced.latePuts, hPlaced.ahead,
      hPlaced.settled, hAfter.working, hAfter.follows, hAfter.taken, ?_⟩
    intro w hw call hIn hBefore
    rcases precedesIn_concat.mp hBefore with hOld | ⟨-, own, hNow⟩
    · exact hPlaced.overlaps w hw call hIn hOld
    · injection hNow with hId
      exact hPlaced.writer_ne hOther hw hId.symm
  · by_cases hSame : j = i
    · subst hSame
      have hCalls : ((g.moved j (.start op) g.store g.gate).observed (.invoke j op)).calls j = .start op :=
        Function.update_self ..
      constructor
      · intro hUnused
        rw [← hCalls, hUnused] at hOp
        cases hOp
      · intro own hOwn
        rw [hCalls, hOp] at hOwn
        obtain rfl := Option.some.inj hOwn
        exact List.mem_append_right _ (List.mem_singleton.mpr rfl)
      · intro _ ret hRet
        rcases List.mem_append.mp hRet with hOld | hNow
        · exact (hTraced j).pending hOpen ret hOld
        · exact nomatch List.mem_singleton.mp hNow
      · intro ret hRet
        rw [hCalls] at hRet
        exact nomatch hAnswer.symm.trans hRet
      · intro _ _
        exact (hTraced j).waiting hOpen (by rw [hCall]; rfl)
    · refine (hTraced j).observed hSame (fun own hNow => ?_) fun ret hNow => nomatch hNow
      injection hNow with hId
      exact hSame hId.symm

theorem Explained.respond (h : g.Explained start) {ret : ClientReply}
    (hCall : (g.calls i).returns = some ret) :
    ((g.moved i .done g.store g.gate).observed (.respond i ret)).Explained start := by
  obtain ⟨hGates, order, late, puts, a, b, hPlaced, hTraced⟩ := h
  obtain ⟨hAnswer, -, hOther⟩ := GatedCall.answer_of_returns hCall g.store
  obtain ⟨op, -, hIn⟩ := (hTraced i).answered ret hAnswer
  have hAfter : (g.moved i .done g.store g.gate).Placed start order late puts a b :=
    hPlaced.beside hOther rfl hPlaced.ahead
  have hGates' : (g.moved i .done g.store g.gate).Gates := hGates.beside rfl rfl
  refine ⟨⟨hGates'.reads, hGates'.writes, hGates'.apart⟩, order, late, puts, a, b, ?_, fun j => ?_⟩
  · refine ⟨hPlaced.orders.respond hIn, hPlaced.legal, hPlaced.latePuts, hPlaced.ahead,
      hPlaced.settled, hAfter.working, hAfter.follows, hAfter.taken, ?_⟩
    intro w hw call hLate hBefore
    exact hPlaced.overlaps w hw call hLate (precedesIn_respond.mp hBefore)
  · by_cases hSame : j = i
    · subst hSame
      have hCalls : ((g.moved j .done g.store g.gate).observed (.respond j ret)).calls j = .done :=
        Function.update_self ..
      constructor
      · intro hUnused
        exact nomatch hCalls.symm.trans hUnused
      · intro own hOwn
        rw [hCalls] at hOwn
        cases hOwn
      · exact fun hOpen => absurd hCalls hOpen
      · intro own hOwn
        rw [hCalls] at hOwn
        cases hOwn
      · exact fun hOpen => absurd hCalls hOpen
    · refine (hTraced j).observed hSame (fun own hNow => nomatch hNow) fun own hNow => ?_
      injection hNow with hId
      exact hSame hId.symm

theorem Explained.step {g' : GatedStore} (h : g.Explained start) (hStep : Step g g') : g'.Explained start := by
  cases hStep with
  | invoke i op hCall => exact h.invoke hCall op
  | logFails i e err hCall =>
      refine h.put hCall rfl rfl rfl rfl ?_ ?_
      · exact fun a hAhead => ⟨a, .logFails e err, hAhead⟩
      · exact fun late puts b hPuts hAhead => ⟨puts, hPuts.failed i e err, hAhead⟩
  | insert i e hCall =>
      refine h.put hCall rfl rfl rfl rfl ?_ ?_
      · exact fun a hAhead => ⟨_, .answers (.put e), (hAhead.insert e).replayPut⟩
      · exact fun late puts b hPuts hAhead => ⟨puts ++ [e], hPuts.inserted i e, hAhead.insert e⟩
  | count i e hCall => exact h.count hCall _
  | flush i phase phase' store gate hCall hStep =>
      have hEffect := hStep.effect
      rw [← hCall] at hEffect
      exact h.writer hEffect (by rw [hCall]; rfl) rfl rfl
  | compact i minActiveBeginTs phase phase' store gate hCall hStep =>
      have hEffect := hStep.effect
      rw [← hCall] at hEffect
      exact h.writer hEffect (by rw [hCall]; rfl) rfl rfl
  | get i call phase phase' gate hCall hStep hServes =>
      have hEffect := hStep.effect hServes
      rw [← hCall] at hEffect
      exact h.reader hEffect (by rw [hCall]; rfl) rfl (by rw [hCall]; rfl) rfl
  | scan i call phase phase' gate hCall hStep =>
      have hEffect := hStep.effect
      rw [← hCall] at hEffect
      exact h.reader hEffect (by rw [hCall]; rfl) rfl (by rw [hCall]; rfl) rfl
  | respond i ret hCall => exact h.respond hCall

theorem explained_of_steps {g : GatedStore} (h : Relation.ReflTransGen Step { store := start } g) :
    g.Explained start := by
  induction h with
  | refl => exact .initial start
  | tail _ last ih => exact ih.step last

end Steps
end GatedStore

/-- Whatever puts, flushes, compactions, gets and scans do at the same time, the clients see
answers that the layers give to the calls one after the other, in an order that keeps what
was over before something else began; and while nobody moves versions the layers are what
that order makes of them, the count of bytes aside. -/
theorem gated_store_linearizable {start : Store} {g : GatedStore}
    (h : Relation.ReflTransGen GatedStore.Step { store := start } g) :
    ∃ last, LinearizesTo LayerSpec start g.history last ∧
      (g.gate.writer = none → last.Ahead [] g.store) := by
  obtain ⟨-, order, late, puts, a, b, hPlaced, -⟩ := GatedStore.explained_of_steps h
  by_cases hWriter : g.gate.writer = none
  · obtain ⟨rfl, rfl⟩ := hPlaced.settled hWriter
    obtain rfl := hPlaced.latePuts.eq_nil
    have hOrders := hPlaced.orders
    rw [List.append_nil] at hOrders
    exact ⟨b, ⟨order, hOrders, hPlaced.legal⟩, fun _ => hPlaced.ahead⟩
  · refine ⟨a.replayAll puts, ⟨order ++ late, hPlaced.orders, ?_⟩, fun hNone => absurd hNone hWriter⟩
    exact hPlaced.legal.append (hPlaced.latePuts.legal a)

/-- A put comes and goes while a flush has taken the hot buffer; after the flush a get finds
what the flush moved. -/
theorem gated_store_linearizable_beside_flush :
    ∃ g : GatedStore,
      g.history = [.invoke 0 (.put ⟨⟨0, [1]⟩, 1, some [2]⟩), .respond 0 (.ok .inserted),
        .invoke 1 (.flushL1ToL2 fun _ => ()), .invoke 2 (.put ⟨⟨0, [1]⟩, 2, some [3]⟩),
        .respond 2 (.ok .inserted), .respond 1 (.ok (.flushed 1)),
        .invoke 3 (.getAt ⟨1, ∅, AList.insert 1 1 ∅⟩ 0 [1]), .respond 3 (.ok (.value (some [2])))] ∧
      g.gate.writer = none ∧
      ∃ last, LinearizesTo LayerSpec ⟨MemStore.new 0, ∅, {}, {}, 0⟩ g.history last ∧
        last.Ahead [] g.store := by
  have hPut : Relation.ReflTransGen GatedStore.Step { store := ⟨MemStore.new 0, ∅, {}, {}, 0⟩ } _ :=
    (((Relation.ReflTransGen.single (.invoke _ 0 (.put ⟨⟨0, [1]⟩, 1, some [2]⟩) rfl)).tail
      (.insert _ 0 _ rfl)).tail (.count _ 0 _ rfl)).tail (.respond _ 0 (.ok .inserted) rfl)
  have hTaken := ((hPut.tail (.invoke _ 1 (.flushL1ToL2 fun _ => ()) rfl)).tail
    (.flush _ 1 _ _ _ _ rfl (.enter _ _ rfl rfl))).tail (.flush _ 1 _ _ _ _ rfl (.take _ _))
  have hBeside := (((hTaken.tail (.invoke _ 2 (.put ⟨⟨0, [1]⟩, 2, some [3]⟩) rfl)).tail
    (.insert _ 2 _ rfl)).tail (.count _ 2 _ rfl)).tail (.respond _ 2 (.ok .inserted) rfl)
  have hStaged := (((hBeside.tail (.flush _ 1 _ _ _ _ rfl (.resize _ _ _))).tail
    (.flush _ 1 _ _ _ _ rfl (.publish _ _ _))).tail (.flush _ 1 _ _ _ _ rfl (.cacheMerge _ _ _))).tail
    (.flush _ 1 _ _ _ _ rfl (.getAll _ _))
  have hFlushed := (((hStaged.tail
    (.flush _ 1 _ _ _ _ rfl (.appendPatch _ _ 1 0 [⟨[1], some [2], 1⟩] [] .succeeds _ rfl))).tail
    (.flush _ 1 _ _ _ _ rfl (.clear _ _ 1))).tail (.flush _ 1 _ _ _ _ rfl (.leave _ _ 1))).tail
    (.respond _ 1 (.ok (.flushed 1)) rfl)
  let call : ReadCall := ⟨⟨1, ∅, AList.insert 1 1 ∅⟩, 0, [1]⟩
  have hLooked := (((hFlushed.tail (.invoke _ 3 (.getAt call.snap call.cf call.key) rfl)).tail
    (.get _ 3 _ _ _ _ rfl (.enter _ call rfl) rfl)).tail (.get _ 3 _ _ _ _ rfl (.l1 _ _) rfl)).tail
    (.get _ 3 _ _ _ _ rfl (.cache _ _ _) rfl)
  have hRead := (((hLooked.tail (.get _ 3 _ _ _ _ rfl (.l2 _ _ _) rfl)).tail
    (.get _ 3 _ _ _ _ rfl (.l3 _ _ _) rfl)).tail (.get _ 3 _ _ _ _ rfl (.leave _ _ _) rfl)).tail
    (.respond _ 3 (.ok (.value (some [2]))) rfl)
  obtain ⟨last, hAnswers, hAhead⟩ := gated_store_linearizable hRead
  exact ⟨_, rfl, rfl, last, hAnswers, hAhead rfl⟩

end Z1Kv
