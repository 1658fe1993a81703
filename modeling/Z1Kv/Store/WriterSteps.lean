import Z1Kv.Store.Migration

/-! Compaction step by step, and how far a flush or a compaction has got that nothing but
its own steps has touched the layers of: what is left of it gives what the whole gives. -/
namespace Z1Kv

/-- How far a compaction has got, with the families and entries it has counted. -/
inductive CompactPhase
  | idle
  | gated
  | visiting (cfs reclaimed : Nat) (rest : List UInt16)
  | collected (cfs reclaimed : Nat) (cf : UInt16) (versions : List Z1Entry) (rest : List UInt16)
  | merged (cfs reclaimed : Nat) (cf : UInt16) (retained : List PatchEntry) (rest : List UInt16)
  | handedOver (cfs reclaimed : Nat) (cf : UInt16) (rest : List UInt16)
  | failed (e : Z1Error)
  | returned (result : Except Z1Error (Nat × Nat))

def CompactPhase.holdsGate : CompactPhase → Bool
  | idle | returned _ => false
  | _ => true

open CompactPhase in
/-- One step of the compaction `id`. -/
inductive CompactStep (id : Nat) (minActiveBeginTs : TxnId) :
    CompactPhase × Store × MigrationGate → CompactPhase × Store × MigrationGate → Prop
  | enter (s : Store) (gate : MigrationGate) (hReaders : gate.readers = ∅) (hWriter : gate.writer = none) :
      CompactStep id minActiveBeginTs (idle, s, gate) (gated, s, { gate with writer := some id })
  | listCfs (s : Store) (gate : MigrationGate) :
      CompactStep id minActiveBeginTs (gated, s, gate) (visiting 0 0 s.l2.listCfs, s, gate)
  | skip (s : Store) (gate : MigrationGate) (cfs reclaimed : Nat) (cf : UInt16) (rest : List UInt16)
      (hEmpty : s.l2.allVersions cf = []) :
      CompactStep id minActiveBeginTs (visiting cfs reclaimed (cf :: rest), s, gate)
        (visiting cfs reclaimed rest, s, gate)
  | allVersions (s : Store) (gate : MigrationGate) (cfs reclaimed : Nat) (cf : UInt16)
      (rest : List UInt16) (hFound : s.l2.allVersions cf ≠ []) :
      CompactStep id minActiveBeginTs (visiting cfs reclaimed (cf :: rest), s, gate)
        (collected cfs reclaimed cf (s.l2.allVersions cf) rest, s, gate)
  | gcEntries (s : Store) (gate : MigrationGate) (cfs reclaimed : Nat) (cf : UInt16)
      (versions : List Z1Entry) (rest : List UInt16) (retained : List PatchEntry) (stats : GcStats)
      (hMerge : Z1Kv.gcEntries (versions.map PatchEntry.ofZ1Entry) minActiveBeginTs = (retained, stats)) :
      CompactStep id minActiveBeginTs (collected cfs reclaimed cf versions rest, s, gate)
        (merged cfs (reclaimed + stats.reclaimed) cf retained rest, s, gate)
  | nothingRetained (s : Store) (gate : MigrationGate) (cfs reclaimed : Nat) (cf : UInt16)
      (rest : List UInt16) :
      CompactStep id minActiveBeginTs (merged cfs reclaimed cf [] rest, s, gate)
        (handedOver cfs reclaimed cf rest, s, gate)
  | appendPatch (s : Store) (gate : MigrationGate) (cfs reclaimed : Nat) (cf : UInt16)
      (retained : List PatchEntry) (rest : List UInt16) (outcome : PatchOutcome) (l3 : DiskLayer)
      (hRetained : retained ≠ [])
      (h : s.l3.appendPatch outcome cf retained s.nextPatchId = (.ok (), l3)) :
      CompactStep id minActiveBeginTs (merged cfs reclaimed cf retained rest, s, gate)
        (handedOver cfs reclaimed cf rest, { s with l3, nextPatchId := s.nextPatchId + 1 }, gate)
  | appendFails (s : Store) (gate : MigrationGate) (cfs reclaimed : Nat) (cf : UInt16)
      (retained : List PatchEntry) (rest : List UInt16) (outcome : PatchOutcome) (l3 : DiskLayer) (e : Z1Error)
      (hRetained : retained ≠ [])
      (h : s.l3.appendPatch outcome cf retained s.nextPatchId = (.error e, l3)) :
      CompactStep id minActiveBeginTs (merged cfs reclaimed cf retained rest, s, gate)
        (failed e, { s with l3, nextPatchId := s.nextPatchId + 1 }, gate)
  | dropCf (s : Store) (gate : MigrationGate) (cfs reclaimed : Nat) (cf : UInt16) (rest : List UInt16) :
      CompactStep id minActiveBeginTs (handedOver cfs reclaimed cf rest, s, gate)
        (visiting (cfs + 1) reclaimed rest, { s with l2 := s.l2.dropCf cf }, gate)
  | leave (s : Store) (gate : MigrationGate) (cfs reclaimed : Nat) :
      CompactStep id minActiveBeginTs (visiting cfs reclaimed [], s, gate)
        (returned (.ok (cfs, reclaimed)), s, { gate with writer := none })
  | leaveFailed (s : Store) (gate : MigrationGate) (e : Z1Error) :
      CompactStep id minActiveBeginTs (failed e, s, gate)
        (returned (.error e), s, { gate with writer := none })

/-- With the outcomes of the writes under ids below the bound settled, the rest of a call
gives what the whole call gives. -/
def Continues {α : Type} (bound : Nat) (whole rest : (Nat → PatchOutcome) → α) : Prop :=
  ∃ writes : Nat → PatchOutcome, ∀ writes', (∀ id < bound, writes' id = writes id) →
    whole writes' = rest writes'

section Continues
variable {α : Type} {bound : Nat} {whole rest rest' : (Nat → PatchOutcome) → α}

theorem Continues.refl (bound : Nat) (whole : (Nat → PatchOutcome) → α) : Continues bound whole whole :=
  ⟨fun _ => .succeeds, fun _ _ => rfl⟩

theorem Continues.congr (h : Continues bound whole rest) (hSame : ∀ writes, rest writes = rest' writes) :
    Continues bound whole rest' := by
  obtain ⟨writes, hAgree⟩ := h
  exact ⟨writes, fun writes' hBelow => (hAgree writes' hBelow).trans (hSame writes')⟩

/-- One more write is made. -/
theorem Continues.write (h : Continues bound whole rest) {outcome : PatchOutcome}
    (hSame : ∀ writes, writes bound = outcome → rest writes = rest' writes) :
    Continues (bound + 1) whole rest' := by
  obtain ⟨writes, hAgree⟩ := h
  refine ⟨Function.update writes bound outcome, fun writes' hBelow => ?_⟩
  have hHere : writes' bound = outcome := by simpa using hBelow bound (Nat.lt_succ_self bound)
  have hBefore : ∀ id < bound, writes' id = writes id := fun id hLt => by
    rw [hBelow id (Nat.lt_succ_of_lt hLt), Function.update_of_ne hLt.ne]
  exact (hAgree writes' hBefore).trans (hSame writes' hHere)

theorem Continues.done {result : α} (h : Continues bound whole fun _ => result) :
    ∃ writes, whole writes = result := by
  obtain ⟨writes, hAgree⟩ := h
  exact ⟨writes, hAgree writes fun _ _ => rfl⟩

end Continues

namespace Store

/-- The end of a flush, after its writes. -/
def flushed (numGroups : Nat) : Except Z1Error Unit × Store → Except Z1Error Nat × Store
  | (.error e, s) => (.error e, s)
  | (.ok (), s) => (.ok numGroups, { s with recentFlush := ∅ })

/-- What was counted before comes on top. -/
def counted (cfs reclaimed : Nat) :
    Except Z1Error (Nat × Nat) × Store → Except Z1Error (Nat × Nat) × Store
  | (.error e, s) => (.error e, s)
  | (.ok (cfs', reclaimed'), s) => (.ok (cfs + cfs', reclaimed + reclaimed'), s)

theorem flushL1ToL2_flushed (writes : Nat → PatchOutcome) (s : Store) :
    s.flushL1ToL2 writes =
      flushed (cfGroups s.stage.recentFlush.values).length
        (s.stage.appendGroups writes (cfGroups s.stage.recentFlush.values)) := by
  rw [flushL1ToL2]
  generalize appendGroups writes s.stage _ = outcome
  obtain ⟨result, after⟩ := outcome
  cases result with
  | error e => rfl
  | ok done => rfl

variable {s : Store} {writes : Nat → PatchOutcome} {outcome : PatchOutcome} {cf : UInt16}

theorem appendGroups_ok {entries : List PatchEntry} {l2 : DiskLayer}
    (h : s.l2.appendPatch outcome cf entries s.nextPatchId = (.ok (), l2))
    (hWrite : writes s.nextPatchId = outcome) (rest : List (UInt16 × List PatchEntry)) :
    s.appendGroups writes ((cf, entries) :: rest) =
      Store.appendGroups writes { s with l2, nextPatchId := s.nextPatchId + 1 } rest := by
  rw [appendGroups]
  simp only [hWrite, h]

theorem appendGroups_error {entries : List PatchEntry} {l2 : DiskLayer} {e : Z1Error}
    (h : s.l2.appendPatch outcome cf entries s.nextPatchId = (.error e, l2))
    (hWrite : writes s.nextPatchId = outcome) (rest : List (UInt16 × List PatchEntry)) :
    s.appendGroups writes ((cf, entries) :: rest) =
      (.error e, { s with l2, nextPatchId := s.nextPatchId + 1 }) := by
  rw [appendGroups]
  simp only [hWrite, h]

theorem counted_cons {watermark : TxnId} {cfs reclaimed cfs' reclaimed' : Nat} {after : Store}
    (h : s.compactCf writes watermark cf = (.ok (cfs', reclaimed'), after)) (rest : List UInt16) :
    counted cfs reclaimed (s.compactCfs writes watermark (cf :: rest)) =
      counted (cfs + cfs') (reclaimed + reclaimed') (after.compactCfs writes watermark rest) := by
  rw [compactCfs]
  simp only [h]
  generalize after.compactCfs writes watermark rest = outcome
  obtain ⟨result, last⟩ := outcome
  cases result with
  | error e => rfl
  | ok counts => simp only [counted, Nat.add_assoc]

theorem compactCf_nothingRetained {watermark : TxnId} {stats : GcStats}
    (hFound : s.l2.allVersions cf ≠ [])
    (hMerge : gcEntries ((s.l2.allVersions cf).map PatchEntry.ofZ1Entry) watermark = ([], stats)) :
    s.compactCf writes watermark cf = (.ok (1, stats.reclaimed), { s with l2 := s.l2.dropCf cf }) := by
  rw [compactCf]
  simp only [if_neg hFound, hMerge, if_true]

section Retained
variable {watermark : TxnId} {retained : List PatchEntry} {stats : GcStats} {l3 : DiskLayer}
  (hFound : s.l2.allVersions cf ≠ []) (hRetained : retained ≠ [])
  (hMerge : gcEntries ((s.l2.allVersions cf).map PatchEntry.ofZ1Entry) watermark = (retained, stats))
include hFound hRetained hMerge

theorem compactCf_ok (h : s.l3.appendPatch outcome cf retained s.nextPatchId = (.ok (), l3))
    (hWrite : writes s.nextPatchId = outcome) :
    s.compactCf writes watermark cf =
      (.ok (1, stats.reclaimed),
        { s with l2 := s.l2.dropCf cf, l3, nextPatchId := s.nextPatchId + 1 }) := by
  rw [compactCf]
  simp only [if_neg hFound, hMerge, if_neg hRetained, hWrite, h]

theorem compactCf_error {e : Z1Error}
    (h : s.l3.appendPatch outcome cf retained s.nextPatchId = (.error e, l3))
    (hWrite : writes s.nextPatchId = outcome) :
    s.compactCf writes watermark cf = (.error e, { s with l3, nextPatchId := s.nextPatchId + 1 }) := by
  rw [compactCf]
  simp only [if_neg hFound, hMerge, if_neg hRetained, hWrite, h]

end Retained

end Store

/-- A flush that was called on `a` has got to this phase and has made the layers this. -/
def FlushPhase.Follows (a : Store) : FlushPhase → Store → Prop
  | .idle, b | .gated, b => b = a
  | .taken oldHot, b => oldHot = a.l1.hot ∧ b = { a with l1 := { a.l1 with hot := ∅ } }
  | .resized oldHot, b =>
      oldHot = a.l1.hot ∧ b = { a with l1 := { a.l1 with hot := ∅, hotSizeBytes := 0 } }
  | .published swapped, b => swapped = a.l1.hot ∧ b = { a with l1 := a.l1.swapAndDrain.2 }
  | .merged, b => b = a.stage
  | .patching numGroups groups, b =>
      Continues b.nextPatchId a.flushL1ToL2 fun writes => Store.flushed numGroups (b.appendGroups writes groups)
  | .cleared numGroups, b => ∃ writes, a.flushL1ToL2 writes = (.ok numGroups, b)
  | .failed e, b => ∃ writes, a.flushL1ToL2 writes = (.error e, b)
  | .returned result, b => ∃ writes, a.flushL1ToL2 writes = (result, b)

/-- A compaction that was called on `a` has got to this phase and has made the layers
this. -/
def CompactPhase.Follows (minActiveBeginTs : TxnId) (a : Store) : CompactPhase → Store → Prop
  | .idle, b | .gated, b => b = a
  | .visiting cfs reclaimed rest, b =>
      Continues b.nextPatchId (a.compactL2ToL3 · minActiveBeginTs) fun writes =>
        Store.counted cfs reclaimed (b.compactCfs writes minActiveBeginTs rest)
  | .collected cfs reclaimed cf versions rest, b =>
      versions = b.l2.allVersions cf ∧ versions ≠ [] ∧
        Continues b.nextPatchId (a.compactL2ToL3 · minActiveBeginTs) fun writes =>
          Store.counted cfs reclaimed (b.compactCfs writes minActiveBeginTs (cf :: rest))
  | .merged cfs total cf retained rest, b =>
      ∃ reclaimed stats, b.l2.allVersions cf ≠ [] ∧ total = reclaimed + stats.reclaimed ∧
        gcEntries ((b.l2.allVersions cf).map PatchEntry.ofZ1Entry) minActiveBeginTs = (retained, stats) ∧
        Continues b.nextPatchId (a.compactL2ToL3 · minActiveBeginTs) fun writes =>
          Store.counted cfs reclaimed (b.compactCfs writes minActiveBeginTs (cf :: rest))
  | .handedOver cfs reclaimed cf rest, b =>
      Continues b.nextPatchId (a.compactL2ToL3 · minActiveBeginTs) fun writes =>
        Store.counted (cfs + 1) reclaimed
          (Store.compactCfs writes minActiveBeginTs { b with l2 := b.l2.dropCf cf } rest)
  | .failed e, b => ∃ writes, a.compactL2ToL3 writes minActiveBeginTs = (.error e, b)
  | .returned result, b => ∃ writes, a.compactL2ToL3 writes minActiveBeginTs = (result, b)

section Follows
variable {id : Nat} {a b b' : Store} {gate gate' : MigrationGate}

/-- A step of the flush keeps what it follows. -/
theorem FlushStep.follows {phase phase' : FlushPhase}
    (h : FlushStep id (phase, b, gate) (phase', b', gate')) (hBefore : phase.Follows a b) :
    phase'.Follows a b' := by
  cases h with
  | enter => exact hBefore
  | take =>
      obtain rfl := hBefore
      exact ⟨rfl, rfl⟩
  | resize =>
      obtain ⟨rfl, rfl⟩ := hBefore
      exact ⟨rfl, rfl⟩
  | publish =>
      obtain ⟨rfl, rfl⟩ := hBefore
      exact ⟨rfl, rfl⟩
  | cacheMerge =>
      obtain ⟨rfl, rfl⟩ := hBefore
      rfl
  | getAll =>
      obtain rfl := hBefore
      exact (Continues.refl _ _).congr fun writes => a.flushL1ToL2_flushed writes
  | appendPatch _ _ numGroups cf entries rest outcome l2 hPatch =>
      exact hBefore.write fun writes hWrite => by rw [Store.appendGroups_ok hPatch hWrite rest]
  | appendFails _ _ numGroups cf entries rest outcome l2 e hPatch =>
      refine (hBefore.write fun writes (hWrite : writes b.nextPatchId = outcome) => ?_).done
      rw [Store.appendGroups_error hPatch hWrite rest]
      rfl
  | clear => exact Continues.done hBefore
  | leave => exact hBefore
  | leaveFailed => exact hBefore

/-- A step of the compaction keeps what it follows. -/
theorem CompactStep.follows {minActiveBeginTs : TxnId} {phase phase' : CompactPhase}
    (h : CompactStep id minActiveBeginTs (phase, b, gate) (phase', b', gate'))
    (hBefore : phase.Follows minActiveBeginTs a b) : phase'.Follows minActiveBeginTs a b' := by
  cases h with
  | enter => exact hBefore
  | listCfs =>
      obtain rfl := hBefore
      refine (Continues.refl _ _).congr fun writes => ?_
      rw [Store.compactL2ToL3]
      generalize b.compactCfs writes minActiveBeginTs _ = outcome
      obtain ⟨result, after⟩ := outcome
      cases result with
      | error e => rfl
      | ok counts => simp only [Store.counted, Nat.zero_add]
  | skip _ _ cfs reclaimed cf rest hEmpty =>
      refine hBefore.congr fun writes => ?_
      have hNothing : b.compactCf writes minActiveBeginTs cf = (.ok (0, 0), b) := by
        rw [Store.compactCf, hEmpty]
        rfl
      rw [Store.counted_cons hNothing, Nat.add_zero, Nat.add_zero]
  | allVersions _ _ cfs reclaimed cf rest hFound => exact ⟨rfl, hFound, hBefore⟩
  | gcEntries _ _ cfs reclaimed cf versions rest retained stats hMerge =>
      obtain ⟨rfl, hFound, hRest⟩ := hBefore
      exact ⟨reclaimed, stats, hFound, rfl, hMerge, hRest⟩
  | nothingRetained _ _ cfs _ cf rest =>
      obtain ⟨reclaimed, stats, hFound, rfl, hMerge, hRest⟩ := hBefore
      refine hRest.congr fun writes => ?_
      exact Store.counted_cons (Store.compactCf_nothingRetained hFound hMerge) rest
  | appendPatch _ _ cfs _ cf retained rest outcome l3 hRetained hPatch =>
      obtain ⟨reclaimed, stats, hFound, rfl, hMerge, hRest⟩ := hBefore
      refine hRest.write fun writes (hWrite : writes b.nextPatchId = outcome) => ?_
      exact Store.counted_cons (Store.compactCf_ok hFound hRetained hMerge hPatch hWrite) rest
  | appendFails _ _ cfs _ cf retained rest outcome l3 e hRetained hPatch =>
      obtain ⟨reclaimed, stats, hFound, rfl, hMerge, hRest⟩ := hBefore
      refine (hRest.write fun writes (hWrite : writes b.nextPatchId = outcome) => ?_).done
      rw [Store.compactCfs]
      simp only [Store.compactCf_error hFound hRetained hMerge hPatch hWrite]
      rfl
  | dropCf => exact hBefore
  | leave => exact Continues.done hBefore
  | leaveFailed => exact hBefore

end Follows
end Z1Kv
