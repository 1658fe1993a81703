import Mathlib.Data.Finset.Basic
import Mathlib.Logic.Relation
import Z1Kv.Store.Effects

/-! A flush and a point get step by step. The flush holds the write side of the migration
gate from before it takes the hot buffer until the cache is cleared; a get holds the read
side while it goes through the layers. A put holds neither. -/
namespace Z1Kv

/-- The gate, with the calls that hold its two sides. -/
structure MigrationGate where
  readers : Finset Nat := ∅
  writer : Option Nat := none

/-- How far a flush has got, with what it has in its hands. -/
inductive FlushPhase
  | idle
  | gated
  | taken (oldHot : VersionMap)
  | resized (oldHot : VersionMap)
  | published (swapped : VersionMap)
  | merged
  | patching (numGroups : Nat) (groups : List (UInt16 × List PatchEntry))
  | cleared (numGroups : Nat)
  | failed (e : Z1Error)
  | returned (result : Except Z1Error Nat)

namespace FlushPhase

def holdsGate : FlushPhase → Bool
  | idle | returned _ => false
  | _ => true

/-- What has left the hot buffer and is not in the cache yet. -/
def inHand : FlushPhase → VersionMap
  | taken oldHot | resized oldHot => oldHot
  | published swapped => swapped
  | _ => ∅

end FlushPhase

open FlushPhase in
/-- One step of the flush `id`. -/
inductive FlushStep (id : Nat) :
    FlushPhase × Store × MigrationGate → FlushPhase × Store × MigrationGate → Prop
  | enter (s : Store) (gate : MigrationGate) (hReaders : gate.readers = ∅) (hWriter : gate.writer = none) :
      FlushStep id (idle, s, gate) (gated, s, { gate with writer := some id })
  | take (s : Store) (gate : MigrationGate) :
      FlushStep id (gated, s, gate) (taken s.l1.hot, { s with l1 := { s.l1 with hot := ∅ } }, gate)
  | resize (s : Store) (gate : MigrationGate) (oldHot : VersionMap) :
      FlushStep id (taken oldHot, s, gate)
        (resized oldHot, { s with l1 := { s.l1 with hotSizeBytes := 0 } }, gate)
  | publish (s : Store) (gate : MigrationGate) (oldHot : VersionMap) :
      FlushStep id (resized oldHot, s, gate)
        (published oldHot, { s with l1 := { s.l1 with snapshot := oldHot } }, gate)
  | cacheMerge (s : Store) (gate : MigrationGate) (swapped : VersionMap) :
      FlushStep id (published swapped, s, gate)
        (merged, { s with recentFlush := s.recentFlush.putAll swapped.values }, gate)
  | getAll (s : Store) (gate : MigrationGate) :
      FlushStep id (merged, s, gate)
        (patching (cfGroups s.recentFlush.values).length (cfGroups s.recentFlush.values), s, gate)
  | appendPatch (s : Store) (gate : MigrationGate) (numGroups : Nat) (cf : UInt16)
      (entries : List PatchEntry) (rest : List (UInt16 × List PatchEntry)) (outcome : PatchOutcome)
      (l2 : DiskLayer) (h : s.l2.appendPatch outcome cf entries s.nextPatchId = (.ok (), l2)) :
      FlushStep id (patching numGroups ((cf, entries) :: rest), s, gate)
        (patching numGroups rest, { s with l2, nextPatchId := s.nextPatchId + 1 }, gate)
  | appendFails (s : Store) (gate : MigrationGate) (numGroups : Nat) (cf : UInt16)
      (entries : List PatchEntry) (rest : List (UInt16 × List PatchEntry)) (outcome : PatchOutcome)
      (l2 : DiskLayer) (e : Z1Error)
      (h : s.l2.appendPatch outcome cf entries s.nextPatchId = (.error e, l2)) :
      FlushStep id (patching numGroups ((cf, entries) :: rest), s, gate)
        (failed e, { s with l2, nextPatchId := s.nextPatchId + 1 }, gate)
  | clear (s : Store) (gate : MigrationGate) (numGroups : Nat) :
      FlushStep id (patching numGroups [], s, gate)
        (cleared numGroups, { s with recentFlush := ∅ }, gate)
  | leave (s : Store) (gate : MigrationGate) (numGroups : Nat) :
      FlushStep id (cleared numGroups, s, gate)
        (returned (.ok numGroups), s, { gate with writer := none })
  | leaveFailed (s : Store) (gate : MigrationGate) (e : Z1Error) :
      FlushStep id (failed e, s, gate) (returned (.error e), s, { gate with writer := none })

/-- The arguments of a point get. -/
structure ReadCall where
  snap : TxnSnapshot
  cf : UInt16
  key : Bytes

/-- How far a point get has got, with the candidates it has collected. -/
inductive ReadPhase
  | idle
  | gated (call : ReadCall)
  | readL1 (call : ReadCall) (candidates : List Z1Entry)
  | readCache (call : ReadCall) (candidates : List Z1Entry)
  | readL2 (call : ReadCall) (candidates : List Z1Entry)
  | readL3 (call : ReadCall) (candidates : List Z1Entry)
  | returned (call : ReadCall) (candidates : List Z1Entry) (value : Option Bytes)

namespace ReadPhase

def holdsGate : ReadPhase → Bool
  | idle | returned .. => false
  | _ => true

/-- It has not looked at L1 yet. -/
def isUnread : ReadPhase → Bool
  | idle | gated _ => true
  | _ => false

end ReadPhase

open ReadPhase in
/-- One step of the get `id`. -/
inductive ReadStep (s : Store) (id : Nat) :
    ReadPhase × MigrationGate → ReadPhase × MigrationGate → Prop
  | enter (gate : MigrationGate) (call : ReadCall) (hWriter : gate.writer = none) :
      ReadStep s id (idle, gate) (gated call, { gate with readers := insert id gate.readers })
  | l1 (gate : MigrationGate) (call : ReadCall) :
      ReadStep s id (gated call, gate) (readL1 call (s.l1.getVersions call.snap call.cf call.key), gate)
  | cache (gate : MigrationGate) (call : ReadCall) (candidates : List Z1Entry) :
      ReadStep s id (readL1 call candidates, gate)
        (readCache call (candidates ++ (s.recentFlush.values.filter fun e =>
          e.key = ⟨call.cf, call.key⟩).filter (·.isVisibleAtCommit call.snap)), gate)
  | l2 (gate : MigrationGate) (call : ReadCall) (candidates : List Z1Entry) :
      ReadStep s id (readCache call candidates, gate)
        (readL2 call (candidates ++
          (s.l2.getVersions call.cf call.key).filter (·.isVisibleAtCommit call.snap)), gate)
  | l3 (gate : MigrationGate) (call : ReadCall) (candidates : List Z1Entry) :
      ReadStep s id (readL2 call candidates, gate)
        (readL3 call (candidates ++
          (s.l3.getVersions call.cf call.key).filter (·.isVisibleAtCommit call.snap)), gate)
  | leave (gate : MigrationGate) (call : ReadCall) (candidates : List Z1Entry) :
      ReadStep s id (readL3 call candidates, gate)
        (returned call candidates ((maxByKey Z1Entry.txnId candidates).bind Z1Entry.value),
          { gate with readers := gate.readers.erase id })

section Alone

theorem appendGroups_flushes (id : Nat) (gate : MigrationGate) (numGroups : Nat) (writes : Nat → PatchOutcome)
    (s : Store) (groups : List (UInt16 × List PatchEntry)) :
    match s.appendGroups writes groups with
    | (.ok (), s') =>
        Relation.ReflTransGen (FlushStep id) (.patching numGroups groups, s, gate)
          (.patching numGroups [], s', gate)
    | (.error e, s') =>
        Relation.ReflTransGen (FlushStep id) (.patching numGroups groups, s, gate)
          (.failed e, s', gate) := by
  induction groups generalizing s with
  | nil => exact .refl
  | cons group rest ih =>
      obtain ⟨cf, entries⟩ := group
      rw [Store.appendGroups]
      cases hPatch : s.l2.appendPatch (writes s.nextPatchId) cf entries s.nextPatchId with
      | mk result l2 =>
          cases result with
          | error e => exact .single (.appendFails s gate numGroups cf entries rest _ l2 e hPatch)
          | ok done =>
              have hFirst : FlushStep id (.patching numGroups ((cf, entries) :: rest), s, gate) _ :=
                .appendPatch s gate numGroups cf entries rest _ l2 hPatch
              have hLater := ih { s with l2, nextPatchId := s.nextPatchId + 1 }
              dsimp only at hLater ⊢
              generalize Store.appendGroups writes _ rest = outcome at hLater ⊢
              obtain ⟨result, s'⟩ := outcome
              cases result with
              | error e => exact .head hFirst hLater
              | ok _ => exact .head hFirst hLater

theorem flush_taken_steps (id : Nat) (writes : Nat → PatchOutcome) (s : Store) :
    Relation.ReflTransGen (FlushStep id)
      (.taken s.l1.hot, { s with l1 := { s.l1 with hot := ∅ } }, { writer := some id })
      (.returned (s.flushL1ToL2 writes).1, (s.flushL1ToL2 writes).2, {}) := by
  have hStart : Relation.ReflTransGen (FlushStep id)
      (.taken s.l1.hot, { s with l1 := { s.l1 with hot := ∅ } }, { writer := some id })
      (.patching (cfGroups s.stage.recentFlush.values).length (cfGroups s.stage.recentFlush.values),
        s.stage, { writer := some id }) := by
    refine .head (.resize _ _ _) (.head (.publish _ _ _) ?_)
    exact .head (.cacheMerge _ _ _) (.single (.getAll _ _))
  have hGroups := appendGroups_flushes id { writer := some id }
    (cfGroups s.stage.recentFlush.values).length writes s.stage (cfGroups s.stage.recentFlush.values)
  refine hStart.trans ?_
  rw [Store.flushL1ToL2]
  generalize Store.appendGroups writes s.stage _ = outcome at hGroups ⊢
  obtain ⟨result, s'⟩ := outcome
  cases result with
  | error e => exact hGroups.tail (.leaveFailed s' { writer := some id } e)
  | ok _ => exact (hGroups.tail (.clear s' _ _)).tail (.leave _ { writer := some id } _)

/-- The steps of a flush that nothing interrupts are the flush. -/
theorem flushL1ToL2_steps (id : Nat) (writes : Nat → PatchOutcome) (s : Store) :
    Relation.ReflTransGen (FlushStep id) (.idle, s, {})
      (.returned (s.flushL1ToL2 writes).1, (s.flushL1ToL2 writes).2, {}) :=
  .head (.enter s {} rfl rfl) (.head (.take s _) (flush_taken_steps id writes s))

/-- The steps of a get on a store that does not change are the get. -/
theorem getAt_steps (id : Nat) (s : Store) (call : ReadCall) :
    Relation.ReflTransGen (ReadStep s id) (.idle, {})
      (.returned call (s.candidates call.snap call.cf call.key) (s.getAt call.snap call.cf call.key),
        {}) := by
  refine .head (.enter {} call rfl) (.head (.l1 _ call) (.head (.cache _ call _) ?_))
  refine .head (.l2 _ call _) (.head (.l3 _ call _) (.single ?_))
  have hLeave := @ReadStep.leave s id { readers := insert id ∅ } call
    (s.candidates call.snap call.cf call.key)
  have hGate : (insert id ∅ : Finset Nat).erase id = ∅ := by simp
  dsimp only at hLeave
  rw [hGate] at hLeave
  exact hLeave

end Alone

/-- The value of a version on its way to L2: in the hot buffer, in the hands of the
flush, or in the cache. -/
def Store.pending (s : Store) (inHand : VersionMap) (version : Z1Key × TxnId) : Option (Option Bytes) :=
  (AList.lookup version s.l1.hot).or
    ((AList.lookup version inHand).or (AList.lookup version s.recentFlush))

/-- What the flush has cached is in L2 or in the groups still to be written. -/
def FlushPhase.Writes (s : Store) : FlushPhase → Prop
  | .patching _ groups => ∀ e ∈ s.recentFlush.values, e ∈ s.l2.versions ∨
      ∃ group ∈ groups, ∃ pe ∈ group.2, pe.toZ1Entry group.1 = e
  | _ => True

section Effects
variable {id : Nat} {phase phase' : FlushPhase} {s s' : Store} {gate gate' : MigrationGate}

theorem FlushStep.l2_subset (h : FlushStep id (phase, s, gate) (phase', s', gate')) {e : Z1Entry}
    (he : e ∈ s.l2.versions) : e ∈ s'.l2.versions := by
  cases h with
  | appendPatch _ _ numGroups cf entries rest outcome l2 hPatch =>
      exact DiskLayer.subset_appendPatch hPatch he
  | appendFails _ _ numGroups cf entries rest outcome l2 e hPatch =>
      exact DiskLayer.subset_appendPatch hPatch he
  | _ => exact he

/-- The other places a flush leaves alone. -/
theorem FlushStep.frame (h : FlushStep id (phase, s, gate) (phase', s', gate')) :
    s'.l1.cold = s.l1.cold ∧ s'.l3 = s.l3 := by
  cases h <;> exact ⟨rfl, rfl⟩

/-- A flush moves a version along its way; only the last step takes versions from it. -/
theorem FlushStep.pending (h : FlushStep id (phase, s, gate) (phase', s', gate')) :
    (∀ version, s'.pending phase'.inHand version = s.pending phase.inHand version) ∨
      ∃ numGroups, phase = .patching numGroups [] ∧ phase'.inHand = ∅ ∧
        s' = { s with recentFlush := ∅ } := by
  cases h with
  | take =>
      refine Or.inl fun version => ?_
      simp [Store.pending, FlushPhase.inHand]
  | cacheMerge _ _ swapped =>
      refine Or.inl fun version => ?_
      simp [Store.pending, FlushPhase.inHand, VersionMap.lookup_putAll]
  | clear _ _ numGroups => exact Or.inr ⟨numGroups, rfl, rfl, rfl⟩
  | _ => exact Or.inl fun version => rfl

theorem FlushStep.writes (h : FlushStep id (phase, s, gate) (phase', s', gate')) (hWrites : phase.Writes s) :
    phase'.Writes s' := by
  cases h with
  | getAll => exact fun e he => Or.inr (mem_cfGroups.mp he)
  | appendPatch _ _ numGroups cf entries rest outcome l2 hPatch =>
      exact fun e he => DiskLayer.appendPatch_groups hPatch (hWrites e he)
  | _ => exact trivial

end Effects
end Z1Kv
