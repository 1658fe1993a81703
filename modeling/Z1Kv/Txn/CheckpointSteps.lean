import Mathlib.Logic.Relation
import Z1Kv.Txn.Fallback
import Z1Kv.Wal.Faults

/-! A checkpoint step by step: stage the hot buffer, write the patches one by one, clear
the cache, sync, read the history, write the checkpoint file, move the pointer, append
the marker, read the position, delete the old segments one by one. Each step may fail
and end the checkpoint, and a crash may come after each of them. -/
namespace Z1Kv

/-- How far a checkpoint has got, with what it has read so far. -/
inductive CheckpointPhase
  | start
  | patching (groups : List (UInt16 × List PatchEntry))
  | flushed
  | synced
  | captured (state : CheckpointState)
  | filed (state : CheckpointState)
  | pointed (state : CheckpointState)
  | marked
  | deleting (pos : Nat)
  | ended (result : Except Z1Error Unit)

/-- Remove one segment file. -/
def WalWriter.removeSegment (w : WalWriter) (seq : Nat) : WalWriter :=
  { w with dir := w.dir.filter (·.1 ≠ seq) }

open CheckpointPhase in
/-- One step of a checkpoint. Segments are deleted in any order. -/
inductive CheckpointStep (codec : Codec) : CheckpointPhase × Engine → CheckpointPhase × Engine → Prop
  | stage (db : Engine) :
      CheckpointStep codec (start, db)
        (patching (cfGroups db.store.stage.recentFlush.values), { db with store := db.store.stage })
  | patch (db : Engine) (cf : UInt16) (entries : List PatchEntry)
      (rest : List (UInt16 × List PatchEntry)) (outcome : PatchOutcome) (l2 : DiskLayer)
      (h : db.store.l2.appendPatch outcome cf entries db.store.nextPatchId = (.ok (), l2)) :
      CheckpointStep codec (patching ((cf, entries) :: rest), db)
        (patching rest,
          { db with store := { db.store with l2, nextPatchId := db.store.nextPatchId + 1 } })
  | patchFails (db : Engine) (cf : UInt16) (entries : List PatchEntry)
      (rest : List (UInt16 × List PatchEntry)) (outcome : PatchOutcome) (l2 : DiskLayer) (e : Z1Error)
      (h : db.store.l2.appendPatch outcome cf entries db.store.nextPatchId = (.error e, l2)) :
      CheckpointStep codec (patching ((cf, entries) :: rest), db)
        (ended (.error e),
          { db with store := { db.store with l2, nextPatchId := db.store.nextPatchId + 1 } })
  | clear (db : Engine) :
      CheckpointStep codec (patching [], db)
        (flushed, { db with store := { db.store with recentFlush := ∅ } })
  | sync (db : Engine) (wal : WalWriter) (h : db.wal.flushAndSync codec = (.ok (), wal)) :
      CheckpointStep codec (flushed, db) (synced, { db with wal })
  | syncFails (db : Engine) (e : Z1Error) :
      CheckpointStep codec (flushed, db) (ended (.error e), db)
  | capture (db : Engine) : CheckpointStep codec (synced, db) (captured db.checkpointState, db)
  | file (db : Engine) (state : CheckpointState) :
      CheckpointStep codec (captured state, db)
        (filed state,
          { db with
            checkpoints :=
              { db.checkpoints with
                files := AList.insert state.checkpointId state db.checkpoints.files } })
  | fileFails (db : Engine) (state : CheckpointState) (e : Z1Error) :
      CheckpointStep codec (captured state, db) (ended (.error e), db)
  | point (db : Engine) (state : CheckpointState) :
      CheckpointStep codec (filed state, db)
        (pointed state,
          { db with checkpoints := { db.checkpoints with latest := some state.checkpointId } })
  | pointFails (db : Engine) (state : CheckpointState) (e : Z1Error) :
      CheckpointStep codec (filed state, db) (ended (.error e), db)
  | mark (db : Engine) (state : CheckpointState) (io : AppendIo) (wal : WalWriter)
      (h : db.wal.appendDurableIo codec io state.committedTxn (.checkpoint state.checkpointId) =
        (.ok (), wal)) :
      CheckpointStep codec (pointed state, db) (marked, { db with wal })
  | markFails (db : Engine) (state : CheckpointState) (io : AppendIo) (wal : WalWriter) (e : Z1Error)
      (h : db.wal.appendDurableIo codec io state.committedTxn (.checkpoint state.checkpointId) =
        (.error e, wal)) :
      CheckpointStep codec (pointed state, db) (ended (.error e), { db with wal })
  | position (db : Engine) : CheckpointStep codec (marked, db) (deleting db.wal.position, db)
  | delete (db : Engine) (pos seq : Nat) (hFile : seq ∈ db.wal.dir.map Prod.fst) (hBelow : seq < pos) :
      CheckpointStep codec (deleting pos, db) (deleting pos, { db with wal := db.wal.removeSegment seq })
  | deleteFails (db : Engine) (pos : Nat) (e : Z1Error) :
      CheckpointStep codec (deleting pos, db) (ended (.error e), db)
  | finish (db : Engine) (pos : Nat) (h : ∀ file ∈ db.wal.dir, pos ≤ file.1) :
      CheckpointStep codec (deleting pos, db) (ended (.ok ()), db)

/-- The states that a checkpoint goes through. -/
abbrev CheckpointSteps (codec : Codec) := Relation.ReflTransGen (CheckpointStep codec)

section Refinement
variable {codec : Codec} {maxFileSize : Nat}

/-- The loop over the groups. -/
theorem appendGroups_steps (db : Engine) (writes : Nat → PatchOutcome)
    (groups : List (UInt16 × List PatchEntry)) :
    match db.store.appendGroups writes groups with
    | (.ok (), store) => CheckpointSteps codec (.patching groups, db) (.patching [], { db with store })
    | (.error e, store) =>
        CheckpointSteps codec (.patching groups, db) (.ended (.error e), { db with store }) := by
  induction groups generalizing db with
  | nil => exact .refl
  | cons group rest ih =>
      obtain ⟨cf, entries⟩ := group
      rw [Store.appendGroups]
      cases hPatch : db.store.l2.appendPatch (writes db.store.nextPatchId) cf entries
          db.store.nextPatchId with
      | mk result l2 =>
          cases result with
          | error e => exact .single (.patchFails db cf entries rest _ l2 e hPatch)
          | ok done =>
              have hFirst : CheckpointStep codec (.patching ((cf, entries) :: rest), db) _ :=
                .patch db cf entries rest _ l2 hPatch
              have hLater := ih
                { db with store := { db.store with l2, nextPatchId := db.store.nextPatchId + 1 } }
              dsimp only at hLater ⊢
              generalize Store.appendGroups writes _ rest = outcome at hLater ⊢
              obtain ⟨result, store⟩ := outcome
              cases result with
              | error e => exact .head hFirst hLater
              | ok _ => exact .head hFirst hLater

/-- Deleting all segments below the position, the lowest first. -/
theorem delete_steps (db : Engine) (pos : Nat) :
    CheckpointSteps codec (.deleting pos, db)
      (.deleting pos, { db with wal := { db.wal with dir := db.wal.dir.filter (pos ≤ ·.1) } }) := by
  suffices hUpTo : ∀ k ≤ pos, CheckpointSteps codec (.deleting pos, db)
      (.deleting pos, { db with wal := { db.wal with dir := db.wal.dir.filter (k ≤ ·.1) } }) from
    hUpTo pos le_rfl
  intro k
  induction k with
  | zero =>
      intro _
      have hAll : db.wal.dir.filter (0 ≤ ·.1) = db.wal.dir :=
        List.filter_eq_self.mpr fun file _ => by simp
      rw [hAll]
  | succ k ih =>
      intro hLe
      have hBefore := ih (Nat.le_of_succ_le hLe)
      have hFilter : (db.wal.dir.filter (k ≤ ·.1)).filter (·.1 ≠ k) = db.wal.dir.filter (k + 1 ≤ ·.1) := by
        rw [List.filter_filter]
        congr 1
        funext file
        simp only [← Bool.decide_and, decide_eq_decide]
        omega
      by_cases hFile : k ∈ (db.wal.dir.filter (k ≤ ·.1)).map Prod.fst
      · refine hBefore.tail ?_
        have hDelete : CheckpointStep codec _ _ := .delete
          { db with wal := { db.wal with dir := db.wal.dir.filter (k ≤ ·.1) } } pos k hFile hLe
        simp only [WalWriter.removeSegment] at hDelete
        rwa [hFilter] at hDelete
      · have hSame : (db.wal.dir.filter (k ≤ ·.1)).filter (·.1 ≠ k) = db.wal.dir.filter (k ≤ ·.1) :=
          List.filter_eq_self.mpr fun file hf => by
            simpa using fun hEq => hFile (List.mem_map.mpr ⟨file, hf, hEq⟩)
        rw [← hFilter, hSame]
        exact hBefore

theorem WalWriter.InSession.appendDurableIo_default {w : WalWriter} (h : w.InSession maxFileSize)
    (txnId : TxnId) (record : WalRecord) :
    w.appendDurableIo codec {} txnId record = w.appendDurable codec txnId record := by
  have hEnabled : w.config.enabled = true := by rw [h.config]; rfl
  have hAppend : w.appendIo codec {} txnId record = w.append codec txnId record :=
    h.appendIo_eq fun _ => ⟨fun _ => rfl, rfl⟩
  rw [h.appendDurable_eq, WalWriter.appendDurableIo, if_neg (by simp [hEnabled]), hAppend]
  generalize w.append codec txnId record = outcome
  obtain ⟨result, after⟩ := outcome
  cases result <;> rfl

/-- The flush of a checkpoint, and the history read after it. -/
theorem flushNow_steps {db : Engine} (h : db.wal.InSession maxFileSize) (writes : Writes) :
    match db.flushNow writes with
    | (.ok _, db') => CheckpointSteps codec (.start, db) (.captured db'.checkpointState, db')
    | (.error e, db') => CheckpointSteps codec (.start, db) (.ended (.error e), db') := by
  have hGroups := @appendGroups_steps codec { db with store := db.store.stage } writes.patch
    (cfGroups db.store.stage.recentFlush.values)
  unfold Engine.flushNow Store.flushL1ToL2
  dsimp only at hGroups ⊢
  generalize db.store.stage.appendGroups writes.patch (cfGroups db.store.stage.recentFlush.values) =
    outcome at hGroups ⊢
  obtain ⟨result, store⟩ := outcome
  cases result with
  | error e => exact .head (.stage db) hGroups
  | ok _ =>
      refine .head (.stage db) (hGroups.trans (.head (.clear _) ?_))
      exact .head (.sync _ db.wal (h.flushAndSync_eq codec)) (.single (.capture _))

/-- The checkpoint of the engine goes through these steps. -/
theorem checkpoint_steps {db : Engine} (h : db.wal.InSession maxFileSize) (writes : Writes) :
    CheckpointSteps codec (.start, db)
      (.ended (db.checkpoint codec writes).1, (db.checkpoint codec writes).2) := by
  have hFlush := @flushNow_steps codec maxFileSize db h writes
  have hWal : (db.flushNow writes).2.wal = db.wal := rfl
  unfold Engine.checkpoint
  generalize db.flushNow writes = flushed at hFlush hWal ⊢
  obtain ⟨result, db'⟩ := flushed
  cases result with
  | error e => exact hFlush
  | ok _ =>
      have h : db'.wal.InSession maxFileSize := by
        dsimp only at hWal
        rwa [hWal]
      refine hFlush.trans ?_
      dsimp only
      rw [h.flushAndSync_eq codec]
      dsimp only [Engine.checkpointState, Engine.writeCheckpoint, CheckpointDir.write]
      cases hFile : writes.checkpointFile with
      | false =>
          simp only [↓reduceIte]
          exact .single (.fileFails _ _ _)
      | true =>
          refine .head (.file _ _) ?_
          simp only [Bool.true_eq_false, ↓reduceIte]
          cases hPointer : writes.latestPointer with
          | false =>
              simp only [↓reduceIte]
              exact .single (.pointFails _ _ _)
          | true =>
              refine .head (.point _ _) ?_
              simp only [Bool.true_eq_false, ↓reduceIte, Engine.appendMarker]
              have hMarker := @WalWriter.InSession.appendDurableIo_default codec maxFileSize db'.wal h
                db'.mvcc.committedTxn (.checkpoint db'.mvcc.committedTxn)
              have hQueue := @Engine.inSession_append codec maxFileSize db'.wal h db'.mvcc.committedTxn
                (.checkpoint db'.mvcc.committedTxn)
              rw [← h.appendDurable_eq] at hQueue
              generalize db'.wal.appendDurable codec db'.mvcc.committedTxn
                (.checkpoint db'.mvcc.committedTxn) = appended at hMarker hQueue ⊢
              obtain ⟨result, wal⟩ := appended
              cases result with
              | error e => exact .single (.markFails _ _ {} wal e hMarker)
              | ok _ =>
                  refine .head (.mark _ _ {} wal hMarker) (.head (.position _) ?_)
                  have hNone : wal.queue = [] := hQueue.queue
                  dsimp only [Engine.truncateWal, WalWriter.truncateBefore]
                  rw [if_neg (by simp [hNone])]
                  refine (delete_steps _ _).tail (.finish _ _ fun file hf => ?_)
                  simpa using (List.mem_filter.mp hf).2

end Refinement

/-- The directory as a crash finds it. -/
def Engine.onDisk (db : Engine) : DataDir :=
  ⟨db.wal.dir, db.checkpoints, db.store.l2.files, db.store.l3.files⟩

/-- The Commit record of a transaction is in the WAL, with Put records of it. -/
def WalDir.Knows (codec : Codec) (dir : WalDir) (t : TxnId) : Prop :=
  ∃ entries, replayAll codec dir = .ok entries ∧ Replayed entries t

/-- The Put record of a version and the Commit record of its transaction are in the
WAL. -/
def WalDir.Has (codec : Codec) (dir : WalDir) (e : Z1Entry) : Prop :=
  ∃ entries, replayAll codec dir = .ok entries ∧ HasCommit entries e.txnId ∧
    e.logged ∈ livePuts e.txnId entries

/-- A committed transaction with versions is in the latest checkpoint or in the WAL,
and so are its versions in L2, L3 or the WAL. -/
structure Engine.Covers (codec : Codec) (db : Engine) (versions : Set Z1Entry) : Prop where
  known : ∀ e ∈ versions, e.txnId ∈ db.mvcc.committedHistory →
    e.txnId ∈ db.checkpoints.history ∨ db.wal.dir.Knows codec e.txnId
  stored : ∀ e ∈ versions, e.txnId ∈ db.mvcc.committedHistory →
    e ∈ db.store.l2.versions ∨ e ∈ db.store.l3.versions ∨ db.wal.dir.Has codec e

/-- The value of a version as the hot buffer, the cache, L2 or L3 holds it; a put of the
same version to the hot buffer replaces the value in the cache. -/
def Store.Current (s : Store) (e : Z1Entry) : Prop :=
  e ∈ s.l1.hot.values ∨ (e ∈ s.recentFlush.values ∧ ∀ v ∈ s.l1.hot.values, v.id ≠ e.id) ∨
    e ∈ s.l2.versions ∨ e ∈ s.l3.versions

theorem Store.Current.staged {s : Store} {e : Z1Entry} (h : s.Current e) :
    e ∈ s.stage.recentFlush.values ∨ e ∈ s.l2.versions ∨ e ∈ s.l3.versions := by
  rcases h with h | ⟨h, hOther⟩ | h
  · refine Or.inl ?_
    obtain ⟨v, hv, hId⟩ := @VersionMap.exists_putAll s.recentFlush s.l1.hot.values e (Or.inl h)
    rcases VersionMap.mem_values_putAll hv with hHot | ⟨hOld, hNone⟩
    · rwa [← VersionMap.values_inj hHot h hId]
    · exact absurd hId.symm (hNone e h)
  · refine Or.inl ?_
    obtain ⟨v, hv, hId⟩ := @VersionMap.exists_putAll s.recentFlush s.l1.hot.values e (Or.inr h)
    rcases VersionMap.mem_values_putAll hv with hHot | ⟨hOld, -⟩
    · exact absurd hId (hOther v hHot)
    · rwa [← VersionMap.values_inj hOld h hId]
  · exact Or.inr h

/-- Where the versions are in each phase, beside what is on disk. -/
def CheckpointPhase.Carries (versions : Set Z1Entry) (db : Engine) : CheckpointPhase → Prop
  | .start => ∀ e ∈ versions, db.store.Current e
  | .patching groups => ∀ e ∈ versions, e ∈ db.store.l2.versions ∨ e ∈ db.store.l3.versions ∨
      ∃ group ∈ groups, ∃ pe ∈ group.2, pe.toZ1Entry group.1 = e
  | .captured state =>
      (∀ e ∈ versions, e ∈ db.store.l2.versions ∨ e ∈ db.store.l3.versions) ∧
        state = db.checkpointState
  | .filed state =>
      (∀ e ∈ versions, e ∈ db.store.l2.versions ∨ e ∈ db.store.l3.versions) ∧
        state = db.checkpointState ∧ AList.lookup state.checkpointId db.checkpoints.files = some state
  | .flushed | .synced => ∀ e ∈ versions, e ∈ db.store.l2.versions ∨ e ∈ db.store.l3.versions
  | .pointed _ | .marked | .deleting _ =>
      (∀ e ∈ versions, e ∈ db.store.l2.versions ∨ e ∈ db.store.l3.versions) ∧
        ∀ t ∈ db.mvcc.committedHistory, t ∈ db.checkpoints.history
  | .ended _ => True

section Coverage
variable {codec : Codec} {maxFileSize : Nat} {versions : Set Z1Entry}

/-- Coverage once the history is in the latest checkpoint; the WAL has no part in it. -/
theorem Engine.Covers.of_checkpoint {db : Engine}
    (hStored : ∀ e ∈ versions, e ∈ db.store.l2.versions ∨ e ∈ db.store.l3.versions)
    (hKnown : ∀ t ∈ db.mvcc.committedHistory, t ∈ db.checkpoints.history) :
    db.Covers codec versions :=
  ⟨fun _ _ ht => Or.inl (hKnown _ ht), fun e he _ => (hStored e he).imp_right Or.inl⟩

theorem CheckpointDir.mem_history_of_latest {ckpts : CheckpointDir} {state : CheckpointState}
    (hLatest : ckpts.latest = some state.checkpointId)
    (hFile : AList.lookup state.checkpointId ckpts.files = some state) :
    ckpts.history = state.committedHistory.map Prod.fst := by
  simp [history, recoveryBaseline, loadLatest, hLatest, hFile]

/-- A new checkpoint file changes the latest checkpoint only if it has its number. -/
theorem CheckpointDir.history_insert (ckpts : CheckpointDir) (state : CheckpointState) :
    (ckpts.latest ≠ some state.checkpointId ∧ CheckpointDir.history
        { ckpts with files := AList.insert state.checkpointId state ckpts.files } = ckpts.history) ∨
      ckpts.latest = some state.checkpointId ∧ CheckpointDir.history
        { ckpts with files := AList.insert state.checkpointId state ckpts.files } =
          state.committedHistory.map Prod.fst := by
  cases hLatest : ckpts.latest with
  | none =>
      refine Or.inl ⟨by simp, ?_⟩
      simp [history, recoveryBaseline, loadLatest, hLatest]
  | some id =>
      by_cases hId : id = state.checkpointId
      · refine Or.inr ⟨by rw [hId], mem_history_of_latest (by rw [← hId]) ?_⟩
        exact AList.lookup_insert _
      · refine Or.inl ⟨by simpa using hId, ?_⟩
        simp [history, recoveryBaseline, loadLatest, hLatest, AList.lookup_insert_ne hId]

theorem Engine.mem_checkpointState (db : Engine) {t : TxnId} (ht : t ∈ db.mvcc.committedHistory) :
    t ∈ db.checkpointState.committedHistory.map Prod.fst :=
  VisibilityManager.mem_committedHistoryEntries.mpr ht

/-- Coverage goes on when L2 grows and the rest of the disk stays as good. -/
theorem Engine.Covers.mono {db db' : Engine} (h : db.Covers codec versions) (hMvcc : db'.mvcc = db.mvcc)
    (hWal : db'.wal.dir = db.wal.dir)
    (hKnown : ∀ t ∈ db.mvcc.committedHistory, t ∈ db.checkpoints.history →
      t ∈ db'.checkpoints.history)
    (hL2 : ∀ e ∈ db.store.l2.versions, e ∈ db'.store.l2.versions)
    (hL3 : db'.store.l3 = db.store.l3) : db'.Covers codec versions := by
  refine ⟨fun e he ht => ?_, fun e he ht => ?_⟩
  · rw [hMvcc] at ht
    rw [hWal]
    exact (h.known e he ht).imp_left (hKnown _ ht)
  · rw [hMvcc] at ht
    rw [hWal, hL3]
    exact (h.stored e he ht).imp_left (hL2 e)

/-- What a checkpoint keeps from step to step. -/
structure CheckpointPhase.Sound (codec : Codec) (maxFileSize : Nat) (versions : Set Z1Entry)
    (before : Engine) (phase : CheckpointPhase) (db : Engine) : Prop where
  covers : db.Covers codec versions
  carries : phase.Carries versions db
  mvcc : db.mvcc = before.mvcc
  session : (∃ result, phase = .ended result) ∨ phase = .marked ∨ (∃ pos, phase = .deleting pos) ∨
    db.wal.InSession maxFileSize

theorem CheckpointPhase.Sound.step {before : Engine} {current next : CheckpointPhase × Engine}
    (h : current.1.Sound codec maxFileSize versions before current.2)
    (hStep : CheckpointStep codec current next) : next.1.Sound codec maxFileSize versions before next.2 := by
  obtain ⟨hCovers, hCarries, hMvcc, hSession⟩ := h
  cases hStep with
  | stage db =>
      refine ⟨hCovers.mono rfl rfl (fun _ _ ht => ht) (fun _ he => he) rfl, ?_, hMvcc, by simpa using hSession⟩
      intro e he
      rcases (hCarries e he).staged with hCache | hL2 | hL3
      · exact Or.inr (Or.inr (mem_cfGroups.mp hCache))
      · exact Or.inl hL2
      · exact Or.inr (Or.inl hL3)
  | patch db cf entries rest outcome l2 hPatch =>
      refine ⟨hCovers.mono rfl rfl (fun _ _ ht => ht) (fun _ => DiskLayer.subset_appendPatch hPatch) rfl,
        ?_, hMvcc, by simpa using hSession⟩
      intro e he
      rcases hCarries e he with hL2 | hL3 | hGroups
      · exact Or.inl (DiskLayer.subset_appendPatch hPatch hL2)
      · exact Or.inr (Or.inl hL3)
      · exact (DiskLayer.appendPatch_groups hPatch (Or.inr hGroups)).imp_right Or.inr
  | patchFails db cf entries rest outcome l2 e hPatch =>
      exact ⟨hCovers.mono rfl rfl (fun _ _ ht => ht) (fun _ => DiskLayer.subset_appendPatch hPatch) rfl,
        trivial, hMvcc, Or.inl ⟨_, rfl⟩⟩
  | clear db =>
      refine ⟨hCovers.mono rfl rfl (fun _ _ ht => ht) (fun _ he => he) rfl, ?_, hMvcc, by simpa using hSession⟩
      intro e he
      rcases hCarries e he with hL2 | hL3 | ⟨group, hGroup, -⟩
      · exact Or.inl hL2
      · exact Or.inr hL3
      · cases hGroup
  | sync db wal hSync =>
      have hIn : db.wal.InSession maxFileSize := by simpa using hSession
      rw [hIn.flushAndSync_eq] at hSync
      obtain ⟨-, rfl⟩ := Prod.mk.inj hSync
      exact ⟨hCovers, hCarries, hMvcc, Or.inr (Or.inr (Or.inr hIn))⟩
  | capture db => exact ⟨hCovers, ⟨hCarries, rfl⟩, hMvcc, by simpa using hSession⟩
  | file db state =>
      obtain ⟨hStored, hState⟩ := hCarries
      have hState : state = db.checkpointState := hState
      subst hState
      refine ⟨hCovers.mono rfl rfl (fun t ht hOld => ?_) (fun _ he => he) rfl,
        ⟨hStored, rfl, AList.lookup_insert _⟩, hMvcc, by simpa using hSession⟩
      rcases db.checkpoints.history_insert db.checkpointState with ⟨-, hSame⟩ | ⟨-, hNew⟩
      · dsimp only
        rwa [hSame]
      · dsimp only
        rw [hNew]
        exact db.mem_checkpointState ht
  | point db state =>
      obtain ⟨hStored, hState, hFile⟩ := hCarries
      have hState : state = db.checkpointState := hState
      subst hState
      have hKnown : ∀ t ∈ db.mvcc.committedHistory,
          t ∈ CheckpointDir.history { db.checkpoints with latest := some db.checkpointState.checkpointId } := by
        intro t ht
        have hHistory := @CheckpointDir.mem_history_of_latest
          { db.checkpoints with latest := some db.checkpointState.checkpointId } db.checkpointState rfl hFile
        rw [hHistory]
        exact db.mem_checkpointState ht
      exact ⟨.of_checkpoint hStored hKnown, ⟨hStored, hKnown⟩, hMvcc, by simpa using hSession⟩
  | mark db state io wal =>
      obtain ⟨hStored, hKnown⟩ := hCarries
      exact ⟨.of_checkpoint hStored hKnown, ⟨hStored, hKnown⟩, hMvcc, Or.inr (Or.inl rfl)⟩
  | markFails db state io wal e =>
      obtain ⟨hStored, hKnown⟩ := hCarries
      exact ⟨.of_checkpoint hStored hKnown, trivial, hMvcc, Or.inl ⟨_, rfl⟩⟩
  | position db => exact ⟨hCovers, hCarries, hMvcc, Or.inr (Or.inr (Or.inl ⟨_, rfl⟩))⟩
  | delete db pos seq =>
      obtain ⟨hStored, hKnown⟩ := hCarries
      exact ⟨.of_checkpoint hStored hKnown, ⟨hStored, hKnown⟩, hMvcc, Or.inr (Or.inr (Or.inl ⟨_, rfl⟩))⟩
  | _ => exact ⟨hCovers, trivial, hMvcc, Or.inl ⟨_, rfl⟩⟩

end Coverage

section Crashes
variable {codec : Codec} {maxFileSize : Nat}

/-- Opening the writer does not change what replay reads. -/
theorem replayAll_openLatest (dir : WalDir) (config : WalConfig) :
    replayAll codec (WalWriter.openLatest dir config).dir = replayAll codec dir := by
  unfold WalWriter.openLatest
  cases hHighest : dir.highest with
  | some file => rfl
  | none =>
      rw [WalDir.eq_nil_of_highest hHighest]
      rfl

/-- An open on a covered directory shows every committed version. -/
theorem Engine.Covers.opened {db opened : Engine} {versions : Set Z1Entry}
    (h : db.Covers codec versions) {env : OpenEnv} {config : Z1Config}
    (hOpen : Engine.openWithConfig codec maxFileSize env config db.onDisk = .ok opened) {e : Z1Entry}
    (he : e ∈ versions) (ht : e.txnId ∈ db.mvcc.committedHistory) :
    opened.snapshot.1.sees e.txnId = true ∧
      ∃ v ∈ opened.store.held, v.id = e.id ∧ (v = e ∨ db.wal.dir.Has codec v) := by
  obtain ⟨entries, hReplay, hOpened⟩ := Engine.Opened.of_open hOpen
  rw [replayAll_openLatest] at hReplay
  constructor
  · rw [hOpened.sound.snapshot_sees, hOpened.history]
    refine (h.known e he ht).imp_right ?_
    rintro ⟨entries', hReplay', hCommit, hLive⟩
    obtain rfl := Except.ok.inj (hReplay'.symm.trans hReplay)
    exact ⟨hCommit, mem_pending_of_live hLive⟩
  · rcases h.stored e he ht with hL2 | hL3 | ⟨entries', hReplay', hCommit, hLive⟩
    · exact ⟨e, hOpened.held_of_disk (Or.inl (DiskLayer.mem_files hL2)), rfl, Or.inl rfl⟩
    · exact ⟨e, hOpened.held_of_disk (Or.inr (DiskLayer.mem_files hL3)), rfl, Or.inl rfl⟩
    · obtain rfl := Except.ok.inj (hReplay'.symm.trans hReplay)
      -- a later put of the same version in the log may have replaced the value
      obtain ⟨v, hv, hId, -⟩ := hOpened.hot_copy hCommit hLive (version?_logged e)
      obtain ⟨hCommit', op, hOp, hVersion⟩ := hOpened.hot v hv
      obtain rfl := version?_eq_some.mp hVersion
      exact ⟨v, Store.mem_held_iff.mpr (Or.inl hv), hId, Or.inr ⟨_, hReplay, hCommit', hOp⟩⟩

theorem WalWriter.Readable.removeSegment {w : WalWriter} (h : w.Readable codec) {seq : Nat}
    (hNe : seq ≠ w.seq) : (w.removeSegment seq).Readable codec := by
  obtain ⟨front, last, hDir, hFormed, hWhole, hLast⟩ := h
  have hKept : (front ++ [last]).filter (·.seq ≠ seq) = front.filter (·.seq ≠ seq) ++ [last] := by
    rw [List.filter_append, List.filter_cons_of_pos (by simpa [hLast] using hNe.symm), List.filter_nil]
  refine ⟨front.filter (·.seq ≠ seq), last, ?_, ?_, fun s hs => hWhole s (List.mem_filter.mp hs).1, hLast⟩
  · rw [← hKept]
    change w.dir.filter (·.1 ≠ seq) = _
    rw [hDir, SegmentLog.dir, SegmentLog.dir, List.filter_map]
    rfl
  · rw [← hKept]
    exact ⟨hFormed.ascending.filter _, fun s hs => hFormed.segments s (List.mem_filter.mp hs).1⟩

theorem WalWriter.Readable.replays {w : WalWriter} (h : w.Readable codec) :
    ∃ entries, replayAll codec w.dir = .ok entries := by
  obtain ⟨front, last, hDir, hFormed, hWhole, -⟩ := h
  rw [hDir]
  refine ⟨_, replayAll_clean hFormed fun s hs => hWhole s ?_⟩
  rwa [List.dropLast_concat] at hs

def CheckpointPhase.beforeMarker : CheckpointPhase → Bool
  | .marked | .deleting _ | .ended _ => false
  | _ => true

/-- The WAL can be read, is untouched before the marker, and keeps its last segment. -/
structure CheckpointPhase.Reads (codec : Codec) (before : Engine) (phase : CheckpointPhase) (db : Engine) :
    Prop where
  readable : db.wal.Readable codec
  untouched : phase.beforeMarker = true → db.wal = before.wal
  above : ∀ pos, phase = .deleting pos → pos ≤ db.wal.seq

theorem CheckpointPhase.Reads.step {before : Engine} {log : SegmentLog}
    (hLogs : before.wal.Logs codec maxFileSize log) {current next : CheckpointPhase × Engine}
    (h : current.1.Reads codec before current.2) (hStep : CheckpointStep codec current next) :
    next.1.Reads codec before next.2 := by
  obtain ⟨hReadable, hUntouched, hAbove⟩ := h
  have hEarly : ∀ (phase : CheckpointPhase) (db : Engine), db.wal = before.wal →
      (∀ pos, phase ≠ .deleting pos) → phase.Reads codec before db := by
    intro phase db hWal hNot
    exact ⟨by rw [hWal]; exact hLogs.readable, fun _ => hWal, fun pos hPos => absurd hPos (hNot pos)⟩
  cases hStep with
  | sync db wal hSync =>
      have hWal := hUntouched rfl
      dsimp only at hWal
      rw [hWal, hLogs.toInSession.flushAndSync_eq] at hSync
      exact hEarly _ _ (Prod.mk.inj hSync).2.symm (by simp)
  | mark db state io wal hMark =>
      have hWal := hUntouched rfl
      dsimp only at hWal
      have hRead := @WalWriter.Logs.appendDurableIo_readable codec maxFileSize before.wal log io hLogs
        state.committedTxn (.checkpoint state.checkpointId)
      rw [← hWal, hMark] at hRead
      exact ⟨hRead, fun hNot => (by cases hNot), fun pos hPos => (by cases hPos)⟩
  | markFails db state io wal e hMark =>
      have hWal := hUntouched rfl
      dsimp only at hWal
      have hRead := @WalWriter.Logs.appendDurableIo_readable codec maxFileSize before.wal log io hLogs
        state.committedTxn (.checkpoint state.checkpointId)
      rw [← hWal, hMark] at hRead
      exact ⟨hRead, fun hNot => (by cases hNot), fun pos hPos => (by cases hPos)⟩
  | position db =>
      refine ⟨hReadable, fun hNot => (by cases hNot), fun pos hPos => ?_⟩
      obtain rfl := CheckpointPhase.deleting.inj hPos
      exact le_rfl
  | delete db pos seq hFile hBelow =>
      have hLe := hAbove pos rfl
      refine ⟨hReadable.removeSegment (Nat.ne_of_lt (hBelow.trans_le hLe)), fun hNot => (by cases hNot), ?_⟩
      rintro pos' hPos
      obtain rfl := CheckpointPhase.deleting.inj hPos
      exact hLe
  | deleteFails db pos e => exact ⟨hReadable, fun hNot => (by cases hNot), fun pos hPos => (by cases hPos)⟩
  | finish db pos => exact ⟨hReadable, fun hNot => (by cases hNot), fun pos hPos => (by cases hPos)⟩
  | _ => exact hEarly _ _ (hUntouched rfl) (by simp)

end Crashes

/-- From a covered state in which the hot buffer, the cache, L2 and L3 hold the versions,
every prefix of a checkpoint and every failure in it leaves a covered state, and an open
after a crash there shows every committed version, with its value or with one that the
log has for it. The open succeeds if the writer stood at the end of its log. -/
theorem checkpoint_keeps_coverage {codec : Codec} {maxFileSize : Nat} {db db' : Engine}
    {versions : Set Z1Entry} {phase : CheckpointPhase} (hSession : db.wal.InSession maxFileSize)
    (hCurrent : ∀ e ∈ versions, db.store.Current e) (hCovers : db.Covers codec versions)
    (hSteps : CheckpointSteps codec (.start, db) (phase, db')) :
    db'.Covers codec versions ∧
      (∀ segmentSize env config opened,
        Engine.openWithConfig codec segmentSize env config db'.onDisk = .ok opened →
          ∀ e ∈ versions, e.txnId ∈ db.mvcc.committedHistory →
            opened.snapshot.1.sees e.txnId = true ∧
              ∃ v ∈ opened.store.held, v.id = e.id ∧ (v = e ∨ db'.wal.dir.Has codec v)) ∧
      ∀ log, db.wal.Logs codec maxFileSize log → ∀ segmentSize env config, ∃ opened,
        Engine.openWithConfig codec segmentSize env config db'.onDisk = .ok opened := by
  have hSound : phase.Sound codec maxFileSize versions db db' := by
    have hAll : ∀ reached, CheckpointSteps codec (.start, db) reached →
        reached.1.Sound codec maxFileSize versions db reached.2 := by
      intro reached hReached
      induction hReached with
      | refl => exact ⟨hCovers, hCurrent, rfl, Or.inr (Or.inr (Or.inr hSession))⟩
      | tail _ hStep ih => exact ih.step hStep
    exact hAll _ hSteps
  refine ⟨hSound.covers, fun segmentSize env config opened hOpen e he ht => ?_, fun log hLogs => ?_⟩
  · rw [← hSound.mvcc] at ht
    exact hSound.covers.opened hOpen he ht
  · have hReads : ∀ reached, CheckpointSteps codec (.start, db) reached →
        reached.1.Reads codec db reached.2 := by
      intro reached hReached
      induction hReached with
      | refl => exact ⟨hLogs.readable, fun _ => rfl, fun pos hPos => (by cases hPos)⟩
      | tail _ hStep ih => exact ih.step hLogs hStep
    intro segmentSize env config
    obtain ⟨entries, hReplay⟩ := (hReads _ hSteps).readable.replays
    rw [← replayAll_openLatest db'.wal.dir (sessionConfig segmentSize)] at hReplay
    obtain ⟨opened, hOpened, -⟩ := @open_readable codec segmentSize env config db'.onDisk entries hReplay
    exact ⟨opened, hOpened⟩

/-- A committed write and a committed deletion, still in the hot buffer. With segments of 30
bytes each has a segment of its own. -/
def deletedOnce : List LifeOp :=
  [.call .begin, .call (.put 0 [107] [1] 1), .call (.commit 1 ⟨0, 0, 0, .listed, .succeed⟩),
    .call .begin, .call (.delete 0 [107] 2), .call (.commit 2 ⟨0, 0, 0, .listed, .succeed⟩)]

/-- A checkpoint keeps both versions covered whatever fails in it; the one that goes through
deletes both segments, and the next open shows both. -/
theorem checkpoint_deletes_covered_segments :
    ∃ db opened, (life Postcard.codec 30 (.listed 0) {} deletedOnce).2 = some db ∧
      db.wal.dir.map Prod.fst = [0, 1] ∧
      (∀ writes, (db.checkpoint Postcard.codec writes).2.Covers Postcard.codec
        {⟨⟨0, [107]⟩, 1, some [1]⟩, ⟨⟨0, [107]⟩, 2, none⟩}) ∧
      (db.checkpoint Postcard.codec .succeed).2.wal.dir.map Prod.fst = [2] ∧
      Engine.openWithConfig Postcard.codec 30 (.listed 0) {}
        (db.checkpoint Postcard.codec .succeed).2.onDisk = .ok opened ∧
      opened.snapshot.1.sees 1 = true ∧ opened.snapshot.1.sees 2 = true ∧
      (∃ v ∈ opened.store.held, v.id = (⟨0, [107]⟩, 1)) ∧
      ∃ v ∈ opened.store.held, v.id = (⟨0, [107]⟩, 2) := by
  have hRun : (life Postcard.codec 30 (.listed 0) {} deletedOnce).2.map
      (fun db => (db.store.l1.hot.values, db.mvcc.committedHistory.keys,
        (replayAll Postcard.codec db.wal.dir).toOption)) =
      some ([⟨⟨0, [107]⟩, 2, none⟩, ⟨⟨0, [107]⟩, 1, some [1]⟩], [2, 1],
        some [⟨1, .put 0 [107] (some [1])⟩, ⟨1, .commit 1 0⟩, ⟨2, .put 0 [107] none⟩,
          ⟨2, .commit 2 0⟩]) := by
    decide +kernel
  have hFiles : (life Postcard.codec 30 (.listed 0) {} deletedOnce).2.map
      (fun db => (db.wal.dir.map Prod.fst,
        (db.checkpoint Postcard.codec .succeed).2.wal.dir.map Prod.fst)) = some ([0, 1], [2]) := by
    decide +kernel
  have hOpens : ((life Postcard.codec 30 (.listed 0) {} deletedOnce).2.bind fun db =>
      (Engine.openWithConfig Postcard.codec 30 (.listed 0) {}
        (db.checkpoint Postcard.codec .succeed).2.onDisk).toOption).isSome = true := by
    decide +kernel
  obtain ⟨db, hDb, hState⟩ := Option.map_eq_some_iff.mp hRun
  rw [hDb, Option.map_some, Option.some_inj] at hFiles
  simp only [Prod.mk.injEq] at hState hFiles
  obtain ⟨hHot, hHistory, hReplay⟩ := hState
  obtain ⟨hSegments, hDeleted⟩ := hFiles
  have hReplay := ok_of_toOption hReplay
  obtain ⟨opened, hOpened⟩ := Option.isSome_iff_exists.mp hOpens
  rw [hDb, Option.bind_some] at hOpened
  have hOpen := ok_of_toOption hOpened
  have hSession := life_inSession hDb
  let versions : Set Z1Entry := {⟨⟨0, [107]⟩, 1, some [1]⟩, ⟨⟨0, [107]⟩, 2, none⟩}
  have hCurrent : ∀ e ∈ versions, db.store.Current e := by
    rintro e (rfl | rfl)
    · exact Or.inl (by simp [hHot])
    · exact Or.inl (by simp [hHot])
  have hCovers : db.Covers Postcard.codec versions := by
    refine ⟨?_, ?_⟩
    · rintro e (rfl | rfl) -
      · exact Or.inr ⟨_, hReplay, ⟨1, 0, by simp⟩, by decide⟩
      · exact Or.inr ⟨_, hReplay, ⟨2, 0, by simp⟩, by decide⟩
    · rintro e (rfl | rfl) -
      · exact Or.inr (Or.inr ⟨_, hReplay, ⟨1, 0, by simp⟩, by decide⟩)
      · exact Or.inr (Or.inr ⟨_, hReplay, ⟨2, 0, by simp⟩, by decide⟩)
  have hCommitted : ∀ t ∈ ([1, 2] : List TxnId), t ∈ db.mvcc.committedHistory := by
    intro t ht
    refine AList.mem_keys.mpr ?_
    rw [hHistory]
    simpa [or_comm] using ht
  have hShown := (checkpoint_keeps_coverage hSession hCurrent hCovers
    (checkpoint_steps hSession .succeed)).2.1 30 (.listed 0) {} opened hOpen
  obtain ⟨hSees, v, hv, hId, -⟩ := hShown ⟨⟨0, [107]⟩, 1, some [1]⟩ (Or.inl rfl) (hCommitted 1 (by simp))
  obtain ⟨hSees', v', hv', hId', -⟩ := hShown ⟨⟨0, [107]⟩, 2, none⟩ (Or.inr rfl) (hCommitted 2 (by simp))
  exact ⟨db, opened, hDb, hSegments, fun writes => (checkpoint_keeps_coverage hSession hCurrent hCovers
    (checkpoint_steps hSession writes)).1, hDeleted, hOpen, hSees, hSees', ⟨v, hv, hId⟩, v', hv', hId'⟩

/-- The first version of a key is flushed, superseded and reclaimed by a compaction; it
is left in the L1 buffer of the last flush. With segments of 30 bytes the first
transaction has a segment of its own. -/
def reclaimedRun : List LifeOp :=
  [.call .begin, .call (.put 0 [107] [1] 1), .call (.commit 1 ⟨0, 0, 0, .listed, .succeed⟩),
    .call .begin, .call (.put 0 [107] [2] 2), .call (.commit 2 ⟨0, 0, 0, .listed, .succeed⟩),
    .call (.flushNow .succeed), .call (.compact .succeed u64Max)]

/-- All versions are in L1, the cache, L2 or L3, and the state is covered; the checkpoint
deletes the records of the reclaimed version, which no patch holds. -/
theorem reclaimed_version_is_uncovered :
    ∃ db, (life Postcard.codec 30 (.listed 0) {} reclaimedRun).2 = some db ∧
      ∃ versions : Set Z1Entry, (∀ e ∈ versions, e ∈ db.store.held) ∧
        db.Covers Postcard.codec versions ∧
        ∃ phase db', CheckpointSteps Postcard.codec (.start, db) (phase, db') ∧
          ¬ db'.Covers Postcard.codec versions := by
  have hBefore : (life Postcard.codec 30 (.listed 0) {} reclaimedRun).2.map
      (fun db => (db.store.l1.snapshot.values, (replayAll Postcard.codec db.wal.dir).toOption)) =
      some ([⟨⟨0, [107]⟩, 2, some [2]⟩, ⟨⟨0, [107]⟩, 1, some [1]⟩],
        some [⟨1, .put 0 [107] (some [1])⟩, ⟨1, .commit 1 0⟩, ⟨2, .put 0 [107] (some [2])⟩,
          ⟨2, .commit 2 0⟩]) := by
    decide +kernel
  have hAfter : (life Postcard.codec 30 (.listed 0) {} reclaimedRun).2.map
      (fun db => ((db.checkpoint Postcard.codec .succeed).2.mvcc.committedHistory.keys,
        (db.checkpoint Postcard.codec .succeed).2.store.l2.versions,
        (db.checkpoint Postcard.codec .succeed).2.store.l3.versions,
        (replayAll Postcard.codec (db.checkpoint Postcard.codec .succeed).2.wal.dir).toOption)) =
      some ([2, 1], [], [⟨⟨0, [107]⟩, 2, some [2]⟩], some [⟨2, .checkpoint 2⟩]) := by
    decide +kernel
  obtain ⟨db, hDb, hBefore⟩ := Option.map_eq_some_iff.mp hBefore
  rw [hDb, Option.map_some, Option.some_inj] at hAfter
  obtain ⟨hBuffer, hReplay⟩ := Prod.mk.inj hBefore
  obtain ⟨hHistory, hRest⟩ := Prod.mk.inj hAfter
  obtain ⟨hL2, hRest⟩ := Prod.mk.inj hRest
  obtain ⟨hL3, hReplay'⟩ := Prod.mk.inj hRest
  have hReplay := ok_of_toOption hReplay
  have hReplay' := ok_of_toOption hReplay'
  refine ⟨db, hDb, {⟨⟨0, [107]⟩, 1, some [1]⟩}, ?_, ⟨?_, ?_⟩, _, _,
    checkpoint_steps (life_inSession hDb) .succeed, fun hCovers => ?_⟩
  · rintro e rfl
    exact Store.mem_held.mpr (Or.inr (by simp [hBuffer]))
  · rintro e rfl -
    exact Or.inr ⟨_, hReplay, ⟨1, 0, by simp⟩, by decide⟩
  · rintro e rfl -
    exact Or.inr (Or.inr ⟨_, hReplay, ⟨1, 0, by simp⟩, by decide⟩)
  · have hCommitted : 1 ∈ (db.checkpoint Postcard.codec .succeed).2.mvcc.committedHistory :=
      AList.mem_keys.mpr (by simp [hHistory])
    rcases hCovers.stored _ (Set.mem_singleton _) hCommitted with
      hIn | hIn | ⟨entries, hEntries, hCommit, -⟩
    · rw [hL2] at hIn
      cases hIn
    · rw [hL3] at hIn
      simp at hIn
    · obtain rfl := Except.ok.inj (hReplay'.symm.trans hEntries)
      obtain ⟨commitTs, insertedAt, hIn⟩ := hCommit
      simp at hIn

end Z1Kv
