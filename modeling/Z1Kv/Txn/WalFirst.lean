import Z1Kv.Txn.LogSteps

/-! WAL before L2. A put appends its record without a sync; the record becomes durable
when some later commit, checkpoint marker or rotation syncs the segment. A flush does
not sync, so its patches may reach the disk first. -/
namespace Z1Kv

/-- What reaches the disk, in order. `synced` is an fsync of the current segment: that
of `flush_and_sync`, or that of `rotate` before it leaves the segment. -/
inductive DiskEvent
  | appended (record : WalEntry)
  | synced
  | patched (entries : List Z1Entry)
  deriving DecidableEq

section
variable (codec : Codec)

/-- The events of `append`. -/
def WalWriter.appendEvents (w : WalWriter) (record : WalEntry) : List DiskEvent :=
  if codec.Fits record then
    (if w.Rotates (codec.frame record).length then [.synced] else []) ++ [.appended record]
  else []

/-- The events of `append_durable` under `SyncEach`. -/
def WalWriter.appendDurableEvents (w : WalWriter) (record : WalEntry) : List DiskEvent :=
  if codec.Fits record then w.appendEvents codec record ++ [.synced] else []

end

namespace Store

/-- The patch files that reach the disk, also those of the write that fails and ends the
flush. -/
def groupEvents (writes : Nat → PatchOutcome) : Nat → List (UInt16 × List PatchEntry) → List DiskEvent
  | _, [] => []
  | patchId, (cf, entries) :: rest =>
      if entries = [] then groupEvents writes (patchId + 1) rest
      else
        (if (writes patchId).leavesFile then [.patched (entries.map (PatchEntry.toZ1Entry cf))] else []) ++
          if (writes patchId).written then groupEvents writes (patchId + 1) rest else []

def flushEvents (writes : Nat → PatchOutcome) (s : Store) : List DiskEvent :=
  groupEvents writes s.nextPatchId (cfGroups s.stage.recentFlush.values)

end Store

namespace Engine
variable (codec : Codec)

def checkpointEvents (db : Engine) (writes : Writes) : List DiskEvent :=
  db.store.flushEvents writes.patch ++
    match db.flushNow writes with
    | (.error _, _) => []
    | (.ok _, db) =>
        .synced ::
          match db.writeCheckpoint writes db.checkpointState with
          | (.error _, _) => []
          | (.ok (), db) => db.wal.appendDurableEvents codec db.marker

/-- The events of the maintenance; compaction writes to L3 only. -/
def maintainEvents (db : Engine) (writes : Writes) : List DiskEvent :=
  if db.config.checkpointWalSizeThreshold > 0 ∧
      db.wal.dir.sizeBytes ≥ db.config.checkpointWalSizeThreshold then
    db.checkpointEvents codec writes
  else []

def commitEvents (db : Engine) (txnId : TxnId) (env : CommitEnv) : List DiskEvent :=
  db.wal.appendDurableEvents codec ⟨txnId, .commit txnId env.insertedAt⟩ ++
    match db.commit codec env txnId with
    | (.error _, _) => []
    | (.ok (), _) => (db.committing codec env txnId).maintainEvents codec env.writes

/-- The events of a call. -/
def events (db : Engine) : Op → List DiskEvent
  | .put cf key value txnId =>
      if txnId ∈ db.mvcc.activeTxns then
        db.wal.appendEvents codec ⟨txnId, .put cf key (some value)⟩
      else []
  | .delete cf key txnId =>
      if txnId ∈ db.mvcc.activeTxns then db.wal.appendEvents codec ⟨txnId, .put cf key none⟩ else []
  | .rollback txnId =>
      if txnId ∈ db.mvcc.activeTxns then db.wal.appendEvents codec ⟨txnId, .rollback⟩ else []
  | .commit txnId env => if txnId ∈ db.mvcc.activeTxns then db.commitEvents codec txnId env else []
  | .flushNow writes => db.store.flushEvents writes.patch
  | .flush writes => if db.store.l1.shouldFlush then db.store.flushEvents writes.patch else []
  | .checkpoint writes => db.checkpointEvents codec writes
  | _ => []

end Engine

/-- The Put record of a version was appended and its segment synced afterwards. -/
def Covered (trace : List DiskEvent) (e : Z1Entry) : Prop :=
  ∃ before after, trace = before ++ .appended e.logged :: after ∧ .synced ∈ after

/-- Every patch was written after the records of its entries had been synced. -/
def WalBeforePatches (trace : List DiskEvent) : Prop :=
  ∀ before entries after, trace = before ++ .patched entries :: after → ∀ e ∈ entries, Covered before e

section Traces
variable {trace added : List DiskEvent} {e : Z1Entry}

theorem Covered.append (h : Covered trace e) (added : List DiskEvent) : Covered (trace ++ added) e := by
  obtain ⟨before, after, rfl, hSynced⟩ := h
  exact ⟨before, after ++ added, by simp, by simp [hSynced]⟩

theorem WalBeforePatches.append (h : WalBeforePatches trace)
    (hAdded : ∀ before entries after, added = before ++ .patched entries :: after →
      ∀ e ∈ entries, Covered (trace ++ before) e) : WalBeforePatches (trace ++ added) := by
  intro before entries after hSplit
  rcases List.append_eq_append_iff.mp hSplit with ⟨middle, rfl, hMiddle⟩ | ⟨middle, hMiddle, hRest⟩
  · exact hAdded middle entries after hMiddle
  · cases middle with
    | nil =>
        obtain rfl : trace = before := by simpa using hMiddle
        have hHere := hAdded [] entries after (by simpa using hRest.symm)
        simpa using hHere
    | cons first rest =>
        obtain ⟨rfl, -⟩ := List.cons.inj hRest
        exact h before entries rest hMiddle

theorem WalBeforePatches.quiet (h : WalBeforePatches trace) (hAdded : ∀ entries, .patched entries ∉ added) :
    WalBeforePatches (trace ++ added) := by
  refine h.append fun before entries after hSplit => absurd ?_ (hAdded entries)
  rw [hSplit]
  simp

end Traces

section Events
variable {codec : Codec}

theorem WalWriter.patched_notMem_append (w : WalWriter) (record : WalEntry) (entries : List Z1Entry) :
    .patched entries ∉ w.appendEvents codec record := by
  unfold appendEvents
  split
  · split <;> simp
  · simp

theorem WalWriter.appended_mem {w : WalWriter} {record : WalEntry} (hFits : codec.Fits record) :
    .appended record ∈ w.appendEvents codec record := by
  rw [appendEvents, if_pos hFits]
  simp

namespace Store
variable {writes : Nat → PatchOutcome}

/-- A written patch holds entries of its group. -/
theorem groupEvents_from {patchId : Nat} {groups : List (UInt16 × List PatchEntry)}
    {event : DiskEvent} (h : event ∈ groupEvents writes patchId groups) :
    ∃ group ∈ groups, event = .patched (group.2.map (PatchEntry.toZ1Entry group.1)) := by
  induction groups generalizing patchId with
  | nil => cases h
  | cons group rest ih =>
      obtain ⟨cf, entries⟩ := group
      have hLater : event ∈ groupEvents writes (patchId + 1) rest →
          ∃ group ∈ (cf, entries) :: rest, event = .patched (group.2.map (PatchEntry.toZ1Entry group.1)) := by
        intro hIn
        obtain ⟨group, hGroup, hEvent⟩ := ih hIn
        exact ⟨group, by simp [hGroup], hEvent⟩
      rw [groupEvents] at h
      split at h
      · exact hLater h
      · rcases List.mem_append.mp h with h | h
        · split at h
          · obtain rfl := List.mem_singleton.mp h
            exact ⟨(cf, entries), by simp, rfl⟩
          · cases h
        · split at h
          · exact hLater h
          · cases h

/-- What is new in the files of L2 was in a patch of the trace. -/
theorem appendGroups_patched (s : Store) (groups : List (UInt16 × List PatchEntry)) {e : Z1Entry}
    (h : e ∈ (s.appendGroups writes groups).2.l2.versions ∨
      e ∈ (s.appendGroups writes groups).2.l2.imageVersions) :
    (e ∈ s.l2.versions ∨ e ∈ s.l2.imageVersions) ∨
      ∃ entries, .patched entries ∈ groupEvents writes s.nextPatchId groups ∧ e ∈ entries := by
  induction groups generalizing s with
  | nil => exact Or.inl h
  | cons group rest ih =>
      obtain ⟨cf, entries⟩ := group
      rw [appendGroups] at h
      rw [groupEvents]
      by_cases hNil : entries = []
      · have hOutcome : s.l2.appendPatch (writes s.nextPatchId) cf entries s.nextPatchId =
            (.ok (), s.l2) := by rw [DiskLayer.appendPatch, if_pos hNil]
        rw [hOutcome] at h
        rw [if_pos hNil]
        exact ih { s with nextPatchId := s.nextPatchId + 1 } h
      · rw [if_neg hNil]
        -- a version that the write adds is in the patch that heads the trace
        have hFrom : e ∈ (s.l2.appendPatch (writes s.nextPatchId) cf entries s.nextPatchId).2.versions ∨
            e ∈ (s.l2.appendPatch (writes s.nextPatchId) cf entries s.nextPatchId).2.imageVersions →
            (e ∈ s.l2.versions ∨ e ∈ s.l2.imageVersions) ∨
              (writes s.nextPatchId).leavesFile = true ∧ e ∈ entries.map (PatchEntry.toZ1Entry cf) := by
          intro he
          cases hLeaves : (writes s.nextPatchId).leavesFile with
          | false =>
              rw [DiskLayer.appendPatch_traceless hLeaves] at he
              exact Or.inl he
          | true =>
              rcases he with he | he
              · exact (DiskLayer.appendPatch_versions he).imp Or.inl
                  fun hNew => ⟨rfl, List.mem_map.mpr hNew⟩
              · exact (DiskLayer.appendPatch_imageVersions he).imp Or.inr
                  fun hNew => ⟨rfl, List.mem_map.mpr hNew⟩
        have hHere : e ∈ (s.l2.appendPatch (writes s.nextPatchId) cf entries s.nextPatchId).2.versions ∨
            e ∈ (s.l2.appendPatch (writes s.nextPatchId) cf entries s.nextPatchId).2.imageVersions →
            (e ∈ s.l2.versions ∨ e ∈ s.l2.imageVersions) ∨ ∃ entries',
              .patched entries' ∈ (if (writes s.nextPatchId).leavesFile then
                [DiskEvent.patched (entries.map (PatchEntry.toZ1Entry cf))] else []) ++
                (if (writes s.nextPatchId).written then
                  groupEvents writes (s.nextPatchId + 1) rest else []) ∧ e ∈ entries' := by
          intro he
          rcases hFrom he with hOld | ⟨hLeaves, hNew⟩
          · exact Or.inl hOld
          · refine Or.inr ⟨_, ?_, hNew⟩
            rw [if_pos hLeaves]
            exact List.mem_append_left _ (List.mem_singleton_self _)
        cases hWritten : (writes s.nextPatchId).written with
        | true =>
            rw [hWritten] at hHere
            rw [DiskLayer.appendPatch_written hNil hWritten] at h hHere
            rcases ih _ h with hOld | ⟨entries', hIn, he⟩
            · exact hHere hOld
            · exact Or.inr ⟨entries', List.mem_append_right _ hIn, he⟩
        | false =>
            rw [hWritten] at hHere
            have hNot : ¬ (writes s.nextPatchId).written = true := by simp [hWritten]
            obtain ⟨images, hFailed⟩ := @DiskLayer.appendPatch_failed s.l2 _ cf entries hNil hNot
              s.nextPatchId
            rw [hFailed] at h hHere
            exact hHere h

/-- A flush of this store would leave a file: it has something to write, and the first write
leaves one. -/
def LeavesPatch (writes : Nat → PatchOutcome) (s : Store) : Prop :=
  s.stage.recentFlush.values ≠ [] ∧ (writes s.nextPatchId).leavesFile = true

theorem flushEvents_eq_nil {s : Store} (h : ¬ s.LeavesPatch writes) : s.flushEvents writes = [] := by
  unfold flushEvents
  cases hGroups : cfGroups s.stage.recentFlush.values with
  | nil => rfl
  | cons group rest =>
      obtain ⟨cf, entries⟩ := group
      have hIn : (cf, entries) ∈ cfGroups s.stage.recentFlush.values := by simp [hGroups]
      simp only [cfGroups, List.mem_map, List.mem_insertionSort, List.mem_dedup] at hIn
      obtain ⟨_, ⟨e, he, rfl⟩, hEq⟩ := hIn
      obtain ⟨rfl, rfl⟩ := Prod.mk.inj hEq
      have hNone : (writes s.nextPatchId).leavesFile = false :=
        Bool.eq_false_iff.mpr fun hLeaves => h ⟨List.ne_nil_of_mem he, hLeaves⟩
      have hWritten : (writes s.nextPatchId).written = false := by
        simp only [PatchOutcome.leavesFile, Bool.or_eq_false_iff] at hNone
        exact hNone.1.1
      rw [groupEvents, if_neg, hNone, hWritten]
      · rfl
      · exact List.ne_nil_of_mem (List.mem_map.mpr ⟨e, List.mem_filter.mpr ⟨he, by simp⟩, rfl⟩)

/-- What a flush may write was in the hot buffer or in the cache. -/
theorem flushEvents_from {s : Store} {event : DiskEvent} (h : event ∈ s.flushEvents writes) :
    ∃ entries, event = .patched entries ∧ ∀ e ∈ entries, e ∈ s.stage.recentFlush.values := by
  obtain ⟨group, hGroup, hEvent⟩ := groupEvents_from h
  refine ⟨_, hEvent, fun e he => ?_⟩
  obtain ⟨pe, hpe, rfl⟩ := List.mem_map.mp he
  exact mem_cfGroups.mpr ⟨group, hGroup, pe, hpe, rfl⟩

theorem mem_stage_cache {s : Store} {e : Z1Entry} (h : e ∈ s.stage.recentFlush.values) :
    e ∈ s.l1.hot.values ∨ e ∈ s.recentFlush.values :=
  (VersionMap.mem_values_putAll h).imp_right And.left

theorem flushL1ToL2_eq (s : Store) :
    (s.flushL1ToL2 writes).2.l2 =
        (s.stage.appendGroups writes (cfGroups s.stage.recentFlush.values)).2.l2 ∧
      (s.flushL1ToL2 writes).2.l1.hot = ∅ ∧
      ∀ e ∈ (s.flushL1ToL2 writes).2.recentFlush.values, e ∈ s.stage.recentFlush.values := by
  obtain ⟨hL1, hCache, -⟩ := s.stage.appendGroups_spec writes (cfGroups s.stage.recentFlush.values)
  unfold flushL1ToL2
  dsimp only
  generalize s.stage.appendGroups writes (cfGroups s.stage.recentFlush.values) = outcome at *
  obtain ⟨result, after⟩ := outcome
  dsimp only at hL1 hCache
  cases result with
  | error e => exact ⟨rfl, by rw [hL1]; rfl, fun e he => by rw [hCache] at he; exact he⟩
  | ok _ => exact ⟨rfl, by dsimp only; rw [hL1]; rfl, fun e he => by cases he⟩

end Store
end Events

/-- The order holds so far, what is in L2 came through a patch of the trace, and what
a flush may write next has its record in the log. -/
structure Store.WalFirst (trace : List DiskEvent) (s : Store) : Prop where
  ordered : WalBeforePatches trace
  stored : ∀ e, e ∈ s.l2.versions ∨ e ∈ s.l2.imageVersions →
    ∃ entries, .patched entries ∈ trace ∧ e ∈ entries
  logged : ∀ e, e ∈ s.l1.hot.values ∨ e ∈ s.recentFlush.values → .appended e.logged ∈ trace

namespace Store.WalFirst
variable {codec : Codec} {trace added : List DiskEvent} {s s' : Store}

/-- Events without a patch, on a store with no more in L2, the hot buffer and the cache
than before. -/
theorem quiet (h : s.WalFirst trace) (hAdded : ∀ entries, .patched entries ∉ added)
    (hL2 : s'.l2 = s.l2)
    (hBuffers : ∀ e, e ∈ s'.l1.hot.values ∨ e ∈ s'.recentFlush.values →
      .appended e.logged ∈ trace ++ added) : s'.WalFirst (trace ++ added) := by
  refine ⟨h.ordered.quiet hAdded, fun e he => ?_, hBuffers⟩
  rw [hL2] at he
  obtain ⟨entries, hIn, hMem⟩ := h.stored e he
  exact ⟨entries, by simp [hIn], hMem⟩

theorem same (h : s.WalFirst trace) (hAdded : ∀ entries, .patched entries ∉ added) :
    s.WalFirst (trace ++ added) :=
  h.quiet hAdded rfl fun e he => List.mem_append_left _ (h.logged e he)

theorem write (h : s.WalFirst trace) {e : Z1Entry} {w : WalWriter} (hFits : codec.Fits e.logged) :
    Store.WalFirst (trace ++ w.appendEvents codec e.logged)
      { s with l1 := s.l1.replayPut e } := by
  refine h.quiet (w.patched_notMem_append e.logged) rfl fun v hv => ?_
  rcases hv with hv | hv
  · rcases VersionMap.mem_values_put.mp hv with rfl | ⟨hv, -⟩
    · exact List.mem_append_right _ (WalWriter.appended_mem hFits)
    · exact List.mem_append_left _ (h.logged v (Or.inl hv))
  · exact List.mem_append_left _ (h.logged v (Or.inr hv))

/-- A flush that finds every record synced, or leaves no file. -/
theorem flush (h : s.WalFirst trace) {writes : Nat → PatchOutcome}
    (hSynced : s.LeavesPatch writes → ∀ e, .appended e.logged ∈ trace → Covered trace e) :
    (s.flushL1ToL2 writes).2.WalFirst (trace ++ s.flushEvents writes) := by
  obtain ⟨hL2, hHot, hCache⟩ := @Store.flushL1ToL2_eq writes s
  have hStaged : ∀ e ∈ s.stage.recentFlush.values, .appended e.logged ∈ trace :=
    fun e he => h.logged e (Store.mem_stage_cache he)
  refine ⟨?_, fun e he => ?_, fun e he => ?_⟩
  · by_cases hLeaves : s.LeavesPatch writes
    · refine h.ordered.append fun before entries after hSplit e he => ?_
      have hIn : .patched entries ∈ s.flushEvents writes := by
        rw [hSplit]
        simp
      obtain ⟨_, hEq, hFrom⟩ := Store.flushEvents_from hIn
      obtain rfl := DiskEvent.patched.inj hEq
      exact (hSynced hLeaves e (hStaged e (hFrom e he))).append before
    · rw [Store.flushEvents_eq_nil hLeaves, List.append_nil]
      exact h.ordered
  · rw [hL2] at he
    rcases Store.appendGroups_patched s.stage _ he with hOld | ⟨entries, hIn, hMem⟩
    · obtain ⟨entries, hIn, hMem⟩ := h.stored e hOld
      exact ⟨entries, by simp [hIn], hMem⟩
    · exact ⟨entries, List.mem_append_right _ hIn, hMem⟩
  · refine List.mem_append_left _ ?_
    rcases he with he | he
    · rw [hHot] at he
      cases he
    · exact hStaged e (hCache e he)

theorem compacted (h : s.WalFirst trace) {watermark : TxnId} (hCompacted : s.Compacted watermark s') :
    s'.WalFirst trace := by
  refine ⟨h.ordered, fun e he => h.stored e (he.imp (hCompacted.l2 e) (hCompacted.l2Images e)),
    fun e he => h.logged e ?_⟩
  rwa [hCompacted.l1, hCompacted.cache] at he

end Store.WalFirst

/-- A flush starts in this call and leaves a file in L2. The flush of a commit's
maintenance comes right after the sync of the Commit record and is not meant. -/
def Op.Flushes (db : Engine) : Op → Prop
  | .flushNow writes => db.store.LeavesPatch writes.patch
  | .flush writes => db.store.l1.shouldFlush = true ∧ db.store.LeavesPatch writes.patch
  | .checkpoint writes => db.store.LeavesPatch writes.patch
  | _ => False

/-- A write is within the record limit, and where a flush starts no Put record has been
appended since the last sync. -/
structure Engine.FlushesSynced (codec : Codec) (trace : List DiskEvent) (db : Engine) (op : Op) :
    Prop where
  fits : ∀ e, op.write? = some e → e.txnId ∈ db.mvcc.activeTxns → codec.Fits e.logged
  synced : op.Flushes db → ∀ before e after,
    trace = before ++ .appended (Z1Entry.logged e) :: after → .synced ∈ after

theorem Engine.FlushesSynced.covered {codec : Codec} {trace : List DiskEvent} {db : Engine} {op : Op}
    (h : db.FlushesSynced codec trace op) (hFlushes : op.Flushes db) {e : Z1Entry}
    (he : .appended e.logged ∈ trace) : Covered trace e := by
  obtain ⟨before, after, hSplit⟩ := List.append_of_mem he
  exact ⟨before, after, hSplit, h.synced hFlushes before e after hSplit⟩

namespace Engine
variable {codec : Codec} {maxFileSize : Nat} {db : Engine} {trace : List DiskEvent}

end Engine

end Z1Kv
