import Z1Kv.Store.Mem
import Z1Kv.Wal.Synced

/-! Writes to L1 at the three sync levels, over a log of which a crash keeps what was synced.
The log is shared: commits append to it between the writes. -/
namespace Z1Kv

/-- Synchronization level for L1 writes. -/
inductive SyncLevel
  | immediate
  | batch (ms maxPending : Nat)
  | async
  deriving DecidableEq

/-- How many of the last writes a crash may take, if there is a bound. -/
def SyncLevel.window : SyncLevel → Option Nat
  | immediate => some 0
  | batch _ maxPending => some (maxPending - 1)
  | async => none

namespace SyncedWriter

/-- `flush_and_sync`: the queue, then the open segment. -/
def flushAndSync (codec : Codec) (s : SyncedWriter) : Except Z1Error Unit × SyncedWriter :=
  match s.flushQueue codec with
  | (.error e, s) => (.error e, s)
  | (.ok (), s) => (.ok (), s.sync)

end SyncedWriter

/-- L1 with the log it writes to and the count of writes since the last sync. -/
structure LoggedStore where
  l1 : MemStore
  wal : SyncedWriter
  syncLevel : SyncLevel
  batchPending : Nat := 0

/-- The record `MemStore::put` logs for a version. -/
def Z1Entry.putRecord (e : Z1Entry) : WalRecord := .put e.key.cf e.key.key e.value

/-- A write to L1, with the time since the last flush of the log as it is read there, or a
durable record of somebody else. -/
inductive LogCall
  | put (e : Z1Entry) (msSinceLastFlush : Nat)
  | appendDurable (entry : WalEntry)

def LogCall.entry : LogCall → WalEntry
  | put e _ => ⟨e.txnId, e.putRecord⟩
  | appendDurable entry => entry

namespace LoggedStore
variable (codec : Codec)

/-- The memory insert at the end of a write. -/
def insert (s : LoggedStore) (e : Z1Entry) : LoggedStore := { s with l1 := s.l1.replayPut e }

/-- `MemStore::put` with a log attached. -/
def put (s : LoggedStore) (e : Z1Entry) (msSinceLastFlush : Nat) : Except Z1Error Unit × LoggedStore :=
  match s.syncLevel with
  | .immediate =>
      match s.wal.appendDurable codec e.txnId e.putRecord with
      | (.error err, wal) => (.error err, { s with wal })
      | (.ok (), wal) => (.ok (), insert { s with wal } e)
  | .batch ms maxPending =>
      let s := { s with batchPending := s.batchPending + 1 }
      match s.wal.append codec e.txnId e.putRecord with
      | (.error err, wal) => (.error err, { s with wal })
      | (.ok (), wal) =>
          if s.batchPending ≥ maxPending ∨ msSinceLastFlush ≥ ms then
            match wal.flushAndSync codec with
            | (.error err, wal) => (.error err, { s with wal })
            | (.ok (), wal) => (.ok (), insert { s with wal, batchPending := 0 } e)
          else (.ok (), insert { s with wal } e)
  | .async => (.ok (), insert { s with wal := (s.wal.append codec e.txnId e.putRecord).2 } e)

def step (s : LoggedStore) : LogCall → Except Z1Error Unit × LoggedStore
  | .put e msSinceLastFlush => s.put codec e msSinceLastFlush
  | .appendDurable entry =>
      match s.wal.appendDurable codec entry.txnId entry.record with
      | (.error err, wal) => (.error err, { s with wal })
      | (.ok (), wal) => (.ok (), { s with wal })

/-- An empty store on an empty log directory. -/
def opened (maxFileSize flushThreshold : Nat) (level : SyncLevel) : LoggedStore :=
  ⟨MemStore.new flushThreshold, { writer := WalWriter.openLatest [] (sessionConfig maxFileSize) }, level, 0⟩

end LoggedStore

/-- The records of the calls that returned `Ok`. -/
def loggedEntries (codec : Codec) (events : List (LogCall × Except Z1Error Unit)) : List WalEntry :=
  (events.filter fun event => event.2.isOk && decide (codec.Fits event.1.entry)).map (·.1.entry)

namespace LoggedStore
variable {codec : Codec} {maxFileSize : Nat} {s : LoggedStore} {level : SyncLevel}
  {entries covered : List WalEntry}

theorem loggedEntries_append (codec : Codec) (events more : List (LogCall × Except Z1Error Unit)) :
    loggedEntries codec (events ++ more) = loggedEntries codec events ++ loggedEntries codec more := by
  rw [loggedEntries, List.filter_append, List.map_append]
  rfl

theorem loggedEntries_ok {call : LogCall} (hFits : codec.Fits call.entry) :
    loggedEntries codec [(call, .ok ())] = [call.entry] := by
  simp [loggedEntries, hFits, Except.isOk, Except.toBool]

theorem loggedEntries_error (codec : Codec) (call : LogCall) (err : Z1Error) :
    loggedEntries codec [(call, .error err)] = [] := by
  simp [loggedEntries, Except.isOk, Except.toBool]

theorem loggedEntries_refused {call : LogCall} (hFits : ¬ codec.Fits call.entry)
    (result : Except Z1Error Unit) : loggedEntries codec [(call, result)] = [] := by
  simp [loggedEntries, hFits]

/-- What is in memory after an insert. -/
theorem mem_sources_replayPut {l1 : MemStore} {e new : Z1Entry} (h : e ∈ (l1.replayPut new).sources) :
    e = new ∨ e ∈ l1.sources := by
  simp only [MemStore.sources, MemStore.replayPut, List.mem_append] at h ⊢
  rcases h with (hHot | hCold) | hSnapshot
  · rcases VersionMap.mem_values_put.mp hHot with hNew | ⟨hOld, -⟩
    · exact Or.inl hNew
    · exact Or.inr (Or.inl (Or.inl hOld))
  · exact Or.inr (Or.inl (Or.inr hCold))
  · exact Or.inr (Or.inr hSnapshot)

/-- The log holds these entries, and the covered ones for good. -/
def Covers (codec : Codec) (maxFileSize : Nat) (entries covered : List WalEntry) (wal : SyncedWriter) :
    Prop :=
  ∃ front kept pending, SyncedUpTo codec maxFileSize entries covered wal front kept pending

/-- A durable append of a record that fits covers it and everything before; any other
changes nothing. -/
theorem Covers.appendDurable {wal : SyncedWriter} (h : Covers codec maxFileSize entries covered wal)
    (entry : WalEntry) :
    (codec.Fits entry ∧ ∃ after, wal.appendDurable codec entry.txnId entry.record = (.ok (), after) ∧
      Covers codec maxFileSize (entries ++ [entry]) (entries ++ [entry]) after) ∨
    ¬ codec.Fits entry ∧ ∃ err, wal.appendDurable codec entry.txnId entry.record = (.error err, wal) := by
  obtain ⟨front, kept, pending, hLog⟩ := h
  rcases hLog.call_eq (.appendDurable entry) with ⟨hFits, hOk, hNext⟩ | ⟨hNot, hErr, hNext⟩
  · left
    refine ⟨hFits, _, Prod.ext hOk hNext, ?_⟩
    obtain ⟨front', kept', pending', hAfter⟩ := hLog.append hFits
    exact ⟨front', kept' ++ pending', [], hAfter.sync⟩
  · right
    refine ⟨hNot, ?_⟩
    dsimp only [SyncedWriter.call] at hErr hNext
    generalize wal.appendDurable codec entry.txnId entry.record = outcome at hErr hNext ⊢
    obtain ⟨result, after⟩ := outcome
    cases result with
    | ok _ => cases hErr
    | error err => exact ⟨err, Prod.ext rfl hNext⟩

/-- An append without a sync covers nothing more. -/
theorem Covers.append {wal : SyncedWriter} (h : Covers codec maxFileSize entries covered wal)
    (entry : WalEntry) :
    (codec.Fits entry ∧ ∃ after, wal.append codec entry.txnId entry.record = (.ok (), after) ∧
      Covers codec maxFileSize (entries ++ [entry]) covered after) ∨
    ¬ codec.Fits entry ∧ ∃ err, wal.append codec entry.txnId entry.record = (.error err, wal) := by
  obtain ⟨front, kept, pending, hLog⟩ := h
  rcases hLog.call_eq (.append entry) with ⟨hFits, hOk, hNext⟩ | ⟨hNot, hErr, hNext⟩
  · left
    exact ⟨hFits, _, Prod.ext hOk hNext, hLog.append hFits⟩
  · right
    refine ⟨hNot, ?_⟩
    dsimp only [SyncedWriter.call] at hErr hNext
    generalize wal.append codec entry.txnId entry.record = outcome at hErr hNext ⊢
    obtain ⟨result, after⟩ := outcome
    cases result with
    | ok _ => cases hErr
    | error err => exact ⟨err, Prod.ext rfl hNext⟩

theorem Covers.flushAndSync {wal : SyncedWriter} (h : Covers codec maxFileSize entries covered wal) :
    ∃ after, wal.flushAndSync codec = (.ok (), after) ∧
      Covers codec maxFileSize entries entries after := by
  obtain ⟨front, kept, pending, hLog⟩ := h
  refine ⟨wal.sync, ?_, front, kept ++ pending, [], hLog.sync⟩
  rw [SyncedWriter.flushAndSync, SyncedWriter.flushQueue, if_pos hLog.inSession.queue]

/-- What the level promises between the calls: these entries are in the log, all but a window
of them covered, and what is in memory is logged. -/
structure Behind (codec : Codec) (maxFileSize : Nat) (level : SyncLevel) (entries covered : List WalEntry)
    (s : LoggedStore) : Prop where
  level_eq : s.syncLevel = level
  log : Covers codec maxFileSize entries covered s.wal
  pending : ∀ ms maxPending, level = .batch ms maxPending →
    entries.length ≤ covered.length + s.batchPending
  window : ∀ w, level.window = some w → entries.length ≤ covered.length + w
  memory : level ≠ .async → ∀ e ∈ s.l1.sources, ⟨e.txnId, e.putRecord⟩ ∈ entries

theorem Behind.memory_mono (h : Behind codec maxFileSize level entries covered s) (entry : WalEntry)
    (hLevel : level ≠ .async) :
    ∀ e ∈ s.l1.sources, ⟨e.txnId, e.putRecord⟩ ∈ entries ++ [entry] :=
  fun e he => List.mem_append_left _ (h.memory hLevel e he)

theorem Behind.memory_insert (h : Behind codec maxFileSize level entries covered s) (new : Z1Entry)
    (hLevel : level ≠ .async) :
    ∀ e ∈ (s.l1.replayPut new).sources,
      ⟨e.txnId, e.putRecord⟩ ∈ entries ++ [⟨new.txnId, new.putRecord⟩] := by
  intro e he
  rcases mem_sources_replayPut he with rfl | hOld
  · exact List.mem_append_right _ (List.mem_singleton.mpr rfl)
  · exact List.mem_append_left _ (h.memory hLevel e hOld)

/-- After a sync nothing is behind. -/
theorem Behind.synced (h : Behind codec maxFileSize level entries covered s) {after : LoggedStore}
    {now : List WalEntry} (hLevel : after.syncLevel = s.syncLevel)
    (hLog : Covers codec maxFileSize now now after.wal)
    (hMemory : level ≠ .async → ∀ e ∈ after.l1.sources, ⟨e.txnId, e.putRecord⟩ ∈ now) :
    Behind codec maxFileSize level now now after :=
  ⟨hLevel.trans h.level_eq, hLog, fun _ _ _ => Nat.le_add_right _ _, fun _ _ => Nat.le_add_right _ _, hMemory⟩

/-- A durable record of somebody else. -/
theorem Behind.appendDurable (h : Behind codec maxFileSize level entries covered s) (entry : WalEntry) :
    ∃ covered', Behind codec maxFileSize level
      (entries ++ loggedEntries codec [(.appendDurable entry, (s.step codec (.appendDurable entry)).1)])
      covered' (s.step codec (.appendDurable entry)).2 := by
  rw [step]
  rcases h.log.appendDurable entry with ⟨hFits, wal, hWal, hCovers⟩ | ⟨hNot, err, hWal⟩
  · rw [hWal]
    dsimp only
    rw [@loggedEntries_ok codec (.appendDurable entry) hFits]
    exact ⟨_, h.synced rfl hCovers (h.memory_mono entry)⟩
  · rw [hWal]
    dsimp only
    rw [loggedEntries_error, List.append_nil]
    exact ⟨covered, h⟩

/-- A write at each level. -/
theorem Behind.put (h : Behind codec maxFileSize level entries covered s) (e : Z1Entry) (elapsed : Nat) :
    ∃ covered', Behind codec maxFileSize level
      (entries ++ loggedEntries codec [(.put e elapsed, (s.put codec e elapsed).1)])
      covered' (s.put codec e elapsed).2 := by
  obtain ⟨l1, log, syncLevel, batchPending⟩ := s
  obtain rfl : syncLevel = level := h.level_eq
  have hPending := h.pending
  cases syncLevel with
  | immediate =>
      dsimp only [LoggedStore.put]
      rcases h.log.appendDurable ⟨e.txnId, e.putRecord⟩ with
        ⟨hFits, wal, hWal, hCovers⟩ | ⟨hNot, err, hWal⟩
      · rw [hWal]
        dsimp only
        rw [@loggedEntries_ok codec (.put e elapsed) hFits]
        exact ⟨_, h.synced rfl hCovers (h.memory_insert e)⟩
      · rw [hWal]
        dsimp only
        rw [loggedEntries_error, List.append_nil]
        exact ⟨covered, h⟩
  | batch ms maxPending =>
      have hBehind := hPending ms maxPending rfl
      dsimp only [LoggedStore.put]
      rcases h.log.append ⟨e.txnId, e.putRecord⟩ with
        ⟨hFits, wal, hWal, hCovers⟩ | ⟨hNot, err, hWal⟩
      · rw [hWal]
        dsimp only
        split
        · obtain ⟨after, hFlush, hAll⟩ := hCovers.flushAndSync
          rw [hFlush]
          dsimp only
          rw [@loggedEntries_ok codec (.put e elapsed) hFits]
          exact ⟨_, h.synced rfl hAll (h.memory_insert e)⟩
        · next hWait =>
          rw [@loggedEntries_ok codec (.put e elapsed) hFits]
          -- one more record is behind, and the count has not reached the bound
          have hBelow : batchPending + 1 < maxPending := Nat.lt_of_not_le (not_or.mp hWait).1
          dsimp only at hBehind
          refine ⟨covered, rfl, hCovers, fun _ _ _ => ?_, fun w hWindow => ?_, h.memory_insert e⟩
          · simp only [List.length_append, List.length_singleton, insert]
            omega
          · obtain rfl := Option.some.inj hWindow
            simp only [List.length_append, List.length_singleton]
            omega
      · rw [hWal]
        dsimp only
        rw [loggedEntries_error, List.append_nil]
        dsimp only at hBehind
        refine ⟨covered, rfl, h.log, fun _ _ _ => ?_, h.window, h.memory⟩
        dsimp only
        omega
  | async =>
      dsimp only [LoggedStore.put]
      rcases h.log.append ⟨e.txnId, e.putRecord⟩ with
        ⟨hFits, wal, hWal, hCovers⟩ | ⟨hNot, err, hWal⟩
      · rw [hWal, @loggedEntries_ok codec (.put e elapsed) hFits]
        refine ⟨covered, rfl, hCovers, fun _ _ hBatch => ?_, fun _ hWindow => ?_, fun hNot => ?_⟩
        · cases hBatch
        · cases hWindow
        · exact absurd rfl hNot
      · rw [hWal, @loggedEntries_refused codec (.put e elapsed) hNot, List.append_nil]
        refine ⟨covered, rfl, h.log, fun _ _ hBatch => ?_, fun _ hWindow => ?_, fun hNot => ?_⟩
        · cases hBatch
        · cases hWindow
        · exact absurd rfl hNot

theorem Behind.step (h : Behind codec maxFileSize level entries covered s) (call : LogCall) :
    ∃ covered', Behind codec maxFileSize level
      (entries ++ loggedEntries codec [(call, (s.step codec call).1)]) covered' (s.step codec call).2 := by
  cases call with
  | put e elapsed => exact h.put e elapsed
  | appendDurable entry => exact h.appendDurable entry

end LoggedStore

/-- Writes and durable records in any order on an empty log, then a crash that keeps of each
file what was synced: replay reads a beginning of the records that `Ok` calls logged, and at
most the window of the sync level is missing. Unless the level is `Async`, everything in
memory had been logged. -/
theorem sync_level_window (codec : Codec) (maxFileSize flushThreshold : Nat) (level : SyncLevel)
    (calls : List LogCall) :
    let run := runs (LoggedStore.step codec) (LoggedStore.opened maxFileSize flushThreshold level) calls
    (level ≠ .async → ∀ e ∈ run.2.l1.sources, ⟨e.txnId, e.putRecord⟩ ∈ loggedEntries codec run.1) ∧
    ∀ dir, run.2.wal.Crashes dir → ∃ read, replayAll codec dir = .ok read ∧
      read <+: loggedEntries codec run.1 ∧
      ∀ w, level.window = some w → (loggedEntries codec run.1).length ≤ read.length + w := by
  intro run
  have hStart : ∃ covered, LoggedStore.Behind codec maxFileSize level (loggedEntries codec []) covered
      (LoggedStore.opened maxFileSize flushThreshold level) := by
    refine ⟨[], rfl, ⟨[], [], [], SyncedUpTo.opened codec maxFileSize⟩, fun _ _ _ => Nat.zero_le _,
      fun _ _ => Nat.zero_le _, fun _ e he => ?_⟩
    cases he
  have hEnd : ∃ covered, LoggedStore.Behind codec maxFileSize level (loggedEntries codec run.1) covered
      run.2 := by
    refine runs_invariant (fun events s => ∃ covered, LoggedStore.Behind codec maxFileSize level
      (loggedEntries codec events) covered s) (fun _ _ _ => True) ?_ hStart
        (EachMeets.of_forall fun _ _ => trivial)
    rintro past s call ⟨covered, h⟩ -
    rw [LoggedStore.loggedEntries_append]
    exact h.step call
  obtain ⟨covered, h⟩ := hEnd
  refine ⟨h.memory, fun dir hCrash => ?_⟩
  obtain ⟨front, kept, pending, hLog⟩ := h.log
  obtain ⟨-, read, hRead, hCovered, hPrefix⟩ := hLog.replay_crashed hCrash
  exact ⟨read, hRead, hPrefix, fun w hWindow =>
    (h.window w hWindow).trans (Nat.add_le_add_right hCovered.length_le w)⟩

/-- Three writes in batches of two, and a crash in the middle of the third record. -/
theorem sync_level_window_three :
    let writes : List LogCall := [.put ⟨⟨0, [1]⟩, 1, some [7]⟩ 0, .put ⟨⟨0, [2]⟩, 1, none⟩ 0,
      .put ⟨⟨0, [3]⟩, 1, some [9]⟩ 0]
    let run := runs (LoggedStore.step Postcard.codec) (LoggedStore.opened 1024 1024 (.batch 50 2)) writes
    let crashed : WalDir := run.2.wal.writer.dir.map fun file => (file.1, file.2.take 35)
    ∃ read, replayAll Postcard.codec crashed = .ok read ∧
      read <+: loggedEntries Postcard.codec run.1 ∧ 3 ≤ read.length + 1 := by
  intro writes run crashed
  have hCrash : run.2.wal.Crashes crashed := by
    have hDir : run.2.wal.writer.dir = [(0, run.2.wal.writer.dir.flatMap Prod.snd)] := by decide +kernel
    rw [SyncedWriter.Crashes, show crashed = run.2.wal.writer.dir.map fun file =>
      (file.1, file.2.take 35) from rfl, hDir]
    exact .cons ⟨rfl, List.take_prefix _ _, by decide +kernel⟩ .nil
  have hLogged : (loggedEntries Postcard.codec run.1).length = 3 := by decide +kernel
  obtain ⟨read, hRead, hPrefix, hWindow⟩ :=
    (sync_level_window Postcard.codec 1024 1024 (.batch 50 2) writes).2 crashed hCrash
  exact ⟨read, hRead, hPrefix, hLogged ▸ hWindow 1 rfl⟩

end Z1Kv
