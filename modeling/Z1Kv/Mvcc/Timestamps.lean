import Z1Kv.Library.Runs
import Z1Kv.Mvcc.History

/-! The millisecond clock of the process: a cell with the last timestamp, which is the
answer where the system clock reads a time before the epoch. Every other reading is
stored as it is. -/
namespace Z1Kv

/-- A reading of the system clock: milliseconds since the epoch, or a time before it. -/
abbrev ClockReading := Option Nat

/-- `current_timestamp_millis`: the timestamp and the cell after the call. -/
def currentTimestampMillis (lastValid : Nat) : ClockReading → Nat × Nat
  | some millis => (millis % 2 ^ 64, millis % 2 ^ 64)
  | none => (lastValid, lastValid)

/-- Calls that read the clock: `commit_txn` of any manager, with the readings of its two
calls, and all other callers. -/
inductive ClockOp
  | timestamp (reading : ClockReading)
  | commitTxn (m : VisibilityManager) (order : HashOrder) (txnId : TxnId) (insertedAt : Nat)
      (tsReading nowReading : ClockReading)

/-- The clock readings of a call with the timestamps they gave, and the `commit_ts` that
it recorded. -/
structure ClockReply where
  ticks : List (ClockReading × Nat) := []
  commitTs : Option Nat := none

/-- A commit reads the clock when its conflict check has passed, and again to prune. -/
def clockStep (lastValid : Nat) : ClockOp → ClockReply × Nat
  | .timestamp reading =>
      let (ts, lastValid) := currentTimestampMillis lastValid reading
      ({ ticks := [(reading, ts)] }, lastValid)
  | .commitTxn m order txnId insertedAt tsReading nowReading =>
      let (ts, stored) := currentTimestampMillis lastValid tsReading
      let (nowMs, stored) := currentTimestampMillis stored nowReading
      match m.commitTxn order txnId insertedAt ts nowMs with
      | (.ok _, _) =>
          ({ ticks := [(tsReading, ts), (nowReading, nowMs)], commitTs := some ts }, stored)
      | (.error _, _) => ({}, lastValid)

/-- The clock readings of a run, the timestamps returned, and those recorded. -/
def readings (events : List (ClockOp × ClockReply)) : List ClockReading :=
  events.flatMap fun event => event.2.ticks.map Prod.fst

def timestamps (events : List (ClockOp × ClockReply)) : List Nat :=
  events.flatMap fun event => event.2.ticks.map Prod.snd

def recordedCommitTs (events : List (ClockOp × ClockReply)) : List Nat :=
  events.filterMap fun event => event.2.commitTs

/-- What the cell takes over from readings: those not before the epoch, in 64 bits. -/
def storedReadings (readings : List ClockReading) : List Nat :=
  readings.filterMap fun reading => reading.map (· % 2 ^ 64)

/-- Successive calls. -/
def currentTimestamps (lastValid : Nat) : List ClockReading → List Nat
  | [] => []
  | reading :: rest =>
      (currentTimestampMillis lastValid reading).1 ::
        currentTimestamps (currentTimestampMillis lastValid reading).2 rest

/-- The timestamps rise from the cell on if the stored readings do. -/
theorem currentTimestamps_isChain (lastValid : Nat) (readings : List ClockReading) :
    (lastValid :: currentTimestamps lastValid readings).IsChain (· ≤ ·) ↔
      (lastValid :: storedReadings readings).IsChain (· ≤ ·) := by
  induction readings generalizing lastValid with
  | nil => rfl
  | cons reading rest ih =>
      cases reading with
      | none =>
          rw [currentTimestamps, List.isChain_cons_cons]
          have hStored : storedReadings (none :: rest) = storedReadings rest := rfl
          rw [hStored]
          constructor
          · exact fun h => (ih lastValid).mp h.2
          · exact fun h => ⟨le_rfl, (ih lastValid).mpr h⟩
      | some millis =>
          have hStored : storedReadings (some millis :: rest) =
              millis % 2 ^ 64 :: storedReadings rest := by
            simp [storedReadings]
          rw [currentTimestamps, List.isChain_cons_cons, hStored, List.isChain_cons_cons]
          exact and_congr_right fun _ => ih (millis % 2 ^ 64)

/-- The timestamps of a run are those of its readings, and the recorded ones are among
them in their order. -/
theorem clockStep_timestamps (lastValid : Nat) (op : ClockOp) (rest : List ClockReading) :
    currentTimestamps lastValid ((clockStep lastValid op).1.ticks.map Prod.fst ++ rest) =
        (clockStep lastValid op).1.ticks.map Prod.snd ++
          currentTimestamps (clockStep lastValid op).2 rest ∧
      (clockStep lastValid op).1.commitTs.toList.Sublist
        ((clockStep lastValid op).1.ticks.map Prod.snd) := by
  cases op with
  | timestamp reading => exact ⟨rfl, List.nil_sublist _⟩
  | commitTxn m order txnId insertedAt tsReading nowReading =>
      unfold clockStep
      dsimp only
      split
      · next => exact ⟨rfl, by simp⟩
      · next => exact ⟨rfl, List.nil_sublist _⟩

theorem runs_timestamps (lastValid : Nat) (ops : List ClockOp) :
    let events := (runs clockStep lastValid ops).1
    timestamps events = currentTimestamps lastValid (readings events) ∧
      (recordedCommitTs events).Sublist (timestamps events) := by
  induction ops generalizing lastValid with
  | nil => exact ⟨rfl, List.Sublist.refl _⟩
  | cons op rest ih =>
      obtain ⟨hTail, hRecorded⟩ := ih (clockStep lastValid op).2
      obtain ⟨hHead, hFirst⟩ := clockStep_timestamps lastValid op
        (readings (runs clockStep (clockStep lastValid op).2 rest).1)
      simp only [runs, timestamps, readings, List.flatMap_cons] at hTail hHead ⊢
      refine ⟨by rw [hHead, hTail], ?_⟩
      have hSplit : recordedCommitTs ((op, (clockStep lastValid op).1) ::
          (runs clockStep (clockStep lastValid op).2 rest).1) =
            (clockStep lastValid op).1.commitTs.toList ++
              recordedCommitTs (runs clockStep (clockStep lastValid op).2 rest).1 := by
        cases hTs : (clockStep lastValid op).1.commitTs <;> simp [recordedCommitTs, hTs]
      rw [hSplit]
      exact hFirst.append hRecorded

/-- In a process the timestamps and the recorded commit timestamps never go backwards
exactly if the clock readings past the epoch do not. -/
theorem timestamps_monotone_iff (ops : List ClockOp) :
    let events := (runs clockStep 0 ops).1
    ((timestamps events).Pairwise (· ≤ ·) ∧ (recordedCommitTs events).Pairwise (· ≤ ·)) ↔
      (storedReadings (readings events)).Pairwise (· ≤ ·) := by
  intro events
  obtain ⟨hTimestamps, hRecorded⟩ := runs_timestamps 0 ops
  have hFromZero (l : List Nat) : (0 :: l).IsChain (· ≤ ·) ↔ l.Pairwise (· ≤ ·) := by
    rw [List.isChain_iff_pairwise, List.pairwise_cons]
    simp
  have hSame : (timestamps events).Pairwise (· ≤ ·) ↔
      (storedReadings (readings events)).Pairwise (· ≤ ·) := by
    rw [hTimestamps, ← hFromZero, ← hFromZero]
    exact currentTimestamps_isChain 0 _
  constructor
  · exact fun h => hSame.mp h.1
  · intro h
    have hRises := hSame.mpr h
    exact ⟨hRises, hRises.sublist hRecorded⟩

/-- One transaction is active. -/
def oneActive (txnId : TxnId) : VisibilityManager :=
  { VisibilityManager.newWithConfig {} with activeTxns := AList.insert txnId { beginTs := txnId } ∅ }

/-- The clock is set back by a second between two commits. -/
theorem clock_set_back :
    let events := (runs clockStep 0 [.commitTxn (oneActive 1) .listed 1 2000 (some 2000) (some 2000),
      .commitTxn (oneActive 2) .listed 2 1000 (some 1000) (some 1000)]).1
    recordedCommitTs events = [2000, 1000] ∧ ¬ (recordedCommitTs events).Pairwise (· ≤ ·) ∧
      ¬ (timestamps events).Pairwise (· ≤ ·) := by
  decide +kernel

end Z1Kv
