import Z1Kv.Wal.Record

/-! The WAL writer on one directory: segment files, rotation at `maxFileSize`,
and the three append paths. File synchronisation does not change contents, so
`sync_all` does not appear; the model is that of platforms without
`FILE_FLAG_WRITE_THROUGH`. -/
namespace Z1Kv

/-- The segment files `wal.{seq:08}` of a directory, listed by number. The code
reads a directory only to take its largest number or to sort the numbers. -/
abbrev WalDir := List (Nat × Bytes)

namespace WalDir

/-- Create or truncate one segment file. -/
def create (dir : WalDir) (seq : Nat) : WalDir :=
  dir.filter (·.1 < seq) ++ (seq, []) :: dir.filter (seq < ·.1)

def writeAt (dir : WalDir) (seq pos : Nat) (data : Bytes) : WalDir :=
  dir.map fun file => if file.1 = seq then (seq, Bytes.overwrite file.2 pos data) else file

def sizeBytes (dir : WalDir) : Nat := (dir.map fun file => file.2.length).sum

/-- The scan of `open_latest_segment` for the highest-numbered file. -/
def highest (dir : WalDir) : Option (Nat × Bytes) :=
  dir.foldl (fun best file =>
    match best with
    | none => some file
    | some top => if file.1 > top.1 then some file else some top) none

/-- The scan for the latest segment finds the last one of an ascending listing. -/
theorem highest_append {dir : WalDir} {file : Nat × Bytes}
    (h : ∀ other ∈ dir, other.1 < file.1) : highest (dir ++ [file]) = some file := by
  have hScan (files : WalDir) (best : Option (Nat × Bytes))
      (hBest : ∀ top ∈ best, top.1 < file.1) (hFiles : ∀ other ∈ files, other.1 < file.1) :
      ∀ top ∈ files.foldl (fun best file =>
        match best with
        | none => some file
        | some top => if file.1 > top.1 then some file else some top) best, top.1 < file.1 := by
    induction files generalizing best with
    | nil => exact hBest
    | cons next rest ih =>
        apply ih
        · cases best with
          | none => simpa using hFiles next (by simp)
          | some top =>
              simp only
              split
              · simpa using hFiles next (by simp)
              · exact hBest
        · exact fun other ho => hFiles other (by simp [ho])
  have hFront := hScan dir none (by simp) h
  rw [highest, List.foldl_append]
  simp only [List.foldl_cons, List.foldl_nil]
  split
  · rfl
  · rename_i top hTop
    rw [if_pos (hFront top hTop)]

theorem eq_nil_of_highest {dir : WalDir} (h : dir.highest = none) : dir = [] := by
  have hSome : ∀ (files : WalDir) (best : Option (Nat × Bytes)), best ≠ none →
      files.foldl (fun best file =>
        match best with
        | none => some file
        | some top => if file.1 > top.1 then some file else some top) best ≠ none := by
    intro files
    induction files with
    | nil => exact fun best hBest => hBest
    | cons file rest ih =>
        intro best hBest
        refine ih _ ?_
        cases best with
        | none => exact absurd rfl hBest
        | some top =>
            dsimp only
            split <;> simp
  cases dir with
  | nil => rfl
  | cons file rest => exact absurd h (hSome rest (some file) (by simp))

end WalDir

inductive SyncPolicy
  | syncEach
  | groupCommitStrict
  | flushOnly
  deriving DecidableEq, Repr

structure GroupCommitConfig where
  maxBatchSize : Nat := 100
  policy : SyncPolicy := .groupCommitStrict

structure WalConfig where
  maxFileSize : Nat := 128 * 1024 * 1024
  enabled : Bool := true
  groupCommit : Option GroupCommitConfig := some {}

def WalConfig.syncPolicy (config : WalConfig) : SyncPolicy :=
  match config.groupCommit with
  | some group => group.policy
  | none => .groupCommitStrict

/-- Writer state. `seq` and `cursor` are the open file handle: its segment and
the offset of the next write. `segmentBytes` is the writer's own byte count. -/
structure WalWriter where
  dir : WalDir
  config : WalConfig
  seq : Nat
  cursor : Nat
  segmentBytes : Nat
  queue : List WalEntry

namespace WalWriter

/-- Open the directory at its latest segment, or create segment 0. The latest
file is opened for reading and writing, without append mode and without a seek,
so the handle starts at offset 0; the byte count starts at the file's length. -/
def openLatest (dir : WalDir) (config : WalConfig) : WalWriter :=
  match dir.highest with
  | some (seq, bytes) =>
      { dir, config, seq, cursor := 0, segmentBytes := bytes.length, queue := [] }
  | none =>
      { dir := dir.create 0, config, seq := 0, cursor := 0, segmentBytes := 0, queue := [] }

def rotate (w : WalWriter) : WalWriter :=
  { w with dir := w.dir.create (w.seq + 1), seq := w.seq + 1, cursor := 0, segmentBytes := 0 }

/-- `write_all` on the open handle. -/
def write (w : WalWriter) (bytes : Bytes) : WalWriter :=
  { w with
    dir := w.dir.writeAt w.seq w.cursor bytes
    cursor := w.cursor + bytes.length
    segmentBytes := w.segmentBytes + bytes.length }

/-- Whether the next record of this length goes to a new segment. -/
def Rotates (w : WalWriter) (length : Nat) : Prop :=
  w.segmentBytes + length > w.config.maxFileSize ∧ w.segmentBytes > 0

instance (w : WalWriter) (length : Nat) : Decidable (w.Rotates length) :=
  inferInstanceAs (Decidable (_ ∧ _))

/-- Append encoded bytes, rotating when `maxFileSize` would be exceeded. -/
def appendEncoded (w : WalWriter) (bytes : Bytes) : WalWriter :=
  if w.Rotates bytes.length then w.rotate.write bytes else w.write bytes

section
variable (codec : Codec)

/-- Append a record without fsync. -/
def append (w : WalWriter) (txnId : TxnId) (record : WalRecord) : Except Z1Error Unit × WalWriter :=
  if w.config.enabled = false then (.ok (), w)
  else
    match codec.encodeRecord ⟨txnId, record⟩ with
    | .error e => (.error e, w)
    | .ok bytes => (.ok (), w.appendEncoded bytes)

/-- Append queued entries one by one; the first failure ends the loop. -/
def appendAll (w : WalWriter) : List WalEntry → Except Z1Error Unit × WalWriter
  | [] => (.ok (), w)
  | entry :: rest =>
      match codec.encodeRecord entry with
      | .error e => (.error e, w)
      | .ok bytes => (w.appendEncoded bytes).appendAll rest

/-- Flush the group-commit queue; the queue is moved out before the loop. -/
def flushQueue (w : WalWriter) : Except Z1Error Unit × WalWriter :=
  if w.queue = [] then (.ok (), w)
  else appendAll codec { w with queue := [] } w.queue

/-- Append a record and fsync. Under `GroupCommitStrict` the record is queued
and the queue flushed when it reaches the batch size. -/
def appendDurable (w : WalWriter) (txnId : TxnId) (record : WalRecord) :
    Except Z1Error Unit × WalWriter :=
  if w.config.enabled = false then (.ok (), w)
  else
    match w.config.syncPolicy with
    | .groupCommitStrict =>
        let batchSize := match w.config.groupCommit with
          | some group => group.maxBatchSize
          | none => 100
        let w := { w with queue := w.queue ++ [⟨txnId, record⟩] }
        if w.queue.length ≥ batchSize then w.flushQueue codec else (.ok (), w)
    | .syncEach | .flushOnly =>
        match codec.encodeRecord ⟨txnId, record⟩ with
        | .error e => (.error e, w)
        | .ok bytes => (.ok (), w.appendEncoded bytes)

def flushAndSync (w : WalWriter) : Except Z1Error Unit × WalWriter := w.flushQueue codec

end

/-- Current segment number, for checkpoint coordination. -/
def position (w : WalWriter) : Nat := w.seq

/-- Delete whole segments below `pos`; refused while the queue is non-empty. -/
def truncateBefore (w : WalWriter) (pos : Nat) : Except Z1Error Nat × WalWriter :=
  if w.queue ≠ [] then (.error (.unflushedQueue w.queue.length), w)
  else (.ok (w.dir.filter (·.1 < pos)).length, { w with dir := w.dir.filter (pos ≤ ·.1) })

end WalWriter
end Z1Kv
