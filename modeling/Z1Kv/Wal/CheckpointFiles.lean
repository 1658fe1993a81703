import Z1Kv.Library.Runs
import Z1Kv.Store.DiskFormat
import Z1Kv.Store.DurableWriter
import Z1Kv.Wal.Checkpoint

/-! Checkpoints as bytes: the envelope `magic(4) | version(1) | crc32(4) | payload_len(4) |
payload`, the pointer `_LATEST`, and writes of the two files that may stop at any point. -/
namespace Z1Kv

/-- What is serialized of a checkpoint. -/
structure CheckpointContent where
  checkpointId : UInt64
  committedTxn : UInt64
  timestampMs : UInt64
  committedHistory : List (UInt64 × UInt64)
  deriving DecidableEq

def CheckpointContent.state (content : CheckpointContent) : CheckpointState :=
  ⟨content.checkpointId.toNat, content.committedTxn.toNat,
    content.committedHistory.map fun pair => (pair.1.toNat, pair.2.toNat)⟩

/-- `postcard` at checkpoints, and `crc32fast::hash`. -/
structure CheckpointCodec where
  encode : CheckpointContent → Bytes
  decode : Bytes → Option CheckpointContent
  crc32 : Bytes → UInt32
  decode_encode : ∀ content, (encode content).length < 2 ^ 32 → decode (encode content) = some content

namespace Postcard

/-- `postcard` at a checkpoint: three numbers, the number of pairs, the pairs. -/
def historyPair (pair : UInt64 × UInt64) : Bytes := varint pair.1.toNat ++ varint pair.2.toNat

def readHistory : Nat → Bytes → Option (List (UInt64 × UInt64) × Bytes)
  | 0, rest => some ([], rest)
  | count + 1, rest => do
      let (txnId, rest) ← readVarint 64 rest
      let (commitTs, rest) ← readVarint 64 rest
      let (more, rest) ← readHistory count rest
      some ((UInt64.ofNat txnId, UInt64.ofNat commitTs) :: more, rest)

def checkpoint (content : CheckpointContent) : Bytes :=
  varint content.checkpointId.toNat ++ varint content.committedTxn.toNat ++
    varint content.timestampMs.toNat ++ varint content.committedHistory.length ++
    content.committedHistory.flatMap historyPair

def readCheckpoint (input : Bytes) : Option CheckpointContent := do
  let (checkpointId, rest) ← readVarint 64 input
  let (committedTxn, rest) ← readVarint 64 rest
  let (timestampMs, rest) ← readVarint 64 rest
  let (count, rest) ← readVarint 64 rest
  let (history, _) ← readHistory count rest
  some ⟨UInt64.ofNat checkpointId, UInt64.ofNat committedTxn, UInt64.ofNat timestampMs, history⟩

theorem readNumber (n : UInt64) (rest : Bytes) :
    readVarint 64 (varint n.toNat ++ rest) = some (n.toNat, rest) :=
  readVarint_varint (by decide) (UInt64.toNat_lt n) rest

theorem readHistory_flatMap (history : List (UInt64 × UInt64)) (rest : Bytes) :
    readHistory history.length (history.flatMap historyPair ++ rest) = some (history, rest) := by
  induction history with
  | nil => rfl
  | cons pair more ih =>
      simp [readHistory, historyPair, List.flatMap_cons, List.append_assoc, readNumber, ih]

def checkpointCodec : CheckpointCodec where
  encode := checkpoint
  decode := readCheckpoint
  crc32 := crc32
  decode_encode content h := by
    have hHistory := readHistory_flatMap content.committedHistory []
    rw [List.append_nil] at hHistory
    simp only [checkpoint, List.length_append] at h
    simp [readCheckpoint, checkpoint, List.append_assoc, readNumber, hHistory,
      @readVarint_of_length content.committedHistory.length (by omega)]

end Postcard

/-- The names in the directory `checkpoints`: `ckpt_{:016}.bin` and `_LATEST`. -/
inductive CheckpointName
  | ckpt (id : UInt64)
  | latest
  deriving DecidableEq

abbrev CheckpointFiles := NamedDir CheckpointName

/-- What the file system does to the attempts at the two files of a checkpoint. -/
structure CheckpointWrite where
  file : WriteAttempts
  pointer : WriteAttempts

inductive CheckpointError
  | payloadTooLarge (length : Nat)
  | halt (cause : Interrupt)
  deriving DecidableEq

namespace CheckpointCodec

/-- `CKPT` -/
def ckptMagic : Bytes := [67, 75, 80, 84]

def ckptVersion : UInt8 := 1

def envelopeHeader : Nat := 4 + 1 + 4 + 4

variable (codec : CheckpointCodec)

def envelope (payload : Bytes) : Bytes :=
  ckptMagic ++ [ckptVersion] ++ Bytes.le 4 (codec.crc32 payload).toNat ++ Bytes.le 4 payload.length ++
    payload

/-- The validation of a checkpoint file: nothing if it is corrupted. The outer `none` stands
for the panic of a slice out of range. -/
def openEnvelope (bytes : Bytes) : Option (Option CheckpointContent) :=
  if bytes.length < envelopeHeader then some none
  else do
    let magic ← DiskFormat.slice bytes 0 4
    let version ← DiskFormat.slice bytes 4 5
    if magic ≠ ckptMagic ∨ version ≠ [ckptVersion] then some none
    else
      let storedCrc := UInt32.ofNat (Bytes.value (← DiskFormat.slice bytes 5 9))
      let len := Bytes.value (← DiskFormat.slice bytes 9 13)
      match DiskFormat.checkedAdd envelopeHeader len with
      | none => some none
      | some payloadEnd =>
          if bytes.length < payloadEnd then some none
          else do
            let payload ← DiskFormat.slice bytes envelopeHeader payloadEnd
            if codec.crc32 payload ≠ storedCrc then some none else some (codec.decode payload)

end CheckpointCodec

namespace CheckpointFiles
variable (codec : CheckpointCodec)

/-- `CheckpointManager::write`: the file, then the pointer to it. -/
def write (dir : CheckpointFiles) (writes : CheckpointWrite) (content : CheckpointContent) :
    Except CheckpointError Unit × CheckpointFiles :=
  let payload := codec.encode content
  if payload.length > 2 ^ 32 - 1 then (.error (.payloadTooLarge payload.length), dir)
  else
    match dir.writeDurable (.ckpt content.checkpointId) (codec.envelope payload) writes.file with
    | (.error interrupt, dir) => (.error (.halt interrupt), dir)
    | (.ok (), dir) =>
        match NamedDir.writeDurable dir .latest (Bytes.le 8 content.checkpointId.toNat) writes.pointer with
        | (.error interrupt, dir) => (.error (.halt interrupt), dir)
        | (.ok (), dir) => (.ok (), dir)

/-- `CheckpointManager::load_latest` -/
def loadLatest (dir : CheckpointFiles) : Option (Option CheckpointContent) :=
  match dir.read .latest with
  | none => some none
  | some idBytes =>
      if idBytes.length ≠ 8 then some none
      else
        match dir.read (.ckpt (UInt64.ofNat (Bytes.value idBytes))) with
        | none => some none
        | some bytes => codec.openEnvelope bytes

end CheckpointFiles

namespace CheckpointCodec
variable {codec : CheckpointCodec} {bytes payload : Bytes} {content : CheckpointContent}

theorem envelope_length (codec : CheckpointCodec) (payload : Bytes) :
    (codec.envelope payload).length = envelopeHeader + payload.length := by
  simp only [envelope, List.length_append, Bytes.le_length]
  rfl

/-- An envelope is read as what its payload decodes to, whatever follows it. -/
theorem openEnvelope_envelope (hLength : payload.length < 2 ^ 32) (rest : Bytes) :
    codec.openEnvelope (codec.envelope payload ++ rest) = some (codec.decode payload) := by
  have hWhole := codec.envelope_length payload
  have hMagic : DiskFormat.slice (codec.envelope payload ++ rest) 0 4 = some ckptMagic :=
    @DiskFormat.slice_of_append _ [] ckptMagic _ 0 4
      (by simp only [envelope, List.append_assoc]; rfl) rfl rfl
  have hVersion : DiskFormat.slice (codec.envelope payload ++ rest) 4 5 = some [ckptVersion] :=
    @DiskFormat.slice_of_append _ ckptMagic [ckptVersion] _ 4 5
      (by simp only [envelope, List.append_assoc]; rfl) rfl rfl
  have hCrc : DiskFormat.slice (codec.envelope payload ++ rest) 5 9 =
      some (Bytes.le 4 (codec.crc32 payload).toNat) :=
    @DiskFormat.slice_of_append _ (ckptMagic ++ [ckptVersion]) _ _ 5 9
      (by simp only [envelope, List.append_assoc]; rfl) rfl (by simp)
  have hLen : DiskFormat.slice (codec.envelope payload ++ rest) 9 13 = some (Bytes.le 4 payload.length) :=
    @DiskFormat.slice_of_append _
      (ckptMagic ++ [ckptVersion] ++ Bytes.le 4 (codec.crc32 payload).toNat) _ _ 9 13
      (by simp only [envelope, List.append_assoc]; rfl) (by simp [ckptMagic]) (by simp)
  have hBody : DiskFormat.slice (codec.envelope payload ++ rest) envelopeHeader
      (envelopeHeader + payload.length) = some payload :=
    @DiskFormat.slice_of_append _
      (ckptMagic ++ [ckptVersion] ++ Bytes.le 4 (codec.crc32 payload).toNat ++
        Bytes.le 4 payload.length) _ rest envelopeHeader _ rfl (by simp [ckptMagic, envelopeHeader]) rfl
  have hCrcValue : UInt32.ofNat (Bytes.value (Bytes.le 4 (codec.crc32 payload).toNat)) =
      codec.crc32 payload := by
    rw [Bytes.value_le_of_lt (UInt32.toNat_lt _)]
    exact UInt32.ofNat_toNat
  have hTotal : DiskFormat.checkedAdd envelopeHeader payload.length =
      some (envelopeHeader + payload.length) := by
    rw [DiskFormat.checkedAdd, if_pos (by unfold envelopeHeader; omega)]
  have hLong : (codec.envelope payload ++ rest).length = envelopeHeader + payload.length + rest.length := by
    rw [List.length_append, hWhole]
  unfold openEnvelope
  rw [if_neg (by omega), hMagic, hVersion, hCrc, hLen]
  dsimp only [Option.bind_eq_bind, Option.bind_some]
  rw [if_neg (by simp), hCrcValue, Bytes.value_le_of_lt (by omega), hTotal]
  dsimp only
  rw [if_neg (by omega), hBody]
  dsimp only [Option.bind_eq_bind, Option.bind_some]
  rw [if_neg (by simp)]

/-- No slice is out of range, and what is accepted is an envelope. -/
theorem openEnvelope_spec (codec : CheckpointCodec) (bytes : Bytes) :
    ∃ read, codec.openEnvelope bytes = some read ∧ ∀ content, read = some content →
      ∃ payload rest, bytes = codec.envelope payload ++ rest ∧ payload.length < 2 ^ 32 ∧
        codec.decode payload = some content := by
  have hRejected : ∃ read, (some none : Option (Option CheckpointContent)) = some read ∧
      ∀ content, read = some content → ∃ payload rest, bytes = codec.envelope payload ++ rest ∧
        payload.length < 2 ^ 32 ∧ codec.decode payload = some content :=
    ⟨none, rfl, fun content h => by cases h⟩
  unfold openEnvelope
  split
  · exact hRejected
  · next hShort =>
    have hLength : 13 ≤ bytes.length := Nat.le_of_not_lt hShort
    rw [DiskFormat.slice_eq (by omega) (show 4 ≤ bytes.length by omega),
      DiskFormat.slice_eq (by omega) (show 5 ≤ bytes.length by omega),
      DiskFormat.slice_eq (by omega) (show 9 ≤ bytes.length by omega),
      DiskFormat.slice_eq (by omega) hLength]
    dsimp only [Option.bind_eq_bind, Option.bind_some]
    split
    · exact hRejected
    · next hHeader =>
      obtain ⟨hMagic, hVersion⟩ := not_or.mp hHeader
      split
      · exact hRejected
      · next payloadEnd hTotal =>
        split
        · exact hRejected
        · next hLong =>
          obtain rfl : payloadEnd = envelopeHeader + Bytes.value ((bytes.take 13).drop 9) := by
            unfold DiskFormat.checkedAdd at hTotal
            split at hTotal
            · exact (Option.some.inj hTotal).symm
            · cases hTotal
          have hEnd := Nat.le_of_not_lt hLong
          rw [DiskFormat.slice_eq (Nat.le_add_right _ _) hEnd]
          dsimp only [Option.bind_eq_bind, Option.bind_some]
          split
          · exact hRejected
          · next hCrc =>
            refine ⟨_, rfl, fun content hDecode => ?_⟩
            generalize hPayload : (bytes.take (envelopeHeader +
              Bytes.value ((bytes.take 13).drop 9))).drop envelopeHeader = payload at hCrc hDecode
            have hSize : payload.length = Bytes.value ((bytes.take 13).drop 9) := by
              rw [← hPayload, List.length_drop, List.length_take]
              omega
            have hField : Bytes.value ((bytes.take 13).drop 9) < 2 ^ 32 :=
              DiskFormat.value_slice_lt rfl hLength
            refine ⟨payload, bytes.drop (envelopeHeader + payload.length), ?_, hSize ▸ hField, hDecode⟩
            have hDigits {start stop : Nat} (hWidth : start + 4 = stop) (hStop : stop ≤ bytes.length) :
                Bytes.le 4 (Bytes.value ((bytes.take stop).drop start)) = (bytes.take stop).drop start := by
              have hFour : ((bytes.take stop).drop start).length = 4 := by
                rw [List.length_drop, List.length_take]
                omega
              have hBack := Bytes.le_value ((bytes.take stop).drop start)
              rwa [hFour] at hBack
            have hStored : (codec.crc32 payload).toNat = Bytes.value ((bytes.take 9).drop 5) := by
              rw [not_not.mp hCrc, UInt32.toNat_ofNat']
              exact Nat.mod_eq_of_lt (DiskFormat.value_slice_lt rfl (by omega))
            have hFront : codec.envelope payload = bytes.take (envelopeHeader + payload.length) := by
              rw [envelope, hStored, hSize, hDigits rfl (by omega), hDigits rfl hLength,
                ← not_not.mp hMagic, ← not_not.mp hVersion, List.drop_zero,
                DiskFormat.take_append_slice (by omega), DiskFormat.take_append_slice (by omega),
                DiskFormat.take_append_slice (by omega), ← hPayload]
              exact DiskFormat.take_append_slice (Nat.le_add_right _ _)
            rw [hFront]
            exact (List.take_append_drop _ _).symm

end CheckpointCodec

/-- The reader of checkpoints never slices out of range, and accepts exactly the envelopes of
payloads that decode, with anything behind them; a file cut short is rejected. -/
theorem checkpoint_envelope_exact (codec : CheckpointCodec) :
    (∀ bytes, (codec.openEnvelope bytes).isSome) ∧
    (∀ bytes content, codec.openEnvelope bytes = some (some content) ↔
      ∃ payload rest, bytes = codec.envelope payload ++ rest ∧ payload.length < 2 ^ 32 ∧
        codec.decode payload = some content) ∧
    ∀ payload : Bytes, payload.length < 2 ^ 32 → ∀ bytes, bytes <+: codec.envelope payload →
      bytes ≠ codec.envelope payload → codec.openEnvelope bytes = some none := by
  have hSpec (bytes : Bytes) := codec.openEnvelope_spec bytes
  refine ⟨fun bytes => ?_, fun bytes content => ⟨fun h => ?_, ?_⟩,
    fun payload hLength bytes hPrefix hStrict => ?_⟩
  · obtain ⟨read, hRead, -⟩ := hSpec bytes
    rw [hRead]
    rfl
  · obtain ⟨read, hRead, hAccepted⟩ := hSpec bytes
    exact hAccepted content (Option.some.inj (hRead.symm.trans h))
  · rintro ⟨payload, rest, rfl, hLength, hDecode⟩
    rw [CheckpointCodec.openEnvelope_envelope hLength, hDecode]
  · obtain ⟨read, hRead, hAccepted⟩ := hSpec bytes
    cases read with
    | none => exact hRead
    | some content =>
        obtain ⟨payload', rest', hBytes, hLength', -⟩ := hAccepted content rfl
        obtain ⟨missing, hMissing⟩ := hPrefix
        -- the length field says how long the envelope is, and it is not cut off
        have hHeads : codec.envelope payload' ++ (rest' ++ missing) = codec.envelope payload := by
          rw [← hMissing, hBytes, List.append_assoc]
        have hFields := hHeads
        simp only [CheckpointCodec.envelope, List.append_assoc] at hFields
        have hCrc := (List.append_inj (List.append_cancel_left (List.append_cancel_left hFields)) (by simp)).2
        have hField := (List.append_inj hCrc (by simp)).1
        have hSame : payload'.length = payload.length := by
          have hValue := congrArg Bytes.value hField
          rwa [Bytes.value_le_of_lt hLength', Bytes.value_le_of_lt hLength] at hValue
        have hTotal := congrArg List.length hHeads
        simp only [List.length_append, CheckpointCodec.envelope_length] at hTotal
        have hNone : missing = [] := List.eq_nil_of_length_eq_zero (by omega)
        rw [hNone, List.append_nil] at hMissing
        exact absurd hMissing hStrict

namespace CheckpointFiles
variable {codec : CheckpointCodec} {dir : CheckpointFiles}

theorem loadLatest_congr {dir' : CheckpointFiles} (hLatest : dir'.read .latest = dir.read .latest)
    (hFiles : ∀ id, dir'.read (.ckpt id) = dir.read (.ckpt id)) :
    loadLatest codec dir' = loadLatest codec dir := by
  simp only [loadLatest, hLatest, hFiles]

/-- The pointer and the file it points to. -/
theorem loadLatest_of_read {id : UInt64} {bytes : Bytes}
    (hLatest : dir.read .latest = some (Bytes.le 8 id.toNat)) (hFile : dir.read (.ckpt id) = some bytes) :
    loadLatest codec dir = codec.openEnvelope bytes := by
  have hId : UInt64.ofNat (Bytes.value (Bytes.le 8 id.toNat)) = id := by
    rw [Bytes.value_le_of_lt (UInt64.toNat_lt _)]
    exact UInt64.ofNat_toNat
  rw [loadLatest, hLatest]
  simp only [Bytes.le_length, ne_eq, not_true_eq_false, if_false, hId, hFile]

/-- The stages that a write may reach: neither file, the checkpoint file, or the pointer too. -/
inductive Reached (codec : CheckpointCodec) (content : CheckpointContent) (dir : CheckpointFiles)
    (result : Except CheckpointError Unit) (after : CheckpointFiles) : Prop
  | nothing (error : result ≠ .ok ()) (kept : ∀ name, after.read name = dir.read name)
  | file (error : result ≠ .ok ()) (fits : (codec.encode content).length < 2 ^ 32)
      (reads : ∀ name, after.read name =
        if name = .ckpt content.checkpointId then some (codec.envelope (codec.encode content))
        else dir.read name)
  | pointer (fits : (codec.encode content).length < 2 ^ 32)
      (reads : ∀ name, after.read name =
        if name = .latest then some (Bytes.le 8 content.checkpointId.toNat)
        else if name = .ckpt content.checkpointId then some (codec.envelope (codec.encode content))
        else dir.read name)

theorem write_spec (codec : CheckpointCodec) (dir : CheckpointFiles) (writes : CheckpointWrite)
    (content : CheckpointContent) :
    Reached codec content dir (write codec dir writes content).1 (write codec dir writes content).2 := by
  rw [write]
  split
  · exact .nothing (by simp) fun _ => rfl
  · next hShort =>
    have hFits : (codec.encode content).length < 2 ^ 32 := by omega
    have hFile := dir.writeDurable_read (.ckpt content.checkpointId)
      (codec.envelope (codec.encode content)) writes.file
    have hRenamed := @NamedDir.writeDurable_renames CheckpointName _ dir (.ckpt content.checkpointId)
      (codec.envelope (codec.encode content)) writes.file
    generalize dir.writeDurable (.ckpt content.checkpointId) (codec.envelope (codec.encode content))
      writes.file = outcome at hFile hRenamed ⊢
    obtain ⟨result, written⟩ := outcome
    cases result with
    | error halt =>
        by_cases hReached : ∃ a ∈ writes.file.made, a.Renames
        · exact .file (by simp) hFits fun name => by simpa [hReached] using hFile name
        · exact .nothing (by simp) fun name => by simpa [hReached] using hFile name
    | ok _ =>
        have hReached := hRenamed rfl
        have hWritten (name : CheckpointName) : written.read name =
            if name = .ckpt content.checkpointId then some (codec.envelope (codec.encode content))
            else dir.read name := by simpa [hReached] using hFile name
        have hPointer := written.writeDurable_read .latest (Bytes.le 8 content.checkpointId.toNat)
          writes.pointer
        have hPointed := @NamedDir.writeDurable_renames CheckpointName _ written .latest
          (Bytes.le 8 content.checkpointId.toNat) writes.pointer
        dsimp only
        generalize NamedDir.writeDurable written .latest (Bytes.le 8 content.checkpointId.toNat)
          writes.pointer = outcome at hPointer hPointed ⊢
        obtain ⟨result, last⟩ := outcome
        cases result with
        | error halt =>
            by_cases hLast : ∃ a ∈ writes.pointer.made, a.Renames
            · exact .pointer hFits fun name => by simpa [hLast, hWritten] using hPointer name
            · exact .file (by simp) hFits fun name => by simpa [hLast, hWritten] using hPointer name
        | ok _ =>
            have hLast := hPointed rfl
            exact .pointer hFits fun name => by simpa [hLast, hWritten] using hPointer name

/-- A write leaves the old checkpoint to load, or makes its own load; the latter if it
returns `Ok`. -/
theorem write_loads (codec : CheckpointCodec) (dir : CheckpointFiles) (writes : CheckpointWrite)
    (content : CheckpointContent) :
    loadLatest codec (write codec dir writes content).2 = some (some content) ∨
      (write codec dir writes content).1 ≠ .ok () ∧
        loadLatest codec (write codec dir writes content).2 = loadLatest codec dir := by
  have hSpec := write_spec codec dir writes content
  generalize write codec dir writes content = outcome at hSpec ⊢
  obtain ⟨result, after⟩ := outcome
  have hOpens (hFits : (codec.encode content).length < 2 ^ 32) :
      codec.openEnvelope (codec.envelope (codec.encode content)) = some (some content) := by
    have hRead := @CheckpointCodec.openEnvelope_envelope codec _ hFits []
    rwa [List.append_nil, codec.decode_encode content hFits] at hRead
  cases hSpec with
  | nothing hError hKept => exact .inr ⟨hError, loadLatest_congr (hKept _) fun id => hKept _⟩
  | pointer hFits hReads =>
      left
      rw [← hOpens hFits]
      apply loadLatest_of_read
      · exact hReads .latest
      · exact ((hReads (.ckpt content.checkpointId)).trans (if_neg (by simp))).trans (if_pos rfl)
  | file hError hFits hReads =>
      have hLatest : after.read .latest = dir.read .latest := hReads .latest
      -- only where the pointer is at this very id the new file is what loads
      by_cases hHere : ∃ idBytes, dir.read .latest = some idBytes ∧ idBytes.length = 8 ∧
          UInt64.ofNat (Bytes.value idBytes) = content.checkpointId
      · left
        obtain ⟨idBytes, hPointer, hEight, hId⟩ := hHere
        have hNew : after.read (.ckpt content.checkpointId) =
            some (codec.envelope (codec.encode content)) := (hReads _).trans (if_pos rfl)
        rw [loadLatest, hLatest, hPointer]
        dsimp only
        rw [if_neg (by simp [hEight]), hId, hNew]
        exact hOpens hFits
      · right
        refine ⟨hError, ?_⟩
        rw [loadLatest, loadLatest, hLatest]
        cases hPointer : dir.read .latest with
        | none => rfl
        | some idBytes =>
            dsimp only
            split
            · rfl
            · next hEight =>
              have hOther : CheckpointName.ckpt (UInt64.ofNat (Bytes.value idBytes)) ≠
                  .ckpt content.checkpointId := by
                intro hSame
                exact hHere ⟨idBytes, hPointer, not_not.mp hEight, CheckpointName.ckpt.inj hSame⟩
              rw [hReads, if_neg hOther]

/-- A write as a step of a run. -/
def step (codec : CheckpointCodec) (dir : CheckpointFiles) (call : CheckpointWrite × CheckpointContent) :
    Except CheckpointError Unit × CheckpointFiles := write codec dir call.1 call.2

end CheckpointFiles

/-- After any number of checkpoints, each of which may stop at any point of its two writes,
the one that loads is the last that returned `Ok` or a later one; while none has returned
`Ok` it may also be the one from before. -/
theorem loaded_checkpoint_current (codec : CheckpointCodec) (dir : CheckpointFiles)
    (calls : List (CheckpointWrite × CheckpointContent)) :
    let run := runs (CheckpointFiles.step codec) dir calls
    (∃ before event later, run.1 = before ++ event :: later ∧
      CheckpointFiles.loadLatest codec run.2 = some (some event.1.2) ∧ ∀ e ∈ later, e.2 ≠ .ok ()) ∨
    (CheckpointFiles.loadLatest codec run.2 = CheckpointFiles.loadLatest codec dir ∧
      ∀ e ∈ run.1, e.2 ≠ .ok ()) := by
  induction calls generalizing dir with
  | nil => exact .inr ⟨rfl, fun e he => by cases he⟩
  | cons call rest ih =>
      have hHere := CheckpointFiles.write_loads codec dir call.1 call.2
      simp only [runs]
      rcases ih (CheckpointFiles.step codec dir call).2 with
        ⟨before, event, later, hEvents, hLoads, hLater⟩ | ⟨hKept, hNone⟩
      · left
        refine ⟨(call, (CheckpointFiles.step codec dir call).1) :: before, event, later, ?_, hLoads, hLater⟩
        rw [hEvents, List.cons_append]
      · rcases hHere with hNew | ⟨hError, hOld⟩
        · exact .inl ⟨[], _, _, rfl, hKept.trans hNew, hNone⟩
        · refine .inr ⟨hKept.trans hOld, fun e he => ?_⟩
          rcases List.mem_cons.mp he with rfl | hRest
          · exact hError
          · exact hNone e hRest

/-- A pointer that cannot be renamed leaves the checkpoint before. -/
example :
    let done : WriteAttempts := .each .completes
    let first : CheckpointContent := ⟨5, 5, 0, [(5, 40)]⟩
    let run := runs (CheckpointFiles.step Postcard.checkpointCodec) ∅
      [(⟨done, done⟩, first), (⟨done, .each (.stops .rename (.fails .other))⟩, ⟨6, 6, 1, [(6, 41)]⟩)]
    CheckpointFiles.loadLatest Postcard.checkpointCodec run.2 = some (some first) := by decide +kernel

/-- The files stand for this directory of checkpoints. -/
structure CheckpointFiles.Stands (codec : CheckpointCodec) (dir : CheckpointFiles) (ckpts : CheckpointDir) :
    Prop where
  latest : dir.read .latest = ckpts.latest.map (Bytes.le 8)
  range : ∀ id ∈ ckpts.latest, id < 2 ^ 64
  files : ∀ id : UInt64, ((dir.read (.ckpt id)).bind fun bytes => (codec.openEnvelope bytes).join).map
    CheckpointContent.state = AList.lookup id.toNat ckpts.files

namespace CheckpointFiles
variable {codec : CheckpointCodec} {dir : CheckpointFiles} {ckpts : CheckpointDir}

theorem Stands.loadLatest (h : Stands codec dir ckpts) :
    (CheckpointFiles.loadLatest codec dir).join.map CheckpointContent.state = ckpts.loadLatest := by
  rw [CheckpointFiles.loadLatest, h.latest, CheckpointDir.loadLatest]
  cases hLatest : ckpts.latest with
  | none => rfl
  | some id =>
      have hFile := h.files (UInt64.ofNat id)
      have hValue : Bytes.value (Bytes.le 8 id) = id := Bytes.value_le_of_lt (h.range id hLatest)
      rw [UInt64.toNat_ofNat', Nat.mod_eq_of_lt (h.range id hLatest)] at hFile
      simp only [Option.map_some, Option.bind_some, Bytes.le_length, ne_eq, not_true_eq_false, if_false,
        hValue]
      rw [← hFile]
      cases dir.read (.ckpt (UInt64.ofNat id)) with
      | none => rfl
      | some bytes => rfl

/-- A write on the files is a write on the directory with some outcomes. -/
theorem Stands.write (h : Stands codec dir ckpts) (writes : CheckpointWrite) (content : CheckpointContent) :
    ∃ outcomes, ((CheckpointFiles.write codec dir writes content).1 = .ok () →
        (ckpts.write outcomes content.state).1 = .ok ()) ∧
      Stands codec (CheckpointFiles.write codec dir writes content).2
        (ckpts.write outcomes content.state).2 := by
  have hSpec := write_spec codec dir writes content
  generalize CheckpointFiles.write codec dir writes content = outcome at hSpec ⊢
  obtain ⟨result, after⟩ := outcome
  have hFile (hFits : (codec.encode content).length < 2 ^ 32)
      (hReads : ∀ id, after.read (.ckpt id) = if CheckpointName.ckpt id = .ckpt content.checkpointId then
        some (codec.envelope (codec.encode content)) else dir.read (.ckpt id)) (id : UInt64) :
      ((after.read (.ckpt id)).bind fun bytes => (codec.openEnvelope bytes).join).map
        CheckpointContent.state =
          AList.lookup id.toNat (AList.insert content.state.checkpointId content.state ckpts.files) := by
    rw [hReads]
    by_cases hId : id = content.checkpointId
    · have hOpens := @CheckpointCodec.openEnvelope_envelope codec _ hFits []
      rw [List.append_nil, codec.decode_encode content hFits] at hOpens
      rw [if_pos (congrArg CheckpointName.ckpt hId), Option.bind_some, hOpens, hId]
      exact (AList.lookup_insert ckpts.files).symm
    · rw [if_neg fun hSame => hId (CheckpointName.ckpt.inj hSame), h.files, AList.lookup_insert_ne]
      exact fun hSame => hId (UInt64.toNat_inj.mp hSame)
  cases hSpec with
  | nothing hError hKept =>
      refine ⟨⟨fun _ => .succeeds, false, false⟩, fun hOk => absurd hOk hError, ?_, h.range, fun id => ?_⟩
      · exact (hKept .latest).trans h.latest
      · exact (congrArg _ (congrArg (Option.bind · _) (hKept (.ckpt id)))).trans (h.files id)
  | file hError hFits hReads =>
      refine ⟨⟨fun _ => .succeeds, true, false⟩, fun hOk => absurd hOk hError, ?_, h.range, ?_⟩
      · exact (hReads .latest).trans h.latest
      · exact hFile hFits fun id => hReads (.ckpt id)
  | pointer hFits hReads =>
      refine ⟨⟨fun _ => .succeeds, true, true⟩, fun _ => rfl, ?_, fun id hId => ?_, ?_⟩
      · exact hReads .latest
      · obtain rfl := Option.some.inj hId
        exact UInt64.toNat_lt _
      · exact hFile hFits fun id => hReads (.ckpt id)

end CheckpointFiles

/-- A write of a whole checkpoint as a step of a run. -/
def CheckpointDir.step (ckpts : CheckpointDir) (call : Writes × CheckpointState) :
    Except Z1Error Unit × CheckpointDir := ckpts.write call.1 call.2

/-- The same checkpoint, written at the one level if it is at the other. -/
def SameCheckpoint
    (event : (CheckpointWrite × CheckpointContent) × Except CheckpointError Unit)
    (event' : (Writes × CheckpointState) × Except Z1Error Unit) : Prop :=
  event.1.2.state = event'.1.2 ∧ (event.2 = .ok () → event'.2 = .ok ())

/-- From an empty directory on, writes of checkpoint files and of the pointer to them are
writes of whole checkpoints: what loads is what the directory of checkpoints loads, and a
write that returns `Ok` has succeeded there too. -/
theorem checkpoint_files_refine_dir (codec : CheckpointCodec)
    (calls : List (CheckpointWrite × CheckpointContent)) :
    ∃ outcomes : List (Writes × CheckpointState),
      let files := runs (CheckpointFiles.step codec) ∅ calls
      let whole := runs CheckpointDir.step {} outcomes
      List.Forall₂ SameCheckpoint files.1 whole.1 ∧
      (CheckpointFiles.loadLatest codec files.2).join.map CheckpointContent.state =
        whole.2.loadLatest := by
  have hStart : CheckpointFiles.Stands codec ∅ {} := by
    refine ⟨rfl, fun id hId => ?_, fun id => rfl⟩
    cases hId
  have hStep (dir : CheckpointFiles) (ckpts : CheckpointDir) (call : CheckpointWrite × CheckpointContent)
      (hHere : CheckpointFiles.Stands codec dir ckpts) :
      ∃ call', SameCheckpoint (call, (CheckpointFiles.step codec dir call).1)
          (call', (ckpts.step call').1) ∧
        CheckpointFiles.Stands codec (CheckpointFiles.step codec dir call).2 (ckpts.step call').2 := by
    obtain ⟨outcomes, hOk, hAfter⟩ := hHere.write call.1 call.2
    exact ⟨(outcomes, call.2.state), ⟨rfl, hOk⟩, hAfter⟩
  obtain ⟨outcomes, hEvents, hLast⟩ := runs_simulates hStep hStart calls
  exact ⟨outcomes, hEvents, hLast.loadLatest⟩

end Z1Kv
