import Z1Kv.Error

/-! WAL records and their framing `len(4B LE) | crc32(4B LE) | payload`. The
payload codec and the checksum are third-party code, so both are parameters;
of the codec only that decoding undoes the encoding of what is written is used. -/
namespace Z1Kv

/-- WAL record payload. `value = none` is a tombstone. -/
inductive WalRecord
  | put (cf : UInt16) (key : Bytes) (value : Option Bytes)
  | begin
  | commit (commitTs insertedAt : Nat)
  | rollback
  | checkpoint (checkpointId : TxnId)
  deriving DecidableEq, Repr

def WalRecord.isPut : WalRecord → Bool
  | .put _ _ _ => true
  | _ => false

structure WalEntry where
  txnId : TxnId
  record : WalRecord
  deriving DecidableEq, Repr

/-- Maximum payload length of a single WAL record. -/
def maxWalRecordLen : Nat := 64 * 1024 * 1024

/-- `postcard::to_stdvec`, `postcard::from_bytes` at `WalEntry`, and
`crc32fast::hash`. -/
structure Codec where
  encode : WalEntry → Bytes
  decode : Bytes → Option WalEntry
  crc32 : Bytes → UInt32
  decode_encode : ∀ entry, (encode entry).length ≤ maxWalRecordLen → decode (encode entry) = some entry

namespace Codec
variable (codec : Codec)

/-- An entry whose payload the reader accepts. -/
def Fits (entry : WalEntry) : Prop := (codec.encode entry).length ≤ maxWalRecordLen

instance (entry : WalEntry) : Decidable (codec.Fits entry) :=
  inferInstanceAs (Decidable (_ ≤ _))

/-- The on-disk bytes of a record. -/
def frame (entry : WalEntry) : Bytes :=
  let payload := codec.encode entry
  Bytes.le 4 payload.length ++ Bytes.le 4 (codec.crc32 payload).toNat ++ payload

/-- Serialize a record into its on-disk bytes. The size limit is checked at the
write boundary, the same limit that the reader enforces. -/
def encodeRecord (entry : WalEntry) : Except Z1Error Bytes :=
  let payload := codec.encode entry
  if payload.length > maxWalRecordLen then
    .error (.recordTooLarge payload.length maxWalRecordLen)
  else .ok (codec.frame entry)

theorem encodeRecord_of_fits {entry : WalEntry} (h : codec.Fits entry) :
    codec.encodeRecord entry = .ok (codec.frame entry) := by
  unfold encodeRecord
  rw [if_neg (Nat.not_lt.mpr h)]

theorem encodeRecord_refused {entry : WalEntry} (h : ¬ codec.Fits entry) :
    codec.encodeRecord entry =
      .error (.recordTooLarge (codec.encode entry).length maxWalRecordLen) := by
  unfold encodeRecord
  rw [if_pos (Nat.lt_of_not_le h)]

theorem frame_length (entry : WalEntry) :
    (codec.frame entry).length = 8 + (codec.encode entry).length := by
  simp only [frame, List.length_append, Bytes.le_length]

theorem frame_pos (entry : WalEntry) : 0 < (codec.frame entry).length := by
  rw [codec.frame_length]
  omega

/-- The bytes of a segment that holds these entries. -/
def frames (entries : List WalEntry) : Bytes := entries.flatMap codec.frame

@[simp] theorem frames_nil : codec.frames [] = [] := rfl

@[simp] theorem frames_cons (entry : WalEntry) (rest : List WalEntry) :
    codec.frames (entry :: rest) = codec.frame entry ++ codec.frames rest := rfl

@[simp] theorem frames_append (first second : List WalEntry) :
    codec.frames (first ++ second) = codec.frames first ++ codec.frames second := by
  simp [frames]

theorem frames_eq_nil {entries : List WalEntry} : codec.frames entries = [] ↔ entries = [] := by
  cases entries with
  | nil => simp
  | cons entry rest =>
      have := codec.frame_pos entry
      simp only [frames_cons, List.append_eq_nil_iff, reduceCtorEq, iff_false, not_and]
      intro h
      simp [h] at this

end Codec
end Z1Kv
