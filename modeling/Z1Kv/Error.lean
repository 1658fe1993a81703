import Z1Kv.Library.Bytes

/-! Error values of the engine. A value records which message the source builds
and the numbers it interpolates; `Z1Error.message` renders the text. -/
namespace Z1Kv

abbrev TxnId := Nat

/-- The largest `u64`, also the watermark of a compaction without readers. -/
def u64Max : Nat := 2 ^ 64 - 1

/-- The kinds of `std::io::Error` that some path of the engine tells apart. -/
inductive IoErrorKind
  | alreadyExists
  | permissionDenied
  | notFound
  | other
  deriving DecidableEq, Repr

/-- Reasons for `Z1Error::Deserialize` in the WAL reader. -/
inductive DeserializeError
  | truncatedHeader
  | lengthExceedsLimit (length limit : Nat)
  | truncatedPayload
  | crcMismatch (stored actual : UInt32)
  | decode
  deriving DecidableEq, Repr

/-- Reasons for `Z1Error::MvccConflict`. -/
inductive MvccConflict
  | alreadyActive (txnId : TxnId)
  | alreadyCommitted (txnId : TxnId)
  | notActive (txnId : TxnId)
  | ssiConflict (txnId conflictingTxn : TxnId) (readWrite writeWrite : Bool)
  deriving DecidableEq, Repr

/-- Reasons for `Z1Error::Internal` in the transaction layer. -/
inductive InternalError
  | txnCounterOverflow
  | beginFailed (cause : MvccConflict)
  | beginRetriesExhausted
  deriving DecidableEq, Repr

/-- Severity of a WAL replay error. -/
inductive ReplayErrorKind
  | recoverable
  | ambiguous
  | corruption
  | fatal
  deriving DecidableEq, Repr

inductive Z1Error
  | io (kind : IoErrorKind)
  | recordTooLarge (length limit : Nat)
  | deserialize (cause : DeserializeError)
  | internal (cause : InternalError)
  | unflushedQueue (count : Nat)
  | recoveryFailed (kind : ReplayErrorKind) (cause : Z1Error) (txnId : TxnId)
  | mvccConflict (cause : MvccConflict)
  | txnNotFound (txnId : TxnId)
  deriving DecidableEq, Repr

private def hex8 (n : Nat) : String :=
  let digits := Nat.toDigits 16 n
  String.ofList (List.replicate (8 - digits.length) '0' ++ digits)

def DeserializeError.message : DeserializeError → String
  | truncatedHeader => "WAL truncated header"
  | lengthExceedsLimit length limit =>
      s!"WAL record length {length} exceeds limit {limit} (corrupt or hostile file)"
  | truncatedPayload => "WAL truncated payload"
  | crcMismatch stored actual =>
      "WAL crc mismatch: stored=" ++ hex8 stored.toNat ++ " actual=" ++ hex8 actual.toNat
  | decode => "WAL decode"

def MvccConflict.message : MvccConflict → String
  | alreadyActive txnId => s!"transaction {txnId} already active"
  | alreadyCommitted txnId => s!"transaction {txnId} already committed"
  | notActive txnId => s!"transaction {txnId} not active"
  | ssiConflict txnId other rw ww =>
      s!"SSI conflict: txn {txnId} conflicts with active txn {other} (rw={rw}, ww={ww})"

def InternalError.message : InternalError → String
  | txnCounterOverflow => "transaction ID counter overflow"
  | beginFailed cause => "begin_txn failed: MVCC conflict: " ++ cause.message
  | beginRetriesExhausted =>
      "begin_txn: could not allocate an in-order transaction id after retries"

def ReplayErrorKind.label : ReplayErrorKind → String
  | recoverable => "recoverable"
  | ambiguous => "ambiguous"
  | corruption => "corruption"
  | fatal => "fatal"

def Z1Error.message : Z1Error → String
  | io _ => "IO error"
  | recordTooLarge length limit =>
      s!"Serialization error: WAL record too large: {length} bytes (limit {limit})"
  | deserialize cause => "Deserialization error: " ++ cause.message
  | internal cause => "Internal error: " ++ cause.message
  | unflushedQueue count =>
      s!"WAL error: truncate_before: {count} unflushed record(s) in group-commit queue; " ++
        "flush_and_sync must run before truncation"
  | recoveryFailed kind cause txnId =>
      "WAL error: recovery failed: WAL replay error (" ++ kind.label ++ ": " ++ cause.message ++
        s!"): {txnId}"
  | mvccConflict cause => "MVCC conflict: " ++ cause.message
  | txnNotFound txnId => s!"Transaction not found: txn_id={txnId}"

end Z1Kv
