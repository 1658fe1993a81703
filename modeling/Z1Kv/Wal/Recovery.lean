import Z1Kv.Library.FiniteMap
import Z1Kv.Wal.Replay

/-! WAL recovery: group the log by transaction, then apply the operations of
the committed ones in order. Applying is a parameter with a state of its own that
may fail; a failure is classified and either ends recovery or skips the
transaction. The side log of skipped transactions is diagnostics only and is left
out. -/
namespace Z1Kv

structure RecoveryResult where
  lastCommittedTxn : TxnId := 0
  maxSeenCommittedTxn : TxnId := 0
  committedCount : Nat := 0
  discardedCount : Nat := 0
  commitTsMap : FinMap TxnId Nat := ∅
  insertedAtMap : FinMap TxnId Nat := ∅
  replayWatermark : Nat := 0
  committedPuts : List (TxnId × WalRecord) := []

def classifyApplyError : Z1Error → ReplayErrorKind
  | .deserialize _ => .corruption
  | .io .alreadyExists => .recoverable
  | .io .permissionDenied => .recoverable
  | .io _ => .fatal
  | _ => .ambiguous

/-- What the scan of the log knows about its transactions. -/
structure ReplayScan where
  pending : FinMap TxnId (List WalEntry) := ∅
  committedTxns : FinMap TxnId Nat := ∅
  rolledBack : List TxnId := []
  maxSeenCommitted : TxnId := 0
  insertedAtMap : FinMap TxnId Nat := ∅
  maxInsertedAt : Nat := 0

def ReplayScan.record (scan : ReplayScan) (entry : WalEntry) : ReplayScan :=
  match entry.record with
  | .put _ _ _ =>
      let ops := (AList.lookup entry.txnId scan.pending).getD []
      { scan with pending := AList.insert entry.txnId (ops ++ [entry]) scan.pending }
  | .begin =>
      let ops := (AList.lookup entry.txnId scan.pending).getD []
      { scan with pending := AList.insert entry.txnId ops scan.pending }
  | .commit commitTs insertedAt =>
      { scan with
        committedTxns := AList.insert entry.txnId commitTs scan.committedTxns
        insertedAtMap := AList.insert entry.txnId insertedAt scan.insertedAtMap
        maxInsertedAt := max scan.maxInsertedAt insertedAt
        maxSeenCommitted := max scan.maxSeenCommitted entry.txnId }
  | .rollback =>
      { scan with
        rolledBack := scan.rolledBack.insert entry.txnId
        pending := AList.erase entry.txnId scan.pending }
  | .checkpoint _ => scan

def replayScan (entries : List WalEntry) : ReplayScan := entries.foldl ReplayScan.record {}

section
variable {σ : Type} (apply : σ → WalEntry → Except Z1Error Unit × σ)

/-- Apply the operations of one transaction up to the first failure. -/
def applyOps (state : σ) : List WalEntry → Option Z1Error × σ
  | [] => (none, state)
  | op :: rest =>
      match apply state op with
      | (.ok (), state) => applyOps state rest
      | (.error e, state) => (some e, state)

/-- Phase 2 over the committed transactions in ascending order. -/
def replayTxns (strictMode : Bool) (scan : ReplayScan) :
    List TxnId → RecoveryResult → σ → Except Z1Error (RecoveryResult × σ)
  | [], result, state => .ok (result, state)
  | txnId :: rest, result, state =>
      match AList.lookup txnId scan.pending with
      | none => replayTxns strictMode scan rest result state
      | some ops =>
          match applyOps apply state ops with
          | (some e, state) =>
              match classifyApplyError e with
              | .fatal => .error (.recoveryFailed .fatal e txnId)
              | .corruption =>
                  if strictMode then .error (.recoveryFailed .corruption e txnId)
                  else replayTxns strictMode scan rest result state
              | _ => replayTxns strictMode scan rest result state
          | (none, state) =>
              replayTxns strictMode scan rest
                { result with
                  lastCommittedTxn := max result.lastCommittedTxn txnId
                  committedCount := result.committedCount + 1
                  commitTsMap := AList.insert txnId
                    ((AList.lookup txnId scan.committedTxns).getD 0) result.commitTsMap
                  committedPuts := result.committedPuts ++ ops.filterMap fun op =>
                    match op.record with
                    | .put _ _ _ => some (txnId, op.record)
                    | _ => none }
                state

/-- Replay all committed operations of a WAL directory. -/
def replayCommittedOps (codec : Codec) (dir : WalDir) (strictMode : Bool) (state : σ) :
    Except Z1Error (RecoveryResult × σ) :=
  match replayAll codec dir with
  | .error e => .error (.recoveryFailed .fatal e 0)
  | .ok entries =>
      let scan := replayScan entries
      let discarded := scan.pending.keys.filter fun txnId =>
        txnId ∉ scan.committedTxns ∧ txnId ∉ scan.rolledBack
      replayTxns apply strictMode scan (scan.committedTxns.keys.insertionSort (· ≤ ·))
        { maxSeenCommittedTxn := scan.maxSeenCommitted
          replayWatermark := scan.maxInsertedAt
          insertedAtMap := scan.insertedAtMap
          discardedCount := discarded.length }
        state

end

theorem replayScan_concat (entries : List WalEntry) (entry : WalEntry) :
    replayScan (entries ++ [entry]) = (replayScan entries).record entry := by
  simp [replayScan, List.foldl_append]

/-- A transaction has a Commit record. -/
def HasCommit (entries : List WalEntry) (t : TxnId) : Prop :=
  ∃ commitTs insertedAt, ⟨t, .commit commitTs insertedAt⟩ ∈ entries

/-- Put records of a transaction since its last Rollback record. -/
def livePuts (t : TxnId) (entries : List WalEntry) : List WalEntry :=
  entries.foldl (fun ops entry =>
    if entry.txnId = t then
      match entry.record with
      | .put _ _ _ => ops ++ [entry]
      | .rollback => []
      | _ => ops
    else ops) []

theorem livePuts_concat (t : TxnId) (entries : List WalEntry) (entry : WalEntry) :
    livePuts t (entries ++ [entry]) =
      if entry.txnId = t then
        match entry.record with
        | .put _ _ _ => livePuts t entries ++ [entry]
        | .rollback => []
        | _ => livePuts t entries
      else livePuts t entries := by
  unfold livePuts
  rw [List.foldl_append]
  rfl

theorem mem_committedTxns {entries : List WalEntry} {t : TxnId} :
    t ∈ (replayScan entries).committedTxns ↔ HasCommit entries t := by
  unfold HasCommit
  induction entries using List.reverseRecOn with
  | nil => simp [replayScan]
  | append_singleton entries entry ih =>
      rw [replayScan_concat]
      obtain ⟨txnId, record⟩ := entry
      cases record with
      | commit commitTs insertedAt =>
          simp only [ReplayScan.record, AList.mem_insert, ih, List.mem_append, List.mem_singleton,
            WalEntry.mk.injEq, WalRecord.commit.injEq]
          grind
      | _ => simpa [ReplayScan.record] using ih

theorem HasCommit.le_maxSeen {entries : List WalEntry} {t : TxnId} (h : HasCommit entries t) :
    t ≤ (replayScan entries).maxSeenCommitted := by
  obtain ⟨commitTs, insertedAt, hIn⟩ := h
  induction entries using List.reverseRecOn with
  | nil => cases hIn
  | append_singleton entries entry ih =>
      rw [replayScan_concat]
      rcases List.mem_append.mp hIn with hIn | hIn
      · have hLe := ih hIn
        obtain ⟨txnId, record⟩ := entry
        cases record with
        | commit => exact hLe.trans (le_max_left _ _)
        | _ => exact hLe
      · obtain rfl := List.mem_singleton.mp hIn
        exact le_max_right _ _

theorem lookup_pending {entries : List WalEntry} (hBegin : ∀ e ∈ entries, e.record ≠ .begin)
    (t : TxnId) :
    AList.lookup t (replayScan entries).pending =
      if livePuts t entries = [] then none else some (livePuts t entries) := by
  induction entries using List.reverseRecOn with
  | nil => simp [replayScan, livePuts]
  | append_singleton entries entry ih =>
      have ih := ih fun e he => hBegin e (by simp [he])
      have hNot := hBegin entry (by simp)
      rw [replayScan_concat, livePuts_concat]
      obtain ⟨txnId, record⟩ := entry
      by_cases hTxn : txnId = t
      · subst hTxn
        cases record with
        | put cf key value =>
            simp only [ReplayScan.record, AList.lookup_insert, if_true, ih]
            by_cases hEmpty : livePuts txnId entries = [] <;> simp [hEmpty]
        | begin => exact absurd rfl hNot
        | rollback => simp [ReplayScan.record]
        | _ => simpa [ReplayScan.record] using ih
      · have hNe : t ≠ txnId := Ne.symm hTxn
        cases record with
        | put cf key value =>
            simp only [ReplayScan.record, AList.lookup_insert_ne hNe, hTxn, if_false]
            exact ih
        | begin => exact absurd rfl hNot
        | rollback =>
            simp only [ReplayScan.record, AList.lookup_erase_ne hNe, hTxn, if_false]
            exact ih
        | _ => simpa [ReplayScan.record, hTxn] using ih

/-- The pending operations of a transaction are its live Put records, with Begin
records in the log or without. -/
theorem pending_getD (entries : List WalEntry) (t : TxnId) :
    (AList.lookup t (replayScan entries).pending).getD [] = livePuts t entries := by
  induction entries using List.reverseRecOn with
  | nil => simp [replayScan, livePuts]
  | append_singleton entries entry ih =>
      rw [replayScan_concat, livePuts_concat]
      obtain ⟨txnId, record⟩ := entry
      by_cases hTxn : txnId = t
      · subst hTxn
        cases record with
        | put cf key value =>
            simp only [ReplayScan.record, AList.lookup_insert, if_true, ih, Option.getD_some]
        | begin => simp only [ReplayScan.record, AList.lookup_insert, if_true, ih, Option.getD_some]
        | rollback => simp [ReplayScan.record]
        | _ => simpa [ReplayScan.record] using ih
      · have hNe : t ≠ txnId := Ne.symm hTxn
        cases record with
        | put cf key value =>
            simp only [ReplayScan.record, AList.lookup_insert_ne hNe, hTxn, if_false]
            exact ih
        | begin =>
            simp only [ReplayScan.record, AList.lookup_insert_ne hNe, hTxn, if_false]
            exact ih
        | rollback =>
            simp only [ReplayScan.record, AList.lookup_erase_ne hNe, hTxn, if_false]
            exact ih
        | _ => simpa [ReplayScan.record, hTxn] using ih

theorem mem_pending_of_live {entries : List WalEntry} {t : TxnId} (h : livePuts t entries ≠ []) :
    t ∈ (replayScan entries).pending := by
  rw [← pending_getD] at h
  cases hLookup : AList.lookup t (replayScan entries).pending with
  | none => simp [hLookup] at h
  | some ops => exact FinMap.mem_iff_lookup.mpr ⟨ops, hLookup⟩

theorem mem_pending {entries : List WalEntry} (hBegin : ∀ e ∈ entries, e.record ≠ .begin)
    {t : TxnId} : t ∈ (replayScan entries).pending ↔ livePuts t entries ≠ [] := by
  rw [FinMap.mem_iff_lookup, lookup_pending hBegin]
  by_cases hEmpty : livePuts t entries = [] <;> simp [hEmpty]

/-- Live Put records are Put records of the transaction in the log. -/
theorem mem_livePuts {t : TxnId} {entries : List WalEntry} {op : WalEntry}
    (h : op ∈ livePuts t entries) :
    op ∈ entries ∧ op.txnId = t ∧ ∃ cf key value, op.record = .put cf key value := by
  induction entries using List.reverseRecOn with
  | nil => simp [livePuts] at h
  | append_singleton entries entry ih =>
      rw [livePuts_concat] at h
      have hOld : op ∈ livePuts t entries → op ∈ entries ++ [entry] ∧ op.txnId = t ∧
          ∃ cf key value, op.record = .put cf key value := by
        intro hOp
        obtain ⟨hMem, hRest⟩ := ih hOp
        exact ⟨by simp [hMem], hRest⟩
      split at h
      · next hTxn =>
        split at h
        · next cf key value hRecord =>
          rcases List.mem_append.mp h with h | h
          · exact hOld h
          · obtain rfl := List.mem_singleton.mp h
            exact ⟨by simp, hTxn, cf, key, value, hRecord⟩
        · simp at h
        · exact hOld h
      · exact hOld h

end Z1Kv
