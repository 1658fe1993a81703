import Mathlib.Data.List.Dedup
import Mathlib.Data.List.DropRight
import Z1Kv.Wal.Postcard
import Z1Kv.Wal.Recovery

/-! Recovery against its purpose: what a log commits, read off its records without
the maps of the scan, and that replay applies and reports just that. -/
namespace Z1Kv

/-- The records of a transaction after its last Rollback record, in log order. -/
def sinceRollback (t : TxnId) (entries : List WalEntry) : List WalEntry :=
  (entries.filter fun entry => entry.txnId = t).rtakeWhile fun entry => entry.record ≠ .rollback

def putsSince (t : TxnId) (entries : List WalEntry) : List WalEntry :=
  (sinceRollback t entries).filter fun entry => entry.record.isPut

/-- A Put or Begin record follows the last Rollback record of the transaction. -/
def Revived (t : TxnId) (entries : List WalEntry) : Prop :=
  ∃ entry ∈ sinceRollback t entries, entry.record.isPut ∨ entry.record = .begin

instance (t : TxnId) (entries : List WalEntry) : Decidable (Revived t entries) :=
  inferInstanceAs (Decidable (∃ entry ∈ _, _))

def WalEntry.commitOf (t : TxnId) (entry : WalEntry) : Option (Nat × Nat) :=
  match entry.record with
  | .commit commitTs insertedAt => if entry.txnId = t then some (commitTs, insertedAt) else none
  | _ => none

/-- The commit timestamp in the last Commit record of the transaction. -/
def lastCommitTs (t : TxnId) (entries : List WalEntry) : Option Nat :=
  (entries.reverse.findSome? (WalEntry.commitOf t)).map Prod.fst

/-- The insertion times of all Commit records. -/
def insertionTimes (entries : List WalEntry) : List Nat :=
  entries.filterMap fun entry => (entry.commitOf entry.txnId).map Prod.snd

/-- The transactions with a Commit record in ascending order. -/
def committers (entries : List WalEntry) : List TxnId :=
  ((entries.filter fun entry => (entry.commitOf entry.txnId).isSome).map
    WalEntry.txnId).dedup.insertionSort (· ≤ ·)

/-- What became of one committed transaction: the operations handed to the
application up to the first failing one, and its error. -/
structure Attempt where
  txnId : TxnId
  passed : List WalEntry
  failure : Option Z1Error

/-- The failure ends recovery. -/
def Attempt.Aborts (strictMode : Bool) (a : Attempt) : Prop :=
  ∃ e, a.failure = some e ∧
    (classifyApplyError e = .fatal ∨ classifyApplyError e = .corruption ∧ strictMode = true)

section
variable {σ : Type} (apply : σ → WalEntry → Except Z1Error Unit × σ)

def attempt (t : TxnId) (state : σ) : List WalEntry → Attempt × σ
  | [] => (⟨t, [], none⟩, state)
  | op :: rest =>
      match apply state op with
      | (.ok (), state) =>
          let (tail, state) := attempt t state rest
          (⟨t, op :: tail.passed, tail.failure⟩, state)
      | (.error e, state) => (⟨t, [op], some e⟩, state)

/-- The Put records of the listed transactions handed to the application one
transaction after the other. -/
def attempts (entries : List WalEntry) (state : σ) : List TxnId → List Attempt
  | [] => []
  | t :: rest =>
      let (first, state) := attempt apply t state (putsSince t entries)
      first :: attempts entries state rest

/-- The application with a list of the operations handed to it. -/
def traced (state : σ × List WalEntry) (op : WalEntry) :
    Except Z1Error Unit × σ × List WalEntry :=
  let (outcome, next) := apply state.1 op
  (outcome, next, state.2 ++ [op])

end

section Scan

theorem sinceRollback_concat (t : TxnId) (entries : List WalEntry) (entry : WalEntry) :
    sinceRollback t (entries ++ [entry]) =
      if entry.txnId = t then
        if entry.record = .rollback then [] else sinceRollback t entries ++ [entry]
      else sinceRollback t entries := by
  unfold sinceRollback
  rw [List.filter_append]
  by_cases hTxn : entry.txnId = t
  · by_cases hRollback : entry.record = .rollback
    · simp [hTxn, hRollback]
    · simp [hTxn, hRollback]
  · simp [hTxn]

theorem livePuts_eq_putsSince (t : TxnId) (entries : List WalEntry) :
    livePuts t entries = putsSince t entries := by
  unfold putsSince
  induction entries using List.reverseRecOn with
  | nil => simp [livePuts, sinceRollback]
  | append_singleton entries entry ih =>
      rw [livePuts_concat, sinceRollback_concat]
      obtain ⟨txnId, record⟩ := entry
      by_cases hTxn : txnId = t
      · cases record <;> simp [hTxn, ih, WalRecord.isPut]
      · simp [hTxn, ih]

theorem mem_pending_iff_revived {t : TxnId} {entries : List WalEntry} :
    t ∈ (replayScan entries).pending ↔ Revived t entries := by
  unfold Revived
  induction entries using List.reverseRecOn with
  | nil => simp [replayScan, sinceRollback]
  | append_singleton entries entry ih =>
      rw [replayScan_concat, sinceRollback_concat]
      obtain ⟨txnId, record⟩ := entry
      by_cases hTxn : txnId = t
      · cases record with
        | put cf key value => simp [ReplayScan.record, hTxn, WalRecord.isPut]
        | begin => simp [ReplayScan.record, hTxn]
        | rollback => simp [ReplayScan.record, hTxn]
        | _ => simp [ReplayScan.record, hTxn, ih, or_and_right, exists_or, WalRecord.isPut]
      · have hNe : t ≠ txnId := Ne.symm hTxn
        cases record <;> simpa [ReplayScan.record, hTxn, hNe] using ih

theorem lookup_pending_eq (t : TxnId) (entries : List WalEntry) :
    AList.lookup t (replayScan entries).pending =
      if Revived t entries then some (putsSince t entries) else none := by
  rw [← livePuts_eq_putsSince, ← pending_getD]
  by_cases hRevived : Revived t entries
  · obtain ⟨ops, hOps⟩ := FinMap.mem_iff_lookup.mp (mem_pending_iff_revived.mpr hRevived)
    simp [hRevived, hOps]
  · rw [if_neg hRevived, AList.lookup_eq_none, mem_pending_iff_revived]
    exact hRevived

theorem putsSince_of_not_revived {t : TxnId} {entries : List WalEntry}
    (h : ¬ Revived t entries) : putsSince t entries = [] := by
  refine List.filter_eq_nil_iff.mpr fun entry hEntry hPut => ?_
  exact h ⟨entry, hEntry, .inl hPut⟩

theorem lookup_committedTxns (t : TxnId) (entries : List WalEntry) :
    AList.lookup t (replayScan entries).committedTxns = lastCommitTs t entries := by
  unfold lastCommitTs
  induction entries using List.reverseRecOn with
  | nil => simp [replayScan]
  | append_singleton entries entry ih =>
      rw [replayScan_concat, List.reverse_append, List.reverse_singleton, List.singleton_append,
        List.findSome?_cons]
      obtain ⟨txnId, record⟩ := entry
      cases record with
      | commit commitTs insertedAt =>
          by_cases hTxn : txnId = t
          · simp [ReplayScan.record, WalEntry.commitOf, hTxn]
          · simpa [ReplayScan.record, WalEntry.commitOf, hTxn, AList.lookup_insert_ne (Ne.symm hTxn)]
              using ih
      | _ => simpa [ReplayScan.record, WalEntry.commitOf] using ih

theorem maxInsertedAt_eq (entries : List WalEntry) :
    (replayScan entries).maxInsertedAt = (insertionTimes entries).foldl max 0 := by
  unfold insertionTimes
  induction entries using List.reverseRecOn with
  | nil => rfl
  | append_singleton entries entry ih =>
      rw [replayScan_concat, List.filterMap_append, List.foldl_append, ← ih]
      obtain ⟨txnId, record⟩ := entry
      cases record <;> simp [ReplayScan.record, WalEntry.commitOf]

theorem mem_committers {t : TxnId} {entries : List WalEntry} :
    t ∈ committers entries ↔ HasCommit entries t := by
  unfold committers HasCommit
  rw [List.mem_insertionSort, List.mem_dedup]
  constructor
  · intro h
    obtain ⟨⟨txnId, record⟩, hEntry, rfl⟩ := List.mem_map.mp h
    obtain ⟨hMem, hCommit⟩ := List.mem_filter.mp hEntry
    cases record with
    | commit commitTs insertedAt => exact ⟨commitTs, insertedAt, hMem⟩
    | _ => simp [WalEntry.commitOf] at hCommit
  · rintro ⟨commitTs, insertedAt, hMem⟩
    exact List.mem_map.mpr ⟨_, List.mem_filter.mpr ⟨hMem, by simp [WalEntry.commitOf]⟩, rfl⟩

/-- Phase 2 visits the committers. -/
theorem sort_committedTxns (entries : List WalEntry) :
    (replayScan entries).committedTxns.keys.insertionSort (· ≤ ·) = committers entries := by
  have hPerm : (replayScan entries).committedTxns.keys.Perm
      ((entries.filter fun entry => (entry.commitOf entry.txnId).isSome).map
        WalEntry.txnId).dedup := by
    refine (List.perm_ext_iff_of_nodup (AList.keys_nodup _) (List.nodup_dedup _)).mpr fun t => ?_
    rw [← List.mem_insertionSort (· ≤ ·) (l := List.dedup _), ← committers, mem_committers,
      ← mem_committedTxns, AList.mem_keys]
  exact List.Perm.eq_of_pairwise' (List.pairwise_insertionSort _ _)
    (List.pairwise_insertionSort _ _)
    (((List.perm_insertionSort _ _).trans hPerm).trans (List.perm_insertionSort _ _).symm)

end Scan

section Run
variable {σ : Type} {apply : σ → WalEntry → Except Z1Error Unit × σ}

theorem attempt_txnId (t : TxnId) (state : σ) (ops : List WalEntry) :
    (attempt apply t state ops).1.txnId = t := by
  cases ops with
  | nil => rfl
  | cons op rest =>
      rw [attempt]
      split <;> rfl

/-- One transaction of phase 2 is one attempt. -/
theorem applyOps_traced (t : TxnId) (state : σ) (seen ops : List WalEntry) :
    applyOps (traced apply) (state, seen) ops =
      ((attempt apply t state ops).1.failure, (attempt apply t state ops).2,
        seen ++ (attempt apply t state ops).1.passed) := by
  induction ops generalizing state seen with
  | nil => simp [applyOps, attempt]
  | cons op rest ih =>
      rw [applyOps, attempt, traced]
      rcases hApply : apply state op with ⟨outcome | outcome, next⟩
      · rfl
      · simp [ih]

variable {strictMode : Bool} {entries : List WalEntry}

/-- A transaction that is not revived has no operation, so its attempt does nothing. -/
theorem attempt_of_not_revived {t : TxnId} (state : σ) (h : ¬ Revived t entries) :
    attempt apply t state (putsSince t entries) = (⟨t, [], none⟩, state) := by
  rw [putsSince_of_not_revived h]
  rfl

theorem putRecords_putsSince (t : TxnId) :
    ((putsSince t entries).filterMap fun op =>
      match op.record with
      | .put _ _ _ => some (t, op.record)
      | _ => none) = (putsSince t entries).map fun op => (t, op.record) := by
  unfold putsSince
  induction sinceRollback t entries with
  | nil => rfl
  | cons op rest ih =>
      obtain ⟨txnId, record⟩ := op
      cases record <;> simp_all [WalRecord.isPut]

/-- What phase 2 reports of the attempts it makes. -/
structure Reports (entries : List WalEntry) (log : List Attempt) (before after : RecoveryResult) :
    Prop where
  commitTsMap : ∀ t, AList.lookup t after.commitTsMap =
    if ∃ a ∈ log, a.txnId = t ∧ a.failure = none ∧ Revived t entries then lastCommitTs t entries
    else AList.lookup t before.commitTsMap
  committedPuts : after.committedPuts = before.committedPuts ++
    (log.filter fun a => a.failure = none).flatMap fun a =>
      (putsSince a.txnId entries).map fun op => (a.txnId, op.record)
  replayWatermark : after.replayWatermark = before.replayWatermark

namespace Reports
variable {log : List Attempt} {before after : RecoveryResult} {a : Attempt}

/-- A transaction that fails, or has no operation since its last Rollback record,
leaves no mark on the result. -/
theorem cons_skipped (h : a.failure ≠ none ∨ ¬ Revived a.txnId entries)
    (hLog : Reports entries log before after) : Reports entries (a :: log) before after where
  commitTsMap t := by
    rw [hLog.commitTsMap]
    have hHead : ¬ (a.txnId = t ∧ a.failure = none ∧ Revived t entries) := by
      rintro ⟨rfl, hNone, hRevived⟩
      exact h.elim (fun hSome => hSome hNone) fun hNot => hNot hRevived
    simp only [List.mem_cons, exists_eq_or_imp, hHead, false_or]
  committedPuts := by
    rw [hLog.committedPuts]
    by_cases hNone : a.failure = none
    · have hNot : ¬ Revived a.txnId entries := h.resolve_left fun hSome => hSome hNone
      simp [hNone, putsSince_of_not_revived hNot]
    · simp [hNone]
  replayWatermark := hLog.replayWatermark

/-- A transaction whose operations all applied enters the map and its Puts the list. -/
theorem cons_applied {middle : RecoveryResult} (hLog : Reports entries log middle after)
    (hNone : a.failure = none) (hRevived : Revived a.txnId entries)
    (hMap : middle.commitTsMap = AList.insert a.txnId
      ((AList.lookup a.txnId (replayScan entries).committedTxns).getD 0) before.commitTsMap)
    (hPuts : middle.committedPuts = before.committedPuts ++
      (putsSince a.txnId entries).map fun op => (a.txnId, op.record))
    (hWatermark : middle.replayWatermark = before.replayWatermark)
    (hCommit : HasCommit entries a.txnId) : Reports entries (a :: log) before after where
  commitTsMap t := by
    obtain ⟨commitTs, hTs⟩ := FinMap.mem_iff_lookup.mp (mem_committedTxns.mpr hCommit)
    rw [hLog.commitTsMap, hMap, hTs, Option.getD_some]
    rw [lookup_committedTxns] at hTs
    by_cases hTxn : a.txnId = t
    · subst hTxn
      simp [hNone, hRevived, hTs]
    · simp [hTxn, AList.lookup_insert_ne (Ne.symm hTxn)]
  committedPuts := by
    rw [hLog.committedPuts, hPuts]
    simp [hNone, List.append_assoc]
  replayWatermark := hLog.replayWatermark.trans hWatermark

end Reports

/-- A run of phase 2 fails just when one of its attempts ends recovery, and else hands
over and reports just what the attempts say. -/
def Follows (strictMode : Bool) (entries : List WalEntry) (log : List Attempt)
    (before : RecoveryResult) (seen : List WalEntry)
    (run : Except Z1Error (RecoveryResult × σ × List WalEntry)) : Prop :=
  ((∃ a ∈ log, a.Aborts strictMode) ∧ ∃ e, run = .error e) ∨
    ((∀ a ∈ log, ¬ a.Aborts strictMode) ∧ ∃ after final,
      run = .ok (after, final, seen ++ log.flatMap Attempt.passed) ∧ Reports entries log before after)

namespace Follows
variable {log : List Attempt} {before : RecoveryResult} {seen : List WalEntry} {a : Attempt}
  {run : Except Z1Error (RecoveryResult × σ × List WalEntry)}

theorem cons_skipped (h : a.failure ≠ none ∨ ¬ Revived a.txnId entries)
    (hGoesOn : ¬ a.Aborts strictMode)
    (hRun : Follows strictMode entries log before (seen ++ a.passed) run) :
    Follows strictMode entries (a :: log) before seen run := by
  rcases hRun with ⟨hAbort, hErr⟩ | ⟨hAll, after, final, hOk, hLog⟩
  · exact .inl ⟨by simpa using .inr hAbort, hErr⟩
  · refine .inr ⟨by simpa [hGoesOn] using hAll, after, final, ?_, hLog.cons_skipped h⟩
    rw [hOk, List.flatMap_cons, List.append_assoc]

theorem cons_applied {middle : RecoveryResult} (hNone : a.failure = none)
    (hLog : ∀ after, Reports entries log middle after → Reports entries (a :: log) before after)
    (hRun : Follows strictMode entries log middle (seen ++ a.passed) run) :
    Follows strictMode entries (a :: log) before seen run := by
  have hGoesOn : ¬ a.Aborts strictMode := by
    rintro ⟨e, hSome, -⟩
    simp [hNone] at hSome
  rcases hRun with ⟨hAbort, hErr⟩ | ⟨hAll, after, final, hOk, hReports⟩
  · exact .inl ⟨by simpa using .inr hAbort, hErr⟩
  · refine .inr ⟨by simpa [hGoesOn] using hAll, after, final, ?_, hLog after hReports⟩
    rw [hOk, List.flatMap_cons, List.append_assoc]

end Follows

/-- Phase 2 from any point on, by induction on the transactions still to visit. -/
theorem replayTxns_follows (txns : List TxnId) (hTxns : ∀ t ∈ txns, HasCommit entries t)
    (before : RecoveryResult) (state : σ) (seen : List WalEntry) :
    Follows strictMode entries (attempts apply entries state txns) before seen
      (replayTxns (traced apply) strictMode (replayScan entries) txns before (state, seen)) := by
  induction txns generalizing before state seen with
  | nil =>
      refine .inr ⟨by simp [attempts], before, state, by simp [attempts, replayTxns], ?_⟩
      exact ⟨by simp [attempts], by simp [attempts], rfl⟩
  | cons t rest ih =>
      have ih := ih fun t ht => hTxns t (by simp [ht])
      have hCommit := hTxns t (by simp)
      rw [attempts, replayTxns, lookup_pending_eq]
      by_cases hRevived : Revived t entries
      · have hId := @attempt_txnId _ apply t state (putsSince t entries)
        rw [if_pos hRevived]
        simp only [@applyOps_traced _ apply t]
        generalize attempt apply t state (putsSince t entries) = first at hId ⊢
        obtain ⟨a, next⟩ := first
        simp only at hId ⊢
        subst hId
        cases hFailure : a.failure with
        | some e =>
            have hSkip : a.failure ≠ none ∨ ¬ Revived a.txnId entries := .inl (by simp [hFailure])
            have hAborts : a.Aborts strictMode ↔ (classifyApplyError e = .fatal ∨
                classifyApplyError e = .corruption ∧ strictMode = true) := by
              simp only [Attempt.Aborts, hFailure, Option.some.injEq, exists_eq_left']
            simp only
            split
            · next hFatal =>
              exact .inl ⟨⟨a, by simp, hAborts.mpr (.inl hFatal)⟩, _, rfl⟩
            · next hCorruption =>
              split
              · next hStrict =>
                exact .inl ⟨⟨a, by simp, hAborts.mpr (.inr ⟨hCorruption, hStrict⟩)⟩, _, rfl⟩
              · next hStrict =>
                refine Follows.cons_skipped hSkip ?_ (ih before next (seen ++ a.passed))
                rw [hAborts]
                simp [hCorruption, hStrict]
            · next hNotFatal hNotCorruption =>
              refine Follows.cons_skipped hSkip ?_ (ih before next (seen ++ a.passed))
              rw [hAborts]
              rintro (hFatal | ⟨hCorruption, -⟩)
              · exact hNotFatal hFatal
              · exact hNotCorruption hCorruption
        | none =>
            refine Follows.cons_applied hFailure (fun after hLog => ?_)
              (ih _ next (seen ++ a.passed))
            refine hLog.cons_applied hFailure hRevived rfl ?_ rfl hCommit
            exact congrArg (before.committedPuts ++ ·) (putRecords_putsSince a.txnId)
      · rw [if_neg hRevived, attempt_of_not_revived state hRevived]
        refine Follows.cons_skipped (.inr hRevived) ?_ ?_
        · simp [Attempt.Aborts]
        · simpa using ih before state seen

/-- Replay hands over, for each transaction with a Commit record in ascending order,
its Put records since its last Rollback record up to the first failing one; it reports
the transactions with something to replay whose operations all applied, each with the
timestamp of its last Commit record, and their Puts in order; it fails just when an
operation it reaches fails fatally, or as corrupt in strict mode. -/
theorem replayCommittedOps_exact (codec : Codec) (dir : WalDir) (strictMode : Bool)
    (apply : σ → WalEntry → Except Z1Error Unit × σ) (state : σ) (entries : List WalEntry)
    (hReadable : replayAll codec dir = .ok entries) :
    let log := attempts apply entries state (committers entries)
    let run := replayCommittedOps (traced apply) codec dir strictMode (state, [])
    ((∃ e, run = .error e) ↔ ∃ a ∈ log, a.Aborts strictMode) ∧
      ∀ result final passed, run = .ok (result, final, passed) →
        passed = log.flatMap Attempt.passed ∧
        (∀ t, AList.lookup t result.commitTsMap =
          if ∃ a ∈ log, a.txnId = t ∧ a.failure = none ∧ Revived t entries then
            lastCommitTs t entries
          else none) ∧
        result.committedPuts = ((log.filter fun a => a.failure = none).flatMap fun a =>
          (putsSince a.txnId entries).map fun op => (a.txnId, op.record)) ∧
        result.replayWatermark = (insertionTimes entries).foldl max 0 := by
  intro log run
  have hRun : ∃ before : RecoveryResult, before.commitTsMap = ∅ ∧ before.committedPuts = [] ∧
      before.replayWatermark = (replayScan entries).maxInsertedAt ∧
      Follows strictMode entries log before [] run := by
    simp only [run, replayCommittedOps, hReadable, sort_committedTxns]
    refine ⟨?before, ?map, ?puts, ?watermark, ?follows⟩
    case follows => exact replayTxns_follows _ (fun t ht => mem_committers.mp ht) _ _ _
    all_goals rfl
  clear_value run
  obtain ⟨before, hMap, hPuts, hWatermark, hRun⟩ := hRun
  rcases hRun with ⟨hAbort, e, rfl⟩ | ⟨hAll, after, final, rfl, hLog⟩
  · refine ⟨⟨fun _ => hAbort, fun _ => ⟨e, rfl⟩⟩, fun result final passed hOk => ?_⟩
    cases hOk
  · refine ⟨⟨?_, ?_⟩, fun result final passed hOk => ?_⟩
    · rintro ⟨e, hErr⟩
      cases hErr
    · rintro ⟨a, hMem, hAborts⟩
      exact absurd hAborts (hAll a hMem)
    · cases hOk
      refine ⟨rfl, fun t => ?_, ?_, ?_⟩
      · rw [hLog.commitTsMap, hMap]
        rfl
      · rw [hLog.committedPuts, hPuts, List.nil_append]
      · rw [hLog.replayWatermark, hWatermark, maxInsertedAt_eq]

/-- Transaction 1 writes again after a Rollback record, 2 writes what fails to apply. -/
def revivedLog : List WalEntry :=
  [⟨1, .put 0 [1] none⟩, ⟨1, .rollback⟩, ⟨2, .put 0 [2] none⟩, ⟨1, .put 0 [3] none⟩,
    ⟨2, .commit 5 7⟩, ⟨1, .commit 6 8⟩]

def failingAt (txnId : TxnId) (applied : Nat) (op : WalEntry) : Except Z1Error Unit × Nat :=
  if op.txnId = txnId then (.error (.txnNotFound txnId), applied) else (.ok (), applied + 1)

theorem revived_log_replayed :
    ∃ result final, replayCommittedOps (traced (failingAt 2)) Postcard.codec
        [(0, Postcard.codec.frames revivedLog)] true (0, []) =
          .ok (result, final, [⟨1, .put 0 [3] none⟩, ⟨2, .put 0 [2] none⟩]) ∧
      AList.lookup 1 result.commitTsMap = some 6 ∧ AList.lookup 2 result.commitTsMap = none ∧
      result.committedPuts = [(1, .put 0 [3] none)] ∧ result.replayWatermark = 8 := by
  obtain ⟨hErr, hOk⟩ := replayCommittedOps_exact Postcard.codec
    [(0, Postcard.codec.frames revivedLog)] true (failingAt 2) 0 revivedLog (by decide +kernel)
  have hLog : attempts (failingAt 2) revivedLog 0 (committers revivedLog) =
      [⟨1, [⟨1, .put 0 [3] none⟩], none⟩, ⟨2, [⟨2, .put 0 [2] none⟩], some (.txnNotFound 2)⟩] := by
    rfl
  simp only [hLog] at hErr hOk
  cases hRun : replayCommittedOps (traced (failingAt 2)) Postcard.codec
      [(0, Postcard.codec.frames revivedLog)] true (0, []) with
  | error e =>
      obtain ⟨a, hMem, e, hFailure, hKind⟩ := hErr.mp ⟨e, hRun⟩
      simp only [List.mem_cons, List.not_mem_nil, or_false] at hMem
      rcases hMem with rfl | rfl
      · cases hFailure
      · cases hFailure
        simp [classifyApplyError] at hKind
  | ok run =>
      obtain ⟨result, final, passed⟩ := run
      obtain ⟨rfl, hMap, hPuts, hWatermark⟩ := hOk result final passed hRun
      refine ⟨result, final, rfl, ?_, ?_, hPuts, hWatermark⟩
      · rw [hMap]
        decide
      · rw [hMap]
        decide

end Run

end Z1Kv
