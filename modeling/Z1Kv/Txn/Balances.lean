import Z1Kv.Txn.Agreement
import Z1Kv.Txn.Shelves

/-! The log of a run. Each transaction's account is balanced with the records that will be
left when the deletions are through; the ones that have committed and need no records have
their versions in L2 or L3. -/
namespace Z1Kv

namespace Traffic
variable {codec : Codec} {maxFileSize : Nat} {base : TxnId} {s s' : Traffic} {act : Act}

/-- A commit past its Commit record. -/
def Ending (s : Traffic) (t : TxnId) : Prop := ∃ k insertedAt, s.calls k = .loggedCommit t insertedAt

/-- A transaction that recovery has without the log. -/
def Safe (s : Traffic) (t : TxnId) : Prop :=
  t ∈ s.db.checkpoints.history ∧ ∀ e, e.txnId = t → FinalWrite s.journal e → s.OnDisk e

/-- Each account is balanced with the records that will be left when the deletions are
through. -/
structure Accounted (codec : Codec) (maxFileSize : Nat) (base : TxnId) (s : Traffic) : Prop where
  ledger : Ledger base s.journal s.db.mvcc s.db.txnCounter
  baseline : ∀ t ∈ s.db.checkpoints.history, t ≤ base ∨ .committed t ∈ s.journal
  captured : ∀ state, s.checkpoint.read? = some state →
    ∀ t ∈ state.committedHistory.map Prod.fst, t ≤ base ∨ .committed t ∈ s.journal
  filed : ∀ state, s.checkpoint = .filed state →
    AList.lookup state.checkpointId s.db.checkpoints.files = some state
  books : ∃ log, s.db.wal.Logs codec maxFileSize log ∧ s.checkpoint.floor ≤ s.db.wal.seq ∧
    Booked s.journal s.db.mvcc s.Ending s.Safe (log.since s.checkpoint.floor).entries

theorem ending_afterCall {i : Nat} {phase : CallPhase} {db : Engine} {t : TxnId} :
    (s.afterCall i phase db).Ending t ↔
      (∃ insertedAt, phase = .loggedCommit t insertedAt) ∨
        ∃ k, k ≠ i ∧ ∃ insertedAt, s.calls k = .loggedCommit t insertedAt :=
  @exists_afterCall s i phase db fun later => ∃ insertedAt, later = .loggedCommit t insertedAt

/-- No other call works on a transaction whose commit is at work. -/
theorem Orderly.commit_alone (h : s.Orderly) {i k : Nat} {t : TxnId} {x : Option Z1Key}
    (hi : (s.calls i).work? = some (t, none)) (hk : (s.calls k).work? = some (t, x)) : k = i := by
  by_contra hNe
  exact h.apart i k (Ne.symm hNe) ⟨t, none, x, hi, hk, Or.inl rfl⟩

theorem checkpoints_of_callStep {phase phase' : CallPhase} {db db' : Engine}
    (h : CallStep codec (phase, db) (phase', db')) : db'.checkpoints = db.checkpoints := by
  cases h with
  | begin _ _ t hBegin =>
      obtain ⟨mvcc, cache, -, -, rfl⟩ := Engine.beginTxn_ok hBegin
      rfl
  | beginFails _ _ e hBegin =>
      obtain ⟨counter, cache, -, rfl⟩ := Engine.beginTxn_error hBegin
      rfl
  | applyCommit _ _ t env hApply =>
      obtain rfl := Engine.applyCommit_ok hApply
      rfl
  | applyCommitFails _ _ t env e hApply =>
      obtain ⟨mvcc, rfl, -⟩ := Engine.applyCommit_error hApply
      rfl
  | _ => rfl

theorem ending_congr {i : Nat} {phase : CallPhase} {db : Engine} {t : TxnId}
    (hOld : ∀ insertedAt, s.calls i ≠ .loggedCommit t insertedAt)
    (hNew : ∀ insertedAt, phase ≠ .loggedCommit t insertedAt) :
    (s.afterCall i phase db).Ending t ↔ s.Ending t := by
  rw [ending_afterCall]
  constructor
  · rintro (⟨insertedAt, hPhase⟩ | ⟨k, -, hk⟩)
    · exact absurd hPhase (hNew insertedAt)
    · exact ⟨k, hk⟩
  · rintro ⟨k, insertedAt, hk⟩
    refine Or.inr ⟨k, ?_, insertedAt, hk⟩
    rintro rfl
    exact hOld insertedAt hk

/-- The end of a commit. -/
theorem Orderly.ending_end (h : s.Orderly) {i : Nat} {phase : CallPhase} {db : Engine}
    {t u : TxnId} {insertedAt : Nat} (hOld : s.calls i = .loggedCommit t insertedAt)
    (hNew : phase.work? = none) :
    (s.afterCall i phase db).Ending u ↔ s.Ending u ∧ u ≠ t := by
  rw [ending_afterCall]
  constructor
  · rintro (⟨_, hPhase⟩ | ⟨k, hNe, later, hk⟩)
    · rw [hPhase] at hNew
      cases hNew
    · refine ⟨⟨k, later, hk⟩, ?_⟩
      rintro rfl
      exact hNe (@commit_alone _ h _ _ u none (by rw [hOld]; rfl) (by rw [hk]; rfl))
  · rintro ⟨⟨k, later, hk⟩, hNe⟩
    refine Or.inr ⟨k, ?_, later, hk⟩
    rintro rfl
    rw [hOld] at hk
    exact hNe (CallPhase.loggedCommit.inj hk).1.symm

/-- What a call does to the books. -/
theorem Accounted.call_books (h : s.Accounted codec maxFileSize base) (hOrderly : s.Orderly) {i : Nat}
    {phase : CallPhase} {db : Engine} (hStep : CallStep codec (s.calls i, s.db) (phase, db))
    (hSpares : s.Spares codec (.call i phase)) :
    ∃ log ending, db.wal.Logs codec maxFileSize log ∧ s.checkpoint.floor ≤ db.wal.seq ∧
      Booked (s.journal ++ [phase.news]) db.mvcc ending s.Safe
        (log.since s.checkpoint.floor).entries ∧
      ∀ t, (s.afterCall i phase db).Ending t ↔ ending t := by
  obtain ⟨log, hLogs, hFloor, hBooked⟩ := h.books
  have hWork := hOrderly.active i
  have hQuiet : phase.news = .other → (∀ t insertedAt, s.calls i ≠ .loggedCommit t insertedAt) →
      (∀ t insertedAt, phase ≠ .loggedCommit t insertedAt) →
      (∀ t, t ∈ db.mvcc.activeTxns ↔ t ∈ s.db.mvcc.activeTxns) → db.wal = s.db.wal →
      ∃ log ending, db.wal.Logs codec maxFileSize log ∧ s.checkpoint.floor ≤ db.wal.seq ∧
        Booked (s.journal ++ [phase.news]) db.mvcc ending s.Safe
          (log.since s.checkpoint.floor).entries ∧
        ∀ t, (s.afterCall i phase db).Ending t ↔ ending t := by
    intro hNews hOld hNew hActive hWal
    refine ⟨log, s.Ending, by rwa [hWal], by rwa [hWal], ?_, fun t => ending_congr (hOld t) (hNew t)⟩
    rw [hNews]
    exact hBooked.other.idle hActive fun _ => Iff.rfl
  cases hPhase : s.calls i with
  | idle =>
      rw [hPhase] at hStep
      cases hStep with
      | begin _ _ t hBegin =>
          obtain ⟨mvcc, cache, hOk, hId, rfl⟩ := Engine.beginTxn_ok hBegin
          refine ⟨log, s.Ending, hLogs, hFloor, hBooked.begin h.ledger hOk hId fun hSafe => ?_,
            fun u => ending_congr (by simp [hPhase]) (by simp)⟩
          rcases h.baseline t hSafe.1 with hLe | hOld
          · exact absurd (hLe.trans h.ledger.aboveBase)
              (Nat.not_le.mpr (VisibilityManager.beginTxn_eq_ok hOk).2.1)
          · exact absurd (h.ledger.began _ (h.ledger.committed _ hOld).2.began).2 (Nat.not_lt.mpr hId)
      | beginFails _ _ e hBegin =>
          obtain ⟨counter, cache, -, rfl⟩ := Engine.beginTxn_error hBegin
          exact hQuiet rfl (by simp [hPhase]) (by simp) (fun _ => Iff.rfl) rfl
      | _ => exact hQuiet rfl (by simp [hPhase]) (by simp) (fun _ => Iff.rfl) rfl
  | checkedWrite e =>
      rw [hPhase] at hStep
      cases hStep with
      | recordWrite =>
          exact hQuiet rfl (by simp [hPhase]) (by simp)
            (fun _ => VisibilityManager.mem_modifyActive) rfl
  | recordedWrite e =>
      rw [hPhase] at hStep hWork
      simp only [Spares, hPhase] at hSpares
      have hActive : e.txnId ∈ s.db.mvcc.activeTxns := hWork e.txnId (some e.key) rfl
      have hEnding : ¬ s.Ending e.txnId := by
        rintro ⟨k, insertedAt, hk⟩
        have hSame : i = k := @Orderly.commit_alone _ hOrderly _ _ e.txnId (some e.key)
          (by rw [hk]; rfl) (by rw [hPhase]; rfl)
        rw [← hSame, hPhase] at hk
        cases hk
      cases hStep with
      | logWrite =>
          obtain ⟨log', hLogs', hFloor', hEntries⟩ :=
            hLogs.append_ok hFloor (hLogs.toInSession.append_of_fits hSpares)
          refine ⟨log', s.Ending, hLogs', hFloor', ?_, fun u => ending_congr (by simp [hPhase])
            (by simp)⟩
          rw [hEntries]
          exact hBooked.write h.ledger hActive hEnding
  | loggedWrite e =>
      rw [hPhase] at hStep
      cases hStep with
      | insertWrite => exact hQuiet rfl (by simp [hPhase]) (by simp) (fun _ => Iff.rfl) rfl
  | insertedWrite e =>
      rw [hPhase] at hStep
      cases hStep with
      | growHot => exact hQuiet rfl (by simp [hPhase]) (by simp) (fun _ => Iff.rfl) rfl
  | checkedCommit t =>
      rw [hPhase] at hStep hWork
      have hActive : t ∈ s.db.mvcc.activeTxns := hWork t none rfl
      cases hStep with
      | logCommit _ _ insertedAt wal hAppend =>
          rw [hLogs.toInSession.appendDurable_eq] at hAppend
          obtain ⟨log', hLogs', hFloor', hEntries⟩ := hLogs.append_ok hFloor hAppend
          refine ⟨log', fun u => s.Ending u ∨ u = t, hLogs', hFloor', ?_, fun u => ?_⟩
          · rw [hEntries]
            exact (hBooked.logCommit h.ledger _ _ hActive).other
          · rw [ending_afterCall]
            constructor
            · rintro (⟨later, hEq⟩ | ⟨k, -, hk⟩)
              · exact Or.inr (CallPhase.loggedCommit.inj hEq).1.symm
              · exact Or.inl ⟨k, hk⟩
            · rintro (⟨k, later, hk⟩ | rfl)
              · refine Or.inr ⟨k, ?_, later, hk⟩
                rintro rfl
                rw [hPhase] at hk
                cases hk
              · exact Or.inl ⟨insertedAt, rfl⟩
      | logCommitFails _ _ insertedAt wal e hAppend =>
          rw [hLogs.toInSession.appendDurable_eq] at hAppend
          obtain rfl := hLogs.toInSession.append_error hAppend
          exact hQuiet rfl (by simp [hPhase]) (by simp) (fun _ => Iff.rfl) rfl
  | loggedCommit t insertedAt =>
      rw [hPhase] at hStep
      have hEnding : s.Ending t := ⟨i, insertedAt, hPhase⟩
      simp only [Spares, hPhase] at hSpares
      cases hStep with
      | applyCommit _ _ _ env hApply =>
          obtain rfl := Engine.applyCommit_ok hApply
          refine ⟨log, fun u => s.Ending u ∧ u ≠ t, hLogs, hFloor, ?_, fun u =>
            hOrderly.ending_end hPhase rfl⟩
          exact hBooked.commit hEnding (VisibilityManager.committed_activeTxns _ _ _ _ _ _)
      | applyCommitFails _ _ _ env e hApply =>
          have hActive := hWork t none (by rw [hPhase]; rfl)
          obtain ⟨mvcc, rfl, ⟨hNot, -⟩ | ⟨txn, conflict, hLookup, hSsi, rfl⟩⟩ :=
            Engine.applyCommit_error hApply
          · exact absurd hActive hNot
          · have hWrites := h.ledger.writesOf_refused hLookup hSsi (hSpares env t env txn rfl hLookup)
            refine ⟨log, fun u => s.Ending u ∧ u ≠ t, hLogs, hFloor, ?_, fun u =>
              hOrderly.ending_end hPhase rfl⟩
            exact (hBooked.abort h.ledger hActive hWrites
              (VisibilityManager.abortTxn_activeTxns _ _)).other
  | _ =>
      rw [hPhase] at hStep
      cases hStep

theorem call_of_loggedWrite {phase : CallPhase} {db db' : Engine} {e : Z1Entry}
    (h : CallStep codec (phase, db) (.loggedWrite e, db')) :
    phase = .recordedWrite e ∧ db'.mvcc = db.mvcc := by
  cases h
  exact ⟨rfl, rfl⟩

/-- A transaction that is safe stays so while calls go on. -/
theorem Safe.call {i : Nat} {phase : CallPhase} {db : Engine} {t : TxnId} (h : s.Safe t)
    (hStep : CallStep codec (s.calls i, s.db) (phase, db))
    (hNot : ∀ e, phase.news = .wrote e → e.txnId ≠ t) :
    (s.afterCall i phase db).Safe t := by
  obtain ⟨size, hStore⟩ := hStep.store_eq
  obtain ⟨hHistory, hDisk⟩ := h
  refine ⟨by rwa [afterCall_db, checkpoints_of_callStep hStep], fun e hTxn hLast => ?_⟩
  have hOld : FinalWrite s.journal e := by
    by_cases hNews : ∃ w, phase.news = .wrote w
    · obtain ⟨w, hw⟩ := hNews
      rw [afterCall_journal, hw] at hLast
      rcases finalWrite_concat_wrote.mp hLast with rfl | ⟨hOld, -⟩
      · exact absurd hTxn (hNot e hw)
      · exact hOld
    · exact (finalWrite_concat fun w hw => hNews ⟨w, hw⟩).mp hLast
  dsimp only [OnDisk]
  rw [afterCall_db, hStore]
  exact hDisk e hTxn hOld

theorem Accounted.call (h : s.Accounted codec maxFileSize base) (hOrderly : s.Orderly) {i : Nat}
    {phase : CallPhase} {db : Engine} (hStep : CallStep codec (s.calls i, s.db) (phase, db))
    (hSpares : s.Spares codec (.call i phase)) :
    Accounted codec maxFileSize base (s.afterCall i phase db) := by
  have hLedger := hStep.ledger h.ledger (hOrderly.active i) (hOrderly.recorded i)
  have hCheckpoints := checkpoints_of_callStep hStep
  have hIn : ∀ t, t ≤ base ∨ .committed t ∈ s.journal →
      t ≤ base ∨ .committed t ∈ s.journal ++ [phase.news] :=
    fun t => Or.imp_right (List.mem_append_left _)
  have hBaseline : ∀ t ∈ db.checkpoints.history,
      t ≤ base ∨ .committed t ∈ s.journal ++ [phase.news] := by
    rw [hCheckpoints]
    exact fun t ht => hIn t (h.baseline t ht)
  obtain ⟨log, ending, hLogs, hFloor, hBooked, hEnding⟩ := h.call_books hOrderly hStep hSpares
  refine ⟨hLedger, hBaseline, fun state hRead t ht => hIn t (h.captured state hRead t ht), ?_,
    log, hLogs, hFloor, hBooked.settle hEnding ?_ ?_⟩
  · rw [afterCall_db, hCheckpoints]
    exact h.filed
  · exact fun t hActive hSafe => hLedger.not_active_of_baseline (hBaseline t hSafe.1) hActive
  · intro t hCommitted hSafe
    refine hSafe.call hStep fun e hNews => ?_
    rintro rfl
    have hPhase : phase = .loggedWrite e := by
      cases phase with
      | loggedWrite w => rw [News.wrote.inj hNews]
      | _ => cases hNews
    subst hPhase
    obtain ⟨hOld, hMvcc⟩ := call_of_loggedWrite hStep
    refine (hLedger.committed _ hCommitted).1 ?_
    rw [hMvcc]
    exact hOrderly.active i e.txnId (some e.key) (by rw [hOld]; rfl)

section Checkpoint
variable {phase : CheckpointPhase} {db : Engine}

/-- A step of the checkpoint that leaves log and history alone. -/
theorem Accounted.idle (h : s.Accounted codec maxFileSize base) (hMvcc : db.mvcc = s.db.mvcc)
    (hCounter : db.txnCounter = s.db.txnCounter) (hWal : db.wal = s.db.wal)
    (hCheckpoints : db.checkpoints = s.db.checkpoints) (hFloor : phase.floor = s.checkpoint.floor)
    (hRead : ∀ state, phase.read? = some state → ∀ t ∈ state.committedHistory.map Prod.fst,
      t ≤ base ∨ .committed t ∈ s.journal)
    (hFiled : ∀ state, phase ≠ .filed state)
    (hDisk : ∀ e, s.OnDisk e → OnDisk { s with db, checkpoint := phase } e) :
    Accounted codec maxFileSize base { s with db, checkpoint := phase } := by
  obtain ⟨log, hLogs, hAbove, hBooked⟩ := h.books
  have hBaseline : ∀ t ∈ db.checkpoints.history, t ≤ base ∨ .committed t ∈ s.journal := by
    rw [hCheckpoints]
    exact h.baseline
  refine ⟨?_, hBaseline, hRead, fun state hPhase => absurd hPhase (hFiled state), log, ?_, ?_, ?_⟩
  · dsimp only
    rw [hMvcc, hCounter]
    exact h.ledger
  · dsimp only
    rwa [hWal]
  · dsimp only
    rwa [hWal, hFloor]
  · dsimp only
    rw [hMvcc, hFloor]
    refine hBooked.settle (fun _ => Iff.rfl) ?_ ?_
    · exact fun t hActive hSafe => h.ledger.not_active_of_baseline (hBaseline t hSafe.1) hActive
    · rintro t - ⟨hIn, hAll⟩
      refine ⟨?_, fun e hTxn hLast => hDisk e (hAll e hTxn hLast)⟩
      dsimp only
      rwa [hCheckpoints]

/-- The latest checkpoint may become another one. -/
theorem Accounted.rebase (h : s.Accounted codec maxFileSize base) {state : CheckpointState}
    {checkpoints : CheckpointDir} (hRead : s.checkpoint.read? = some state) (hFloor : phase.floor = 0)
    (hHistory : checkpoints.history = s.db.checkpoints.history ∨
      s.Remembers codec state ∧ checkpoints.history = state.committedHistory.map Prod.fst)
    (hNext : ∀ next, phase.read? = some next → next = state)
    (hFiled : ∀ next, phase = .filed next →
      AList.lookup next.checkpointId checkpoints.files = some next) :
    Accounted codec maxFileSize base
      { s with db := { s.db with checkpoints }, checkpoint := phase } := by
  obtain ⟨log, hLogs, hAbove, hBooked⟩ := h.books
  have hOldFloor : s.checkpoint.floor = 0 := by
    cases hPhase : s.checkpoint with
    | captured => rfl
    | filed => rfl
    | _ =>
        rw [hPhase] at hRead
        cases hRead
  have hBaseline : ∀ t ∈ checkpoints.history, t ≤ base ∨ .committed t ∈ s.journal := by
    rcases hHistory with hSame | ⟨-, hNew⟩
    · rw [hSame]
      exact h.baseline
    · rw [hNew]
      exact h.captured state hRead
  refine ⟨h.ledger, hBaseline, fun next hPhase => ?_, hFiled, log, hLogs, by simp [hFloor], ?_⟩
  · rw [hNext next hPhase]
    exact h.captured state hRead
  · dsimp only
    rw [hOldFloor, SegmentLog.since_zero] at hBooked
    rw [hFloor, SegmentLog.since_zero]
    refine hBooked.rebase ?_ ?_
    · exact fun t hActive hSafe => h.ledger.not_active_of_baseline (hBaseline t hSafe.1) hActive
    · rintro t - hWrites ⟨hIn, hAll⟩
      rcases hHistory with hSame | ⟨hRemembers, hNew⟩
      · exact Or.inl ⟨by rwa [hSame], hAll⟩
      · rcases hRemembers t hIn hWrites with hKept | ⟨entries, hReplay, hWhole⟩
        · exact Or.inl ⟨by rwa [hNew], hAll⟩
        · rw [hLogs.replay] at hReplay
          obtain rfl := Except.ok.inj hReplay
          exact Or.inr hWhole

/-- The marker, and deletions: the log from the position on is what it was. -/
theorem Accounted.relog (h : s.Accounted codec maxFileSize base) {wal : WalWriter} {log : SegmentLog}
    (hLogs : wal.Logs codec maxFileSize log) (hFloor : phase.floor ≤ wal.seq)
    (hBooked : Booked s.journal s.db.mvcc s.Ending s.Safe (log.since phase.floor).entries)
    (hNext : phase.read? = none) :
    Accounted codec maxFileSize base { s with db := { s.db with wal }, checkpoint := phase } := by
  refine ⟨h.ledger, h.baseline, fun state hRead => ?_, fun state hPhase => ?_, log, hLogs, hFloor,
    hBooked⟩
  · dsimp only at hRead
    rw [hNext] at hRead
    cases hRead
  · dsimp only at hPhase
    rw [hPhase] at hNext
    cases hNext

/-- The position is read. From here on the books do without the segments below it. -/
theorem Accounted.position (h : s.Accounted codec maxFileSize base) (hOrderly : s.Orderly)
    (hShelved : s.Shelved) (hPhase : s.checkpoint = .marked)
    (hSpares : ∀ op, s.db.wal.dir.Below codec s.db.wal.position op → op.record ≠ .rollback →
      (∀ id, op.record ≠ .checkpoint id) → writesOf s.journal op.txnId ≠ [] → s.Secured op.txnId) :
    Accounted codec maxFileSize base { s with checkpoint := .deleting s.db.wal.position } := by
  obtain ⟨log, hLogs, hFloor, hBooked⟩ := h.books
  rw [hPhase] at hBooked
  dsimp only [CheckpointPhase.floor] at hBooked
  rw [SegmentLog.since_zero] at hBooked
  refine h.relog hLogs le_rfl ?_ rfl
  have hSplit : log.entries =
      (log.before s.db.wal.position).entries ++ (log.since s.db.wal.position).entries := by
    rw [← SegmentLog.entries_append, SegmentLog.before_append_since hLogs.wellFormed]
  refine hBooked.truncate hSplit fun op hOp hRecord hMarker hWrites => ?_
  obtain ⟨hEnded, hKnown⟩ := hSpares op (hLogs.recordBelow hOp) hRecord hMarker hWrites
  refine ⟨hEnded, fun hCommitted => ?_⟩
  obtain ⟨hHistory, hHot⟩ := hKnown hCommitted
  refine ⟨hHistory, fun e hTxn hLast => ?_⟩
  rcases hShelved.placed e hLast with ⟨k, hk⟩ | hIn | hDisk | hHand
  · exact absurd (hOrderly.active k op.txnId (some e.key) (by rw [hk, ← hTxn]; rfl)) hEnded
  · exact absurd hTxn (hHot e hIn)
  · exact hDisk
  · rw [hPhase] at hHand
    exact absurd hHand id

/-- A segment below the position is deleted. -/
theorem Accounted.delete (h : s.Accounted codec maxFileSize base) {pos seq : Nat}
    (hPhase : s.checkpoint = .deleting pos) (hBelow : seq < pos) :
    Accounted codec maxFileSize base
      { s with
        db := { s.db with wal := s.db.wal.removeSegment seq }, checkpoint := .deleting pos } := by
  obtain ⟨log, hLogs, hFloor, hBooked⟩ := h.books
  rw [hPhase, CheckpointPhase.floor] at hFloor hBooked
  have hKept : SegmentLog.since (log.filter fun s => decide (s.seq ≠ seq)) pos = log.since pos := by
    unfold SegmentLog.since
    rw [List.filter_filter]
    congr 1
    funext segment
    simp only [← Bool.decide_and, decide_eq_decide]
    omega
  refine h.relog (hLogs.truncate (fun n => decide (n ≠ seq)) ?_) hFloor ?_ rfl
  · simpa using (Nat.ne_of_lt (hBelow.trans_le hFloor)).symm
  · rw [CheckpointPhase.floor, hKept]
    exact hBooked

/-- All segments below the position are gone. -/
theorem Accounted.finish (h : s.Accounted codec maxFileSize base) {pos : Nat}
    (hPhase : s.checkpoint = .deleting pos) (hAll : ∀ file ∈ s.db.wal.dir, pos ≤ file.1) :
    Accounted codec maxFileSize base { s with checkpoint := .ended (.ok ()) } := by
  obtain ⟨log, hLogs, -, hBooked⟩ := h.books
  rw [hPhase, CheckpointPhase.floor] at hBooked
  refine h.relog hLogs (Nat.zero_le _) ?_ rfl
  have hSame : log.since pos = log := by
    refine List.filter_eq_self.mpr fun segment hs => ?_
    have hFile : (segment.seq, segment.bytes codec) ∈ s.db.wal.dir := by
      rw [hLogs.dir]
      exact List.mem_map_of_mem hs
    simpa using hAll _ hFile
  dsimp only [CheckpointPhase.floor]
  rwa [SegmentLog.since_zero, ← hSame]

theorem Accounted.checkpoint (h : s.Accounted codec maxFileSize base) (hOrderly : s.Orderly)
    (hShelved : s.Shelved) (hStep : CheckpointStep codec (s.checkpoint, s.db) (phase, db))
    (hSpares : s.Spares codec (.checkpoint phase)) :
    Accounted codec maxFileSize base { s with db, checkpoint := phase } := by
  obtain ⟨before, calls, current, j⟩ := s
  have hIdle : ∀ (phase : CheckpointPhase) (store : Store), phase.floor = current.floor →
      phase.read? = none → (∀ e ∈ before.store.l2.versions, e ∈ store.l2.versions) →
      store.l3 = before.store.l3 →
      Accounted codec maxFileSize base ⟨{ before with store }, calls, phase, j⟩ := by
    intro phase store hFloor hNone hL2 hL3
    refine h.idle rfl rfl rfl rfl hFloor (by simp [hNone]) ?_ fun e hDisk => ?_
    · rintro state rfl
      cases hNone
    · exact hDisk.imp (hL2 e) fun hIn => by
        dsimp only
        rwa [hL3]
  have hSame : ∀ phase : CheckpointPhase, phase.floor = current.floor → phase.read? = none →
      Accounted codec maxFileSize base ⟨before, calls, phase, j⟩ :=
    fun phase hFloor hNone => hIdle phase before.store hFloor hNone (fun _ he => he) rfl
  cases hStep with
  | stage => exact hIdle _ _ rfl rfl (fun _ he => he) rfl
  | patch _ cf entries rest outcome l2 hPatch =>
      exact hIdle _ _ rfl rfl (fun _ => DiskLayer.subset_appendPatch hPatch) rfl
  | patchFails _ cf entries rest outcome l2 e hPatch =>
      exact hIdle _ _ rfl rfl (fun _ => DiskLayer.subset_appendPatch hPatch) rfl
  | clear => exact hIdle _ _ rfl rfl (fun _ he => he) rfl
  | sync _ wal hSync =>
      obtain ⟨log, hLogs, -⟩ := h.books
      dsimp only at hLogs
      rw [WalWriter.flushAndSync, WalWriter.flushQueue, if_pos hLogs.queue] at hSync
      obtain ⟨-, rfl⟩ := Prod.mk.inj hSync
      exact hSame _ rfl rfl
  | syncFails => exact hSame _ rfl rfl
  | capture =>
      refine h.idle rfl rfl rfl rfl rfl ?_ (by simp) fun e hDisk => hDisk
      intro state hRead t ht
      obtain rfl := Option.some.inj hRead
      exact h.ledger.history t (VisibilityManager.mem_committedHistoryEntries.mp ht)
  | file _ state =>
      refine h.rebase rfl rfl ?_ (fun next hNext => (Option.some.inj hNext).symm) ?_
      · rcases before.checkpoints.history_insert state with ⟨-, hOld⟩ | ⟨hLatest, hNew⟩
        · exact Or.inl hOld
        · exact Or.inr ⟨hSpares hLatest, hNew⟩
      · intro next hNext
        obtain rfl := CheckpointPhase.filed.inj hNext
        exact AList.lookup_insert _
  | fileFails => exact hSame _ rfl rfl
  | point _ state =>
      refine h.rebase rfl rfl (Or.inr ⟨hSpares, ?_⟩) (by simp [CheckpointPhase.read?]) (by simp)
      exact CheckpointDir.mem_history_of_latest rfl (h.filed state rfl)
  | pointFails => exact hSame _ rfl rfl
  | mark _ state io wal hMark =>
      obtain ⟨log, hLogs, hFloor, hBooked⟩ := h.books
      obtain ⟨log', hLogs', -, hEntries⟩ := hLogs.append_ok hFloor
        (hLogs.toInSession.append_of_io hMark)
      refine h.relog hLogs' (Nat.zero_le _) ?_ rfl
      dsimp only [CheckpointPhase.floor] at hEntries ⊢
      rw [hEntries]
      exact hBooked.marker _ _
  | markFails => exact absurd hSpares id
  | position => exact h.position hOrderly hShelved rfl hSpares
  | delete _ pos seq hFile hBelow => exact h.delete rfl hBelow
  | deleteFails => exact absurd hSpares id
  | finish _ pos hAll => exact h.finish rfl hAll

end Checkpoint

/-- What a sparing run keeps. -/
structure Sound (codec : Codec) (maxFileSize : Nat) (base : TxnId) (s : Traffic) : Prop where
  orderly : s.Orderly
  shelved : s.Shelved
  accounted : s.Accounted codec maxFileSize base

theorem Sound.step (h : s.Sound codec maxFileSize base) (hStep : Step codec s act s')
    (hSpares : s.Spares codec act) : s'.Sound codec maxFileSize base := by
  refine ⟨h.orderly.step hStep hSpares, h.shelved.step h.orderly hStep hSpares, ?_⟩
  cases hStep with
  | call i phase db hCall => exact h.accounted.call h.orderly hCall hSpares
  | checkpoint phase db hCheckpoint =>
      exact h.accounted.checkpoint h.orderly h.shelved hCheckpoint hSpares
  | restart result hEnded =>
      refine h.accounted.idle rfl rfl rfl rfl ?_ (by simp [CheckpointPhase.read?])
        (by simp) fun e hDisk => hDisk
      rw [hEnded]
      rfl

theorem SparingSteps.sound (hRun : SparingSteps codec s s') (h : s.Sound codec maxFileSize base) :
    s'.Sound codec maxFileSize base := by
  induction hRun with
  | refl => exact h
  | tail _ hLast ih =>
      obtain ⟨act, hStep, hSpares⟩ := hLast
      exact ih.step hStep hSpares

end Traffic
end Z1Kv
