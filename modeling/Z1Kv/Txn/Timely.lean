import Z1Kv.Txn.CheckpointSteps
import Z1Kv.Txn.TornLog
import Z1Kv.Txn.Ttl

/-! Commits within the TTL, across a crash. A Commit record has the insertion time of its
history entry, so the entry comes back with its age; the replay watermark is another matter. -/
namespace Z1Kv

/-- What a crash left has a version of a committed transaction, and no other copy of it. -/
structure DataDir.Retains (dir : DataDir) (entries : List WalEntry) (e : Z1Entry) : Prop where
  known : dir.Committed entries e.txnId
  stored : e ∈ dir.versions entries
  patches : ∀ copy, copy ∈ dir.l2.flatMap Patch.versions ∨ copy ∈ dir.l3.flatMap Patch.versions →
    copy.id = e.id → copy = e
  log : HasCommit entries e.txnId → ∀ copy,
    LastOf (·.id = e.id) ((livePuts e.txnId entries).filterMap WalEntry.version?) copy →
      copy.id = e.id → copy = e

theorem Engine.Opened.retains {dir : DataDir} {entries : List WalEntry} {db : Engine} {e : Z1Entry}
    (h : db.Opened dir entries) (hRetains : dir.Retains entries e) : db.store.Retains e := by
  have hOnly : ∀ copy ∈ db.store.held, copy.id = e.id → copy = e := by
    intro copy hCopy hId
    rcases Store.mem_held_iff.mp hCopy with hHot | hBeyond
    · obtain ⟨hCommit, hLast⟩ := h.mem_hot_iff.mp hHot
      have hTxn : copy.txnId = e.txnId := (Prod.mk.inj hId).2
      rw [hTxn] at hCommit hLast
      simp only [hId] at hLast
      exact hRetains.log hCommit copy hLast hId
    · exact hRetains.patches copy (((h.beyond copy).mp hBeyond).imp (h.l2 copy).mp (h.l3 copy).mp) hId
  obtain ⟨v, hHeld, hId⟩ := h.held_copy hRetains.stored
  obtain rfl := hOnly v hHeld hId
  refine ⟨?_, hOnly⟩
  rcases Store.mem_held_iff.mp hHeld with hHot | hBeyond
  · exact Store.mem_settled.mpr (Or.inl hHot)
  · rcases (h.beyond v).mp hBeyond with hL2 | hL3
    · exact Store.mem_settled.mpr (by simp [hL2])
    · exact Store.mem_settled.mpr (by simp [hL3])

theorem VisibilityManager.recoverCommittedHistory_config (m : VisibilityManager)
    (history : List (TxnId × Nat)) (walInsertedAt : FinMap TxnId Nat) (now : Nat) :
    (m.recoverCommittedHistory history walInsertedAt now).config = m.config :=
  List.foldlRecOn (motive := fun m' : VisibilityManager => m'.config = m.config) history _ rfl
    fun _ hSame _ _ => hSame

/-- The Commit records in the log have the insertion times of the commits that returned Ok. -/
def Dated (codec : Codec) (past : List (Op × Reply)) (db : Engine) : Prop :=
  ∀ entries, replayAll codec db.wal.dir = .ok entries → ∀ t commitTs insertedAt,
    ⟨t, .commit commitTs insertedAt⟩ ∈ entries →
      ∀ env, (.commit t env, .done) ∈ past → env.insertedAt = insertedAt

theorem Dated.step {codec : Codec} {maxFileSize : Nat} {base : TxnId} {past : List (Op × Reply)}
    {db : Engine} {op : Op} (h : Dated codec past db)
    (hClocked : Clocked codec maxFileSize base (journal past) db) :
    Dated codec (past ++ [(op, (db.step codec op).1)]) (db.step codec op).2 := by
  obtain ⟨log, hLogs, -, hStamped⟩ := hClocked.log
  obtain ⟨log', hLogs', hRecords⟩ := Engine.step_records hLogs op
  intro entries hReplay t commitTs insertedAt hIn env hCommit
  obtain rfl := Except.ok.inj (hLogs'.replay.symm.trans hReplay)
  rcases List.mem_append.mp hCommit with hOld | hNew
  · rcases hRecords _ hIn with hWas | hAppended | ⟨id, hMarker⟩
    · exact h _ hLogs.replay t commitTs insertedAt hWas env hOld
    · -- a transaction that has committed appends nothing any more
      have hCommitted : .committed t ∈ journal past := List.mem_map.mpr ⟨_, hOld, rfl⟩
      exact absurd (Engine.mem_appended.mp hAppended).2.1 (hClocked.ledger.committed t hCommitted).1
    · cases hMarker
  · obtain ⟨rfl, hDone⟩ := Prod.mk.inj (List.mem_singleton.mp hNew)
    have hNews : news (.commit t env, (db.step codec (.commit t env)).1) = .committed t := by
      rw [← hDone]
      rfl
    obtain ⟨-, -, hActive, -⟩ := (db.step_mvcc codec (.commit t env)).commit_inv hNews
    rcases hRecords _ hIn with hWas | hAppended | ⟨id, hMarker⟩
    · exact absurd hActive (hStamped t commitTs insertedAt hWas).ended
    · obtain ⟨-, hRecord⟩ := WalEntry.mk.inj (Option.some.inj (Engine.mem_appended.mp hAppended).1)
      exact (WalRecord.commit.inj hRecord).2
    · cases hMarker

theorem Dated.run {codec : Codec} {maxFileSize : Nat} {base : TxnId} {db : Engine}
    (hClocked : Clocked codec maxFileSize base (journal []) db) (ops : List Op) :
    Clocked codec maxFileSize base (journal (db.run codec ops).1) (db.run codec ops).2 ∧
      Dated codec (db.run codec ops).1 (db.run codec ops).2 := by
  have hRun := runs_invariant (fun past db' =>
    Clocked codec maxFileSize base (journal past) db' ∧ Dated codec past db') (fun _ _ _ => True)
    (fun past db' op hIn _ => ⟨by rw [journal_concat]; exact hIn.1.step, hIn.2.step hIn.1⟩)
    ⟨hClocked, fun _ _ _ _ _ _ _ hCommit => by cases hCommit⟩
    (EachMeets.of_forall fun (op : Op) (_ : op ∈ ops) => trivial)
  simpa using hRun

/-- The time-based step is never premature exactly when what the watermark covers has expired.
A version that was committed and that the crash left then stays readable through any calls
after the reopen, as long as its commit is within the TTL. -/
theorem ttl_eviction_timely (codec : Codec) (maxFileSize : Nat) (env : OpenEnv) (config : Z1Config) :
    (∀ (m : VisibilityManager) (nowMs : Nat), m.config.historyTtlSecs * 1000 < 2 ^ 64 →
      (m.KeepsUnexpired nowMs ↔ m.WatermarkExpired nowMs)) ∧
    ∀ dir db, Engine.openWithConfig codec maxFileSize env config dir = .ok db → dir.wal = [] →
      ∀ ops kept, ∃ entries,
        replayAll codec (((db.run codec ops).2.close codec).cut kept).wal = .ok entries ∧
      ∀ t commitEnv, (.commit t commitEnv, .done) ∈ (db.run codec ops).1 →
      ∀ e, e.txnId = t → (((db.run codec ops).2.close codec).cut kept).Retains entries e →
      ∀ env' config', config'.visibility.historyTtlSecs * 1000 < 2 ^ 64 →
        (HasCommit entries t ∨ commitEnv.insertedAt ≤ env'.now) →
      ∃ db', Engine.openWithConfig codec maxFileSize env' config'
          (((db.run codec ops).2.close codec).cut kept) = .ok db' ∧
        ∀ later, EachMeets (Engine.step codec)
            (fun _ db op => db.Keeps codec op e commitEnv.insertedAt) [] db' later →
          let after := (db'.run codec later).2
          t ∈ after.mvcc.committedHistory ∧
            ((after.get e.key.cf e.key.key).1 = e.value ∨
              ∃ newer ∈ after.store.held, newer.key = e.key ∧ t < newer.txnId ∧
                newer.txnId ∈ after.mvcc.committedHistory ∧
                (after.get e.key.cf e.key.key).1 = newer.value) := by
  refine ⟨fun m nowMs => VisibilityManager.keepsUnexpired_iff, ?_⟩
  intro dir db hOpen hWal ops kept
  obtain ⟨hClocked, hDated⟩ := Dated.run (Clocked.of_open hOpen hWal) ops
  generalize (db.run codec ops).1 = past at *
  generalize (db.run codec ops).2 = before at *
  obtain ⟨log, hLogs, hBegin, -⟩ := hClocked.log
  obtain ⟨entries, hRead, hInitial⟩ := hLogs.cut kept (sessionConfig maxFileSize)
  have hReplay : replayAll codec ((before.close codec).cut kept).wal = .ok entries := by
    rwa [replayAll_openLatest] at hRead
  refine ⟨entries, hReplay, ?_⟩
  rintro t commitEnv hCommit e rfl hRetains env' config' hTtl hClock
  have hNoBegin : ∀ op ∈ entries, op.record ≠ .begin := fun op hOp => hBegin op (hInitial.subset hOp)
  obtain ⟨db', hReopened, hOpened⟩ := @open_readable codec maxFileSize env' config'
    ((before.close codec).cut kept) entries hRead
  refine ⟨db', hReopened, ?_⟩
  intro later hMeets after
  have hIn : e.txnId ∈ db'.mvcc.committedHistory := (hOpened.history _).mpr hRetains.known
  obtain ⟨entry, hLookup⟩ := FinMap.mem_iff_lookup.mp hIn
  -- the entry is not older than its commit
  have hAge : commitEnv.insertedAt ≤ entry.insertedAt := by
    rcases (Engine.recovered_entry hReopened hRead hNoBegin hLookup).2 with ⟨-, ts, hRecord⟩ | ⟨hNone, hNow⟩
    · exact (hDated _ hLogs.replay _ _ _ (hInitial.subset hRecord) commitEnv hCommit).le
    · rw [hNow]
      exact hClock.resolve_left hNone
  have hConfig : db'.mvcc.config = config'.visibility := by
    obtain ⟨recovery, l1, -, hState⟩ := Engine.openWithConfig_cases hReopened
    rw [hState]
    exact VisibilityManager.recoverCommittedHistory_config _ _ _ _
  obtain ⟨hSound, hReadable⟩ := Engine.Readable.run ⟨hLookup, hOpened.retains hRetains⟩ hOpened.sound
    (by rwa [hConfig]) (hMeets.mono fun _ _ _ hKeeps => hKeeps.later hAge)
  exact ⟨FinMap.mem_iff_lookup.mpr ⟨entry, hReadable.inHistory⟩, hReadable.get hSound⟩

/-- A call that evidently keeps what was inserted then: nothing is compacted. -/
def keepsPlainly (codec : Codec) (insertedAt : Nat) (db : Engine) : Op → Bool
  | .commit t env =>
      (db.compaction? codec (.commit t env)).isNone &&
        decide ((db.mvcc.enterCommit t env.ts env.insertedAt).committedHistory.keys.length ≤
            db.mvcc.config.maxHistoryEntries ∧
          (db.mvcc.enterCommit t env.ts env.insertedAt).WatermarkExpired env.nowMs ∧
          ¬ db.mvcc.Expired env.nowMs insertedAt)
  | .compact .. => false
  | _ => true

theorem Engine.Keeps.of_plain {codec : Codec} {db : Engine} {op : Op} {e : Z1Entry} {insertedAt : Nat}
    (h : keepsPlainly codec insertedAt db op = true) : db.Keeps codec op e insertedAt := by
  cases op with
  | commit t env =>
      obtain ⟨hNone, hKept⟩ := Bool.and_eq_true_iff.mp h
      refine ⟨fun u env' hOp => ?_, fun s watermark hPoint => ?_⟩
      · obtain ⟨rfl, rfl⟩ := Op.commit.inj hOp
        exact of_decide_eq_true hKept
      · rw [hPoint] at hNone
        cases hNone
  | compact => cases h
  | _ => constructor <;> simp [Engine.compaction?]

/-- Two commits in one millisecond, with a flush between them; a third transaction overwrites
the first key, and the crash cuts its record. -/
def twoCommits : List Op :=
  [.begin, .put 0 [107] [1] 1, .commit 1 ⟨1000, 1000, 1000, .listed, .succeed⟩, .flushNow .succeed,
    .begin, .put 0 [108] [2] 2, .commit 2 ⟨1000, 1000, 1000, .listed, .succeed⟩, .begin,
    .put 0 [107] [3] 3]

/-- Two commits after the reopen, the last one just within an hour of the first session. -/
def commitsWithinTtl : List Op :=
  [.begin, .put 0 [109] [3] 3, .commit 3 ⟨2000, 2000, 2000, .listed, .succeed⟩, .begin,
    .commit 4 ⟨3601000, 3601000, 3601000, .listed, .succeed⟩]

theorem crashed_commit_stays_readable :
    ∃ db db', Engine.openWithConfig Postcard.codec engineSegmentSize (.listed 0) {} {} = .ok db ∧
      Engine.openWithConfig Postcard.codec engineSegmentSize (.listed 1500) {}
        (((db.run Postcard.codec twoCommits).2.close Postcard.codec).cut (some 70)) = .ok db' ∧
      1 ∈ (db'.run Postcard.codec commitsWithinTtl).2.mvcc.committedHistory ∧
      ((db'.run Postcard.codec commitsWithinTtl).2.get 0 [107]).1 = some [1] := by
  have hRun : (Engine.openWithConfig Postcard.codec engineSegmentSize (.listed 0) {} {}).toOption.bind
      (fun db => (replayAll Postcard.codec
        (((db.run Postcard.codec twoCommits).2.close Postcard.codec).cut (some 70)).wal).toOption.map
          fun entries => (((db.run Postcard.codec (twoCommits.take 2)).2.step Postcard.codec
              (.commit 1 ⟨1000, 1000, 1000, .listed, .succeed⟩)).1, entries,
            ((db.run Postcard.codec twoCommits).2.close Postcard.codec).l2.flatMap Patch.versions,
            ((db.run Postcard.codec twoCommits).2.close Postcard.codec).l3.flatMap Patch.versions)) =
      some (.done, [⟨1, .put 0 [107] (some [1])⟩, ⟨1, .commit 1 1000⟩, ⟨2, .put 0 [108] (some [2])⟩,
        ⟨2, .commit 2 1000⟩], [⟨⟨0, [107]⟩, 1, some [1]⟩], []) := by decide +kernel
  have hLater : (Engine.openWithConfig Postcard.codec engineSegmentSize (.listed 0) {} {}).toOption.bind
      (fun db => (Engine.openWithConfig Postcard.codec engineSegmentSize (.listed 1500) {}
        (((db.run Postcard.codec twoCommits).2.close Postcard.codec).cut (some 70))).toOption.map
          fun db' => (decide (EachMeets (Engine.step Postcard.codec)
              (fun _ db op => keepsPlainly Postcard.codec 1000 db op = true) [] db' commitsWithinTtl),
            decide (∀ e ∈ (db'.run Postcard.codec commitsWithinTtl).2.store.held,
              e.key = ⟨0, [107]⟩ → e.txnId = 1))) = some (true, true) := by
    decide +kernel
  obtain ⟨db, hDb, hRead⟩ := Option.bind_eq_some_iff.mp hRun
  obtain ⟨entries, hEntries, hState⟩ := Option.map_eq_some_iff.mp hRead
  simp only [Prod.mk.injEq] at hState
  obtain ⟨hDone, rfl, hL2, hL3⟩ := hState
  rw [hDb, Option.bind_some] at hLater
  obtain ⟨reopened, hReopened, hChecks⟩ := Option.map_eq_some_iff.mp hLater
  obtain ⟨hMeets, hOnly⟩ := Prod.mk.inj hChecks
  have hCommit : (Op.commit 1 ⟨1000, 1000, 1000, .listed, .succeed⟩, Reply.done) ∈
      (db.run Postcard.codec twoCommits).1 := by
    have hEvent : (db.run Postcard.codec twoCommits).1[2]? = _ := runs_getElem? db twoCommits 2
    refine List.mem_of_getElem? (hEvent.trans ?_)
    exact congrArg (fun reply => some (_, reply)) hDone
  obtain ⟨-, hTimely⟩ := ttl_eviction_timely Postcard.codec engineSegmentSize (.listed 0) {}
  obtain ⟨read, hReplay, hKept⟩ := hTimely {} db (ok_of_toOption hDb) rfl twoCommits (some 70)
  obtain rfl := Except.ok.inj (hReplay.symm.trans (ok_of_toOption hEntries))
  have hRetains : (((db.run Postcard.codec twoCommits).2.close Postcard.codec).cut (some 70)).Retains
      [⟨1, .put 0 [107] (some [1])⟩, ⟨1, .commit 1 1000⟩, ⟨2, .put 0 [108] (some [2])⟩,
        ⟨2, .commit 2 1000⟩] ⟨⟨0, [107]⟩, 1, some [1]⟩ := by
    refine ⟨Or.inr ⟨⟨1, 1000, by simp⟩, mem_pending_of_live (by decide)⟩, Or.inl ?_, ?_, ?_⟩
    · rw [DataDir.cut, hL2]
      simp
    · intro copy hCopy _
      rw [DataDir.cut, hL2, hL3] at hCopy
      simpa using hCopy
    · intro _ copy hLast _
      have hIn := hLast.mem
      have hLive : (livePuts 1 [⟨1, .put 0 [107] (some [1])⟩, ⟨1, .commit 1 1000⟩,
          ⟨2, .put 0 [108] (some [2])⟩, ⟨2, .commit 2 1000⟩]).filterMap WalEntry.version? =
            [⟨⟨0, [107]⟩, 1, some [1]⟩] := by decide
      rw [hLive] at hIn
      exact List.mem_singleton.mp hIn
  obtain ⟨db', hOpen, hReadable⟩ := hKept 1 _ hCommit _ rfl hRetains (.listed 1500) {} (by decide)
    (Or.inl ⟨1, 1000, by simp⟩)
  obtain rfl := Except.ok.inj (hOpen.symm.trans (ok_of_toOption hReopened))
  obtain ⟨hIn, hGet⟩ := hReadable commitsWithinTtl
    ((of_decide_eq_true hMeets).mono fun _ _ _ => Engine.Keeps.of_plain)
  refine ⟨db, db', ok_of_toOption hDb, hOpen, hIn, hGet.resolve_right ?_⟩
  rintro ⟨newer, hHeld, hKey, hNewer, -⟩
  exact absurd (of_decide_eq_true hOnly newer hHeld hKey) hNewer.ne'

/-- Two commits a second apart, then a reopen: the later one is the watermark. -/
def twoCommitsReopened : List LifeOp :=
  [.call .begin, .call (.put 0 [107] [1] 1),
    .call (.commit 1 ⟨1000, 1000, 1000, .listed, .succeed⟩), .call .begin,
    .call (.put 0 [108] [2] 2), .call (.commit 2 ⟨2000, 2000, 2000, .listed, .succeed⟩),
    .reopen none (.listed 2500) {}]

/-- The first commit after the reopen evicts the first entry, two seconds old with
a TTL of an hour, and its key is gone. -/
theorem recovered_entry_evicted_early :
    (¬ ∀ ops db, (life Postcard.codec engineSegmentSize (.listed 0) {} ops).2 = some db →
      ∀ nowMs, db.mvcc.KeepsUnexpired nowMs) ∧
    (life Postcard.codec engineSegmentSize (.listed 0) {} twoCommitsReopened).2.map
        (fun db => (db.get 0 [107]).1) = some (some [1]) ∧
    (life Postcard.codec engineSegmentSize (.listed 0) {} (twoCommitsReopened ++
        [.call .begin, .call (.commit 3 ⟨3000, 3000, 3000, .listed, .succeed⟩)])).2.map
        (fun db => (db.get 0 [107]).1) = some none := by
  refine ⟨fun h => ?_, by decide +kernel, by decide +kernel⟩
  have hRun : (life Postcard.codec engineSegmentSize (.listed 0) {} twoCommitsReopened).2.map
      (fun db => (db.mvcc.committedEntry 1, db.mvcc.config,
        (db.mvcc.pruneByTime 3000).committedEntry 1)) = some (some (1, 1000), {}, none) := by
    decide +kernel
  obtain ⟨db, hDb, hState⟩ := Option.map_eq_some_iff.mp hRun
  simp only [Prod.mk.injEq] at hState
  obtain ⟨hEntry, hConfig, hGone⟩ := hState
  obtain ⟨entry, hLookup, hPair⟩ := Option.map_eq_some_iff.mp hEntry
  have hInserted : entry.insertedAt = 1000 := congrArg Prod.snd hPair
  have hKept := h twoCommitsReopened db hDb 3000 1 entry hLookup (by
    rw [VisibilityManager.Expired, hInserted, hConfig]
    decide)
  rw [VisibilityManager.committedEntry, hKept] at hGone
  cases hGone

end Z1Kv
