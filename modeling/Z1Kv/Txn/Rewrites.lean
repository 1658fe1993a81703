import Z1Kv.Txn.LostUpdate

/-! A transaction that writes a key more than once. A version is told apart by key
and transaction, so a rewrite replaces the copy in the hot buffer only, and a get
takes the last copy in the order hot, snapshot, cache, L2, L3. -/
namespace Z1Kv

/-- The journal, the manager and the layers agree on the last writes. -/
structure Retentive (base : TxnId) (past : List (Op × Reply)) (db : Engine) : Prop where
  sound : db.Sound
  ledger : Ledger base (journal past) db.mvcc db.txnCounter
  latest : Latest base (journal past) db

namespace Retentive
variable {codec : Codec} {base : TxnId} {past : List (Op × Reply)} {db : Engine} {op : Op}

theorem of_open {maxFileSize : Nat} {env : OpenEnv} {config : Z1Config} {dir : DataDir}
    (h : Engine.openWithConfig codec maxFileSize env config dir = .ok db)
    (hFresh : ∀ e ∈ db.store.held, e.txnId ≤ db.mvcc.committedTxn) :
    Retentive db.mvcc.committedTxn [] db :=
  ⟨Engine.sound_of_open h, .of_open h, (InStep.of_open h hFresh).latest⟩

theorem step (h : Retentive base past db) (hSparing : Sparing codec past db op) :
    Retentive base (past ++ [(op, (db.step codec op).1)]) (db.step codec op).2 := by
  refine ⟨h.sound.step op, ?_, ?_⟩
  · rw [journal_concat]
    exact h.ledger.step_call codec op
  · rw [journal_concat]
    exact h.latest.step h.ledger hSparing

/-- The last write of the last commit is read, unless a committed transaction with
a higher id has written the key. -/
theorem get (h : Retentive base past db) {w : Z1Entry} (hCommit : LastCommit (journal past) w.txnId)
    (hWrite : LastWrite (journal past) w)
    (hTop : ∀ w', .wrote w' ∈ journal past → w'.key = w.key → .committed w'.txnId ∈ journal past →
      w'.txnId ≤ w.txnId) : (db.get w.key.cf w.key.key).1 = w.value := by
  obtain ⟨hIn, hRetained⟩ := h.latest.latest _ hCommit
  obtain ⟨entry, hEntry⟩ := FinMap.mem_iff_lookup.mp hIn
  have hReadable : db.Readable w entry := ⟨hEntry, hRetained w hWrite rfl⟩
  rcases hReadable.get h.sound with hGet | ⟨newer, hHeld, hKey, hLt, hNewer, -⟩
  · exact hGet
  · exfalso
    have hAbove : base < w.txnId := by
      obtain ⟨before, after, hSplit, -⟩ := hWrite
      exact (h.ledger.began _ (h.ledger.writers w (by simp [hSplit]))).1
    have hYoung : ¬ newer.txnId ≤ base := fun hOld =>
      absurd (hOld.trans_lt (hAbove.trans hLt)) (lt_irrefl _)
    have hWrote := (h.latest.written.held hHeld).resolve_left hYoung
    have hCommitted := (h.ledger.history _ hNewer).resolve_left hYoung
    exact absurd (hTop newer hWrote hKey hCommitted) (Nat.not_le.mpr hLt)

end Retentive

/-- After its commit, and until the next one, a key reads as the transaction wrote
it last, wherever copies of the version lie. -/
theorem last_write_wins {codec : Codec} {maxFileSize : Nat} {env : OpenEnv} {config : Z1Config}
    {dir : DataDir} {db : Engine} {ops : List Op}
    (hOpen : Engine.openWithConfig codec maxFileSize env config dir = .ok db)
    (hFresh : ∀ e ∈ db.store.held, e.txnId ≤ db.mvcc.committedTxn)
    (hMeets : EachMeets (Engine.step codec) (Sparing codec) [] db ops) {w : Z1Entry}
    (hCommit : LastCommit (journal (db.run codec ops).1) w.txnId)
    (hWrite : LastWrite (journal (db.run codec ops).1) w)
    (hTop : ∀ w', .wrote w' ∈ journal (db.run codec ops).1 → w'.key = w.key →
      .committed w'.txnId ∈ journal (db.run codec ops).1 → w'.txnId ≤ w.txnId) :
    ((db.run codec ops).2.get w.key.cf w.key.key).1 = w.value := by
  have hEnd : Retentive db.mvcc.committedTxn (db.run codec ops).1 (db.run codec ops).2 := by
    have hRun := runs_invariant (Retentive db.mvcc.committedTxn) (Sparing codec)
      (fun _ _ _ hIn hSparing => hIn.step hSparing) (Retentive.of_open hOpen hFresh) hMeets
    simpa using hRun
  exact hEnd.get hCommit hWrite hTop

/-- Two values, the second one flushed and written again. -/
def rewriteRun : List Op :=
  [.begin, .put 0 [107] [1] 1, .put 0 [107] [2] 1, .flushNow .succeed, .put 0 [107] [2] 1,
    .commit 1 ⟨0, 0, 0, .listed, .succeed⟩]

theorem rewritten_value_is_read :
    ∃ db, Engine.openWithConfig Postcard.codec engineSegmentSize (.listed 0) {} {} = .ok db ∧
      ((db.run Postcard.codec rewriteRun).2.get 0 [107]).1 = some [2] := by
  have hRun : (Engine.openWithConfig Postcard.codec engineSegmentSize (.listed 0) {} {}).toOption.map
      (fun db => (db.store.held, (db.run Postcard.codec (rewriteRun.take 1)).2.store.beyondHot,
        (db.run Postcard.codec (rewriteRun.take 2)).2.store.beyondHot,
        (db.run Postcard.codec (rewriteRun.take 4)).2.store.beyondHot,
        journal (db.run Postcard.codec rewriteRun).1)) =
      some ([], [], [], [⟨⟨0, [107]⟩, 1, some [2]⟩, ⟨⟨0, [107]⟩, 1, some [2]⟩],
        [.began 1, .wrote ⟨⟨0, [107]⟩, 1, some [1]⟩, .wrote ⟨⟨0, [107]⟩, 1, some [2]⟩, .other,
          .wrote ⟨⟨0, [107]⟩, 1, some [2]⟩, .committed 1]) := by decide +kernel
  have hCommit : (Engine.openWithConfig Postcard.codec engineSegmentSize (.listed 0) {} {}).toOption.map
      (fun db => let before := (db.run Postcard.codec (rewriteRun.take 5)).2
        ((before.mvcc.enterCommit 1 0 0).overflow, (before.mvcc.enterCommit 1 0 0).cutoff 0,
          (before.compaction? Postcard.codec (.commit 1 ⟨0, 0, 0, .listed, .succeed⟩)).isNone)) =
      some (0, 0, true) := by decide +kernel
  obtain ⟨db, hDb, hState⟩ := Option.map_eq_some_iff.mp hRun
  rw [hDb] at hCommit
  have hOpen := ok_of_toOption hDb
  simp only [Option.map_some, Option.some.injEq, Prod.mk.injEq] at hState hCommit
  obtain ⟨hHeld, hFirst, hSecond, hThird, hJournal⟩ := hState
  obtain ⟨hOverflow, hCutoff, hNone⟩ := hCommit
  have hQuiet : ∀ (db : Engine) op, (∀ t env, op ≠ .commit t env) → op.write? = none →
      db.compaction? Postcard.codec op = none → ∀ past, Sparing Postcard.codec past db op := by
    intro db op hCommit hEntry hPoint past
    exact ⟨by simp [hEntry], fun t env hOp => absurd hOp (hCommit t env), by simp [hPoint]⟩
  have hPut : ∀ (db : Engine) v, (∀ copy ∈ db.store.beyondHot, copy = ⟨⟨0, [107]⟩, 1, some v⟩) →
      ∀ past, Sparing Postcard.codec past db (.put 0 [107] v 1) := by
    intro db v hCopies past
    refine ⟨fun e he copy hCopy _ => ?_, by simp, by simp [Engine.compaction?]⟩
    rw [hCopies copy hCopy]
    exact Option.some.inj he
  have hCommits : ∀ before : Engine, (before.mvcc.enterCommit 1 0 0).overflow = 0 →
      (before.mvcc.enterCommit 1 0 0).cutoff 0 = 0 →
      (before.compaction? Postcard.codec (.commit 1 ⟨0, 0, 0, .listed, .succeed⟩)).isNone = true →
      ∀ past, Sparing Postcard.codec past before (.commit 1 ⟨0, 0, 0, .listed, .succeed⟩) := by
    intro before hOverflow hCutoff hNone past
    refine ⟨by simp [Op.write?], fun txnId env hOp => ?_, fun s watermark hPoint => ?_⟩
    · obtain ⟨rfl, rfl⟩ := Op.commit.inj hOp
      exact ⟨hOverflow.le.trans (Nat.zero_le _), fun _ => hCutoff.le⟩
    · rw [hPoint] at hNone
      cases hNone
  have hMeets : EachMeets (Engine.step Postcard.codec) (Sparing Postcard.codec) [] db rewriteRun := by
    refine .of_take fun i op hi => ?_
    rcases i with _ | _ | _ | _ | _ | _ | i
    · obtain rfl := Option.some.inj hi
      exact hQuiet _ _ (by simp) rfl rfl _
    · obtain rfl := Option.some.inj hi
      exact hPut _ _ (by simp [hFirst]) _
    · obtain rfl := Option.some.inj hi
      exact hPut _ _ (by simp [hSecond]) _
    · obtain rfl := Option.some.inj hi
      exact hQuiet _ _ (by simp) rfl rfl _
    · obtain rfl := Option.some.inj hi
      exact hPut _ _ (by simp [hThird]) _
    · obtain rfl := Option.some.inj hi
      exact hCommits _ hOverflow hCutoff hNone _
    · cases hi
  refine ⟨db, hOpen, last_write_wins hOpen (by simp [hHeld]) hMeets
    (w := ⟨⟨0, [107]⟩, 1, some [2]⟩) ?_ ?_ ?_⟩
  · rw [hJournal]
    exact ⟨[.began 1, .wrote ⟨⟨0, [107]⟩, 1, some [1]⟩, .wrote ⟨⟨0, [107]⟩, 1, some [2]⟩, .other,
      .wrote ⟨⟨0, [107]⟩, 1, some [2]⟩], [], rfl, by simp⟩
  · rw [hJournal]
    exact ⟨[.began 1, .wrote ⟨⟨0, [107]⟩, 1, some [1]⟩, .wrote ⟨⟨0, [107]⟩, 1, some [2]⟩, .other],
      [.committed 1], rfl, by simp⟩
  · rw [hJournal]
    intro w' hw'
    simp only [List.mem_cons, News.wrote.injEq, reduceCtorEq, List.not_mem_nil, or_false, false_or] at hw'
    rcases hw' with rfl | rfl | rfl <;> simp

/-- A flush between two writes of one version. -/
def flushedRewriteRun : List Op :=
  [.begin, .put 0 [107] [1] 1, .flushNow .succeed, .put 0 [107] [2] 1,
    .commit 1 ⟨0, 0, 0, .listed, .succeed⟩]

/-- The flushed copy comes after the hot one and is read. -/
theorem flushed_copy_wins :
    ¬ ∀ ops db, Engine.openWithConfig Postcard.codec engineSegmentSize (.listed 0) {} {} = .ok db →
      ∀ w, LastCommit (journal (db.run Postcard.codec ops).1) w.txnId →
        LastWrite (journal (db.run Postcard.codec ops).1) w →
        (∀ w', .wrote w' ∈ journal (db.run Postcard.codec ops).1 → w'.txnId = w.txnId) →
          ((db.run Postcard.codec ops).2.get w.key.cf w.key.key).1 = w.value := by
  intro h
  have hRun : (Engine.openWithConfig Postcard.codec engineSegmentSize (.listed 0) {} {}).toOption.map
      (fun db => (journal (db.run Postcard.codec flushedRewriteRun).1,
        ((db.run Postcard.codec flushedRewriteRun).2.get 0 [107]).1)) =
      some ([.began 1, .wrote ⟨⟨0, [107]⟩, 1, some [1]⟩, .other, .wrote ⟨⟨0, [107]⟩, 1, some [2]⟩,
        .committed 1], some [1]) := by decide +kernel
  obtain ⟨db, hDb, hState⟩ := Option.map_eq_some_iff.mp hRun
  obtain ⟨hJournal, hGet⟩ := Prod.mk.inj hState
  have hRead := h flushedRewriteRun db (ok_of_toOption hDb) ⟨⟨0, [107]⟩, 1, some [2]⟩
  rw [hJournal, hGet] at hRead
  have hValue := hRead ⟨[.began 1, .wrote ⟨⟨0, [107]⟩, 1, some [1]⟩, .other,
      .wrote ⟨⟨0, [107]⟩, 1, some [2]⟩], [], rfl, by simp⟩
    ⟨[.began 1, .wrote ⟨⟨0, [107]⟩, 1, some [1]⟩, .other], [.committed 1], rfl, by simp⟩
    (by
      intro w' hw'
      simp only [List.mem_cons, News.wrote.injEq, reduceCtorEq, List.not_mem_nil, or_false, false_or] at hw'
      rcases hw' with rfl | rfl <;> rfl)
  revert hValue
  decide

end Z1Kv
