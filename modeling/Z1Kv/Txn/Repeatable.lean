import Z1Kv.Txn.Compaction
import Z1Kv.Txn.Snapshots

/-! Repeatable reads through a pinned snapshot. What other transactions write is
never seen; only the merge of a compaction, which goes by one id while the
snapshot is a set, can take a version away from under a reader. -/
namespace Z1Kv

/-- The call ends this transaction. -/
def Op.Ends (op : Op) (t : TxnId) : Prop := op = .rollback t ∨ ∃ env, op = .commit t env

theorem Store.KeepsWinners.write {snap : TxnSnapshot} {old new : Store} {e : Z1Entry}
    (h : old.KeepsWinners snap new) (hUnseen : snap.sees e.txnId ≠ true) :
    old.KeepsWinners snap { new with l1 := new.l1.replayPut e } := by
  constructor
  · intro copy hCopy hSeen
    rcases Store.mem_held_write hCopy with rfl | hOld
    · exact absurd hSeen hUnseen
    · exact h.held copy hOld hSeen
  · intro key winner hWins
    refine Store.mem_settled_write (fun hId => hUnseen ?_) (h.winners key winner hWins)
    rw [← (Prod.mk.inj hId).2]
    exact hWins.isVisible

namespace Engine
variable {codec : Codec} {db : Engine} {op : Op} {t : TxnId} {snap : TxnSnapshot}

/-- Only its own commit or rollback ends a transaction. -/
theorem MvccEffect.active_stays {reply : Reply} {mvcc : VisibilityManager}
    (h : db.MvccEffect op reply mvcc) (hActive : t ∈ db.mvcc.activeTxns) (hEnds : ¬ op.Ends t) :
    t ∈ mvcc.activeTxns := by
  cases h with
  | begun h =>
      obtain ⟨-, -, rfl⟩ := VisibilityManager.beginTxn_eq_ok h
      exact (AList.mem_insert _).mpr (Or.inr hActive)
  | wrote => exact VisibilityManager.mem_modifyActive.mpr hActive
  | read => exact VisibilityManager.mem_modifyActive.mpr hActive
  | @committed txnId env txn hLookup hSsi =>
      rw [VisibilityManager.committed_activeTxns]
      refine AList.mem_erase.mpr ⟨?_, hActive⟩
      rintro rfl
      exact hEnds (Or.inr ⟨env, rfl⟩)
  | @conflicted txnId env txn conflict hLookup hSsi =>
      refine AList.mem_erase.mpr ⟨?_, hActive⟩
      rintro rfl
      exact hEnds (Or.inr ⟨env, rfl⟩)
  | rolledBack =>
      refine AList.mem_erase.mpr ⟨?_, hActive⟩
      rintro rfl
      exact hEnds (Or.inl rfl)
  | failed => exact hActive
  | idle => exact hActive

/-- A transaction keeps its pinned snapshot until it ends. -/
theorem step_pinned (hSound : db.Sound) (hActive : t ∈ db.mvcc.activeTxns) (hEnds : ¬ op.Ends t)
    (hPinned : AList.lookup t db.txnSnapshots = some snap) :
    AList.lookup t (db.step codec op).2.txnSnapshots = some snap := by
  rcases (@step_snapshots codec db hSound op).2 with
    hEq | ⟨txnId, hOp, hEq⟩ | ⟨txnId, rfl, hReply, hEq⟩
  · rw [hEq]
    exact hPinned
  · rw [hEq, AList.lookup_erase_ne]
    · exact hPinned
    · rintro rfl
      exact hEnds hOp
  · rw [hEq, AList.lookup_insert_ne]
    · exact hPinned
    · rintro rfl
      obtain ⟨mvcc, cache, hBegin, -⟩ := begin_inv (Prod.ext hReply rfl)
      exact (VisibilityManager.beginTxn_eq_ok hBegin).1 hActive

/-- A call of others under which the reads of this transaction should repeat: a
compaction gives up none of the versions that they find. -/
structure SparesReader (codec : Codec) (db : Engine) (t : TxnId) (op : Op) : Prop where
  stays : ¬ op.Ends t
  survive : ∀ snap s watermark, AList.lookup t db.txnSnapshots = some snap →
    db.compaction? codec op = some (s, watermark) →
    ∀ key e, s.Wins snap key e → s.Survives watermark e

/-- A reader with its snapshot, and layers that still have what it finds in the
layers of old. -/
structure Reads (db : Engine) (t : TxnId) (snap : TxnSnapshot) (old : Store) : Prop where
  sound : db.Sound
  active : t ∈ db.mvcc.activeTxns
  pinned : AList.lookup t db.txnSnapshots = some snap
  keeps : old.KeepsWinners snap db.store

theorem Reads.step {old : Store} (h : db.Reads t snap old) (hConsistent : old.SeenConsistent snap)
    (hSpares : db.SparesReader codec t op) : (db.step codec op).2.Reads t snap old := by
  refine ⟨h.sound.step op, (db.step_mvcc codec op).active_stays h.active hSpares.stays,
    step_pinned h.sound h.active hSpares.stays h.pinned, ?_⟩
  refine @step_store codec db op (old.KeepsWinners snap) h.keeps ?_ ?_ ?_
  · intro e _ hActive
    exact h.keeps.write fun hSeen => (h.sound.pinned t snap h.pinned _ hSeen).2 hActive
  · exact fun s writes hKeeps => hKeeps.flush hConsistent writes
  · exact fun s watermark s' hKeeps hPoint hCompacted =>
      hKeeps.compacted hConsistent hCompacted (hSpares.survive snap s watermark h.pinned hPoint)

end Engine

/-- A transaction reads, through any calls of others, what its snapshot had at its
begin. -/
theorem reads_repeat {codec : Codec} {maxFileSize : Nat} {env : OpenEnv} {config : Z1Config}
    {ops : List LifeOp} {before db : Engine} {t : TxnId} {later : List Op}
    (hLife : (life codec maxFileSize env config ops).2 = some before)
    (hBegin : before.step codec .begin = (.began t, db))
    (hConsistent : db.store.SeenConsistent db.mvcc.snapshot)
    (hSettled : ∀ key e, db.store.Wins db.mvcc.snapshot key e → e ∈ db.store.settled)
    (hMeets : EachMeets (Engine.step codec) (fun _ db op => db.SparesReader codec t op) [] db later)
    (cf : UInt16) (key : Bytes) :
    ((db.run codec later).2.getForTxn cf key t).1 = .ok (db.store.getAt db.mvcc.snapshot cf key) := by
  have hSound : db.Sound := by
    have hStep : (before.step codec .begin).2.Sound := (life_sound hLife).step .begin
    rw [hBegin] at hStep
    exact hStep
  obtain ⟨mvcc, cache, hOk, -, -, hDb⟩ := Engine.begin_inv hBegin
  have hStart : db.Reads t db.mvcc.snapshot db.store := by
    refine ⟨hSound, ?_, ?_, ⟨fun _ h _ => h, hSettled⟩⟩
    · obtain ⟨-, -, rfl⟩ := VisibilityManager.beginTxn_eq_ok hOk
      rw [hDb]
      exact (AList.mem_insert _).mpr (Or.inl rfl)
    · rw [hDb]
      exact AList.lookup_insert _
  have hEnd : (db.run codec later).2.Reads t db.mvcc.snapshot db.store :=
    runs_invariant (fun _ (after : Engine) => after.Reads t db.mvcc.snapshot db.store)
      (fun _ (after : Engine) op => after.SparesReader codec t op)
      (fun _ _ _ hReads hSpares => hReads.step hConsistent hSpares) hStart hMeets
  unfold Engine.getForTxn
  rw [hEnd.pinned]
  exact congrArg Except.ok (hEnd.keeps.getAt hConsistent cf key)

/-- One committed version; the reader begins while another writer is active. -/
def readerBeginsRun : List LifeOp :=
  [.call .begin, .call (.put 0 [107] [1] 1),
    .call (.commit 1 ⟨0, 0, 0, .listed, .succeed⟩), .call .begin]

/-- The other writer writes the key and a flush moves both versions. -/
theorem reads_repeat_through_flush :
    ∃ before db, (life Postcard.codec engineSegmentSize (.listed 0) {} readerBeginsRun).2 =
        some before ∧ before.step Postcard.codec .begin = (.began 3, db) ∧
      ((db.run Postcard.codec [.put 0 [107] [2] 2, .flushNow .succeed]).2.getForTxn 0 [107] 3).1 =
        .ok (db.store.getAt db.mvcc.snapshot 0 [107]) := by
  have hRun : (life Postcard.codec engineSegmentSize (.listed 0) {} readerBeginsRun).2.map
      (fun db => ((db.step Postcard.codec .begin).1, (db.step Postcard.codec .begin).2.store.held,
        (db.step Postcard.codec .begin).2.store.settled)) =
        some (.began 3, [⟨⟨0, [107]⟩, 1, some [1]⟩], [⟨⟨0, [107]⟩, 1, some [1]⟩]) := by decide +kernel
  obtain ⟨before, hBefore, hState⟩ := Option.map_eq_some_iff.mp hRun
  simp only [Prod.mk.injEq] at hState
  obtain ⟨hBegan, hHeld, hSettled⟩ := hState
  have hMeets : EachMeets (Engine.step Postcard.codec)
      (fun _ db op => db.SparesReader Postcard.codec 3 op) []
      (before.step Postcard.codec .begin).2 [.put 0 [107] [2] 2, .flushNow .succeed] := by
    refine ⟨⟨?_, ?_⟩, ⟨?_, ?_⟩, trivial⟩
    · simp [Op.Ends]
    · exact fun _ _ _ _ hPoint => nomatch hPoint
    · simp [Op.Ends]
    · exact fun _ _ _ _ hPoint => nomatch hPoint
  refine ⟨before, _, hBefore, Prod.ext hBegan rfl,
    reads_repeat hBefore (Prod.ext hBegan rfl) ?_ ?_ hMeets 0 [107]⟩
  · rintro a ⟨ha, -⟩ b ⟨hb, -⟩ _ _
    rw [hHeld] at ha hb
    rw [List.mem_singleton.mp ha, List.mem_singleton.mp hb]
  · intro key e hWins
    have hMem : e ∈ (before.step Postcard.codec .begin).2.store.held := hWins.isHeld
    rw [hSettled]
    rwa [hHeld] at hMem

def eagerCompaction : Z1Config := { l2CompactionThreshold := 1 }

/-- The other writer commits a new version below the watermark; the merge keeps it
and reclaims the one that the reader sees. -/
theorem reader_loses_version :
    ¬ ∀ ops before db t later,
      (life Postcard.codec engineSegmentSize (.listed 0) eagerCompaction ops).2 = some before →
      before.step Postcard.codec .begin = (.began t, db) → (∀ op ∈ later, ¬ Op.Ends op t) →
      ∀ cf key, ((db.run Postcard.codec later).2.getForTxn cf key t).1 =
        .ok (db.store.getAt db.mvcc.snapshot cf key) := by
  intro h
  have hRun : (life Postcard.codec engineSegmentSize (.listed 0) eagerCompaction readerBeginsRun).2.map
      (fun db => ((db.step Postcard.codec .begin).1,
        (db.step Postcard.codec .begin).2.store.getAt
          (db.step Postcard.codec .begin).2.mvcc.snapshot 0 [107],
        (((db.step Postcard.codec .begin).2.run Postcard.codec
          [.put 0 [107] [2] 2, .flushNow .succeed, .commit 2 ⟨0, 0, 0, .listed, .succeed⟩,
            .flushNow .succeed]).2.getForTxn 0 [107] 3).1)) =
        some (.began 3, some [1], .ok none) := by decide +kernel
  obtain ⟨before, hBefore, hState⟩ := Option.map_eq_some_iff.mp hRun
  simp only [Prod.mk.injEq] at hState
  obtain ⟨hBegan, hStart, hEnd⟩ := hState
  have hSame := h readerBeginsRun before _ 3
    [.put 0 [107] [2] 2, .flushNow .succeed, .commit 2 ⟨0, 0, 0, .listed, .succeed⟩,
      .flushNow .succeed] hBefore (Prod.ext hBegan rfl) (by simp [Op.Ends]) 0 [107]
  rw [hStart, hEnd] at hSame
  cases hSame

end Z1Kv
