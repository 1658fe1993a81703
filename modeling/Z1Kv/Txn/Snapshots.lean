import Z1Kv.Txn.Steps

/-! Snapshots of an engine over its whole life: the current snapshot, cached or
not, sees exactly the committed history, and a pinned one never sees a
transaction that is still to end. -/
namespace Z1Kv

/-- What a snapshot sees has ended and is not above the highest committed id. -/
def TxnSnapshot.Settled (snap : TxnSnapshot) (m : VisibilityManager) : Prop :=
  ∀ t, snap.sees t = true → t ≤ m.committedTxn ∧ t ∉ m.activeTxns

/-- Transactions only end, and new ones have ids above the committed ones. -/
structure VisibilityManager.Advances (m m' : VisibilityManager) : Prop where
  committed : m.committedTxn ≤ m'.committedTxn
  active : ∀ t ∈ m'.activeTxns, t ∈ m.activeTxns ∨ m.committedTxn < t

namespace VisibilityManager

theorem Advances.refl (m : VisibilityManager) : m.Advances m := ⟨le_rfl, fun _ h => Or.inl h⟩

theorem Advances.settled {m m' : VisibilityManager} {snap : TxnSnapshot} (h : m.Advances m')
    (hSnap : snap.Settled m) : snap.Settled m' := by
  intro t ht
  obtain ⟨hLe, hEnded⟩ := hSnap t ht
  refine ⟨hLe.trans h.committed, fun hActive => ?_⟩
  rcases h.active t hActive with hActive | hAbove
  · exact hEnded hActive
  · exact absurd hLe (Nat.not_le.mpr hAbove)

theorem Coherent.snapshot_settled {m : VisibilityManager} (h : m.Coherent) : m.snapshot.Settled m := by
  intro t ht
  have hMem := (h.snapshot_sees t).mp ht
  exact ⟨h.below t hMem, h.ended t hMem⟩

theorem advances_abortTxn (m : VisibilityManager) (txnId : TxnId) : m.Advances (m.abortTxn txnId) :=
  ⟨le_rfl, fun _ h => Or.inl (AList.mem_erase.mp h).2⟩

theorem advances_modifyActive (m : VisibilityManager) (txnId : TxnId) (f : TxnMeta → TxnMeta) :
    m.Advances (m.modifyActive txnId f) :=
  ⟨by rw [modifyActive_committedTxn], fun _ h => Or.inl (mem_modifyActive.mp h)⟩

theorem advances_committed (m : VisibilityManager) (order : HashOrder) (txnId : TxnId)
    (insertedAt ts nowMs : Nat) : m.Advances (m.committed order txnId insertedAt ts nowMs) := by
  constructor
  · rw [committed_committedTxn]
    exact le_max_left _ _
  · intro t ht
    rw [committed_activeTxns] at ht
    exact Or.inl (AList.mem_erase.mp ht).2

theorem advances_beginTxn {m m' : VisibilityManager} {txnId : TxnId}
    (h : m.beginTxn txnId = .ok m') : m.Advances m' := by
  obtain ⟨-, hNew, rfl⟩ := beginTxn_eq_ok h
  refine ⟨le_rfl, fun t ht => ?_⟩
  rcases (AList.mem_insert _).mp ht with rfl | ht
  · exact Or.inr hNew
  · exact Or.inl ht

end VisibilityManager

namespace Engine
variable {codec : Codec} {db : Engine} {op : Op} {reply : Reply} {mvcc : VisibilityManager}

theorem MvccEffect.advances (h : db.MvccEffect op reply mvcc) : db.mvcc.Advances mvcc := by
  cases h with
  | begun h => exact VisibilityManager.advances_beginTxn h
  | wrote => exact db.mvcc.advances_modifyActive _ _
  | read => exact db.mvcc.advances_modifyActive _ _
  | committed => exact db.mvcc.advances_committed _ _ _ _ _
  | conflicted => exact db.mvcc.advances_abortTxn _
  | rolledBack => exact db.mvcc.advances_abortTxn _
  | failed => exact .refl _
  | idle => exact .refl _

theorem MvccEffect.coherent (h : db.MvccEffect op reply mvcc) (hCoherent : db.mvcc.Coherent) :
    mvcc.Coherent := by
  cases h with
  | begun h => exact hCoherent.beginTxn h
  | wrote => exact hCoherent.modifyActive _ _
  | read => exact hCoherent.modifyActive _ _
  | committed => exact hCoherent.committed _ _ _ _ _
  | conflicted => exact hCoherent.abortTxn _
  | rolledBack => exact hCoherent.abortTxn _
  | failed => exact hCoherent
  | idle => exact hCoherent

/-- The cached snapshot, as long as it counts, sees the committed history. -/
def CacheTrue (cache : SnapshotCache) (m : VisibilityManager) : Prop :=
  ∀ snap, cache.fullCache = some (cache.generation, snap) →
    ∀ t, snap.sees t = true ↔ t ∈ m.committedHistory

theorem cacheTrue_of_none {cache : SnapshotCache} {m : VisibilityManager}
    (h : cache.fullCache = none) : CacheTrue cache m := by
  intro snap hSome
  rw [h] at hSome
  cases hSome

/-- What holds of the snapshots of every engine. -/
structure Sound (db : Engine) : Prop where
  coherent : db.mvcc.Coherent
  cached : CacheTrue db.snapshotCache db.mvcc
  pinned : ∀ t snap, AList.lookup t db.txnSnapshots = some snap → snap.Settled db.mvcc

/-- The current snapshot sees exactly the committed history. -/
theorem Sound.snapshot_sees (h : db.Sound) (t : TxnId) :
    db.snapshot.1.sees t = true ↔ t ∈ db.mvcc.committedHistory := by
  unfold Engine.snapshot SnapshotCache.snapshot
  split
  next snap cache hSnap =>
  split at hSnap
  · next generation cachedSnap hCached =>
    split at hSnap
    · next hGeneration =>
      obtain ⟨rfl, -⟩ := Prod.mk.inj hSnap
      exact h.cached _ (by rw [hCached, hGeneration]) t
    · obtain ⟨rfl, -⟩ := Prod.mk.inj hSnap
      exact h.coherent.snapshot_sees t
  · obtain ⟨rfl, -⟩ := Prod.mk.inj hSnap
    exact h.coherent.snapshot_sees t

theorem Sound.cached_snapshot (h : db.Sound) : CacheTrue db.snapshot.2.snapshotCache db.mvcc := by
  unfold Engine.snapshot SnapshotCache.snapshot
  dsimp only
  intro snap hSome t
  split at hSome
  · split at hSome
    · exact h.cached snap hSome t
    · obtain ⟨-, rfl⟩ := Prod.mk.inj (Option.some.inj hSome)
      exact h.coherent.snapshot_sees t
  · obtain ⟨-, rfl⟩ := Prod.mk.inj (Option.some.inj hSome)
    exact h.coherent.snapshot_sees t

/-- What a call does to the pinned snapshots and to the cached one. -/
theorem step_snapshots (h : db.Sound) (op : Op) :
    CacheTrue (db.step codec op).2.snapshotCache (db.step codec op).2.mvcc ∧
      ((db.step codec op).2.txnSnapshots = db.txnSnapshots ∨
        (∃ txnId, (op = .rollback txnId ∨ ∃ env, op = .commit txnId env) ∧
          (db.step codec op).2.txnSnapshots = AList.erase txnId db.txnSnapshots) ∨
        ∃ txnId, op = .begin ∧ (db.step codec op).1 = .began txnId ∧
          (db.step codec op).2.txnSnapshots =
            AList.insert txnId (db.step codec op).2.mvcc.snapshot db.txnSnapshots) := by
  have hWrite : ∀ cf key value txnId,
      CacheTrue (db.write codec cf key value txnId).2.snapshotCache
        (db.write codec cf key value txnId).2.mvcc ∧
      (db.write codec cf key value txnId).2.txnSnapshots = db.txnSnapshots := by
    intro cf key value txnId
    rcases db.write_cases codec cf key value txnId with ⟨-, hEq⟩ | ⟨-, hEq⟩
    · rw [hEq]
      exact ⟨h.cached, rfl⟩
    · rw [hEq]
      refine ⟨fun snap hSnap t => ?_, rfl⟩
      dsimp only [VisibilityManager.recordWrite]
      rw [VisibilityManager.modifyActive_committedHistory]
      exact h.cached snap hSnap t
  cases op with
  | begin =>
      rw [step, beginTxn]
      rcases db.beginAttempts_cases 16 with
        ⟨e, counter, cache, hEq, hCache, -⟩ | ⟨txnId, mvcc, cache, -, hCache, -, hEq⟩
      · rw [hEq]
        refine ⟨?_, Or.inl rfl⟩
        rcases hCache with rfl | hCache
        · exact h.cached
        · exact cacheTrue_of_none hCache
      · rw [hEq]
        exact ⟨cacheTrue_of_none hCache, Or.inr (Or.inr ⟨txnId, rfl, rfl, rfl⟩)⟩
  | put cf key value txnId =>
      exact ⟨(hWrite cf key (some value) txnId).1, Or.inl (hWrite cf key (some value) txnId).2⟩
  | delete cf key txnId =>
      exact ⟨(hWrite cf key none txnId).1, Or.inl (hWrite cf key none txnId).2⟩
  | getForTxn cf key txnId =>
      rw [step, getForTxn]
      split
      · exact ⟨h.cached, Or.inl rfl⟩
      · refine ⟨fun snap hSnap t => ?_, Or.inl rfl⟩
        dsimp only [Prod.map, id, VisibilityManager.recordRead]
        rw [VisibilityManager.modifyActive_committedHistory]
        exact h.cached snap hSnap t
  | commit txnId env =>
      rw [step]
      rcases db.commit_cases codec env txnId with
        ⟨-, hEq⟩ | ⟨e, wal, -, -, hEq⟩ | ⟨txn, conflict, wal, -, -, -, hEq⟩ | ⟨txn, wal, -, -, -, hEq⟩
      · rw [hEq]
        exact ⟨h.cached, Or.inl rfl⟩
      · rw [hEq]
        exact ⟨h.cached, Or.inl rfl⟩
      · rw [hEq]
        exact ⟨h.cached, Or.inr (Or.inl ⟨txnId, Or.inr ⟨env, rfl⟩, rfl⟩)⟩
      · obtain ⟨hSame, -⟩ := (db.committing codec env txnId).maybeAutoMaintain_spec codec env.writes
        rw [hEq]
        refine ⟨cacheTrue_of_none ?_, Or.inr (Or.inl ⟨txnId, Or.inr ⟨env, rfl⟩, hSame.txnSnapshots⟩)⟩
        dsimp only [Prod.map, id]
        rw [hSame.snapshotCache]
        rfl
  | rollback txnId =>
      rw [step]
      rcases db.rollback_cases codec txnId with ⟨-, hEq⟩ | ⟨e, wal, -, -, hEq⟩ | ⟨wal, -, -, hEq⟩
      · rw [hEq]
        exact ⟨h.cached, Or.inl rfl⟩
      · rw [hEq]
        exact ⟨cacheTrue_of_none rfl, Or.inl rfl⟩
      · rw [hEq]
        exact ⟨cacheTrue_of_none rfl, Or.inr (Or.inl ⟨txnId, Or.inl rfl, rfl⟩)⟩
  | checkpoint writes =>
      have hSame := (db.checkpoint_spec codec writes).1
      rw [step]
      dsimp only [Prod.map, id]
      rw [hSame.snapshotCache, hSame.mvcc, hSame.txnSnapshots]
      exact ⟨h.cached, Or.inl rfl⟩
  | get cf key => exact ⟨h.cached_snapshot, Or.inl rfl⟩
  | scan cf start endKey => exact ⟨h.cached_snapshot, Or.inl rfl⟩
  | _ => exact ⟨h.cached, Or.inl rfl⟩

theorem Sound.step (h : db.Sound) (op : Op) : (db.step codec op).2.Sound := by
  obtain ⟨hCache, hPinned⟩ := @step_snapshots codec db h op
  have hEffect := db.step_mvcc codec op
  have hCoherent := hEffect.coherent h.coherent
  refine ⟨hCoherent, hCache, fun t snap hLookup => ?_⟩
  rcases hPinned with hEq | ⟨txnId, -, hEq⟩ | ⟨txnId, -, -, hEq⟩
  · rw [hEq] at hLookup
    exact hEffect.advances.settled (h.pinned t snap hLookup)
  · rw [hEq] at hLookup
    by_cases hTxn : t = txnId
    · subst hTxn
      simp at hLookup
    · rw [AList.lookup_erase_ne hTxn] at hLookup
      exact hEffect.advances.settled (h.pinned t snap hLookup)
  · rw [hEq] at hLookup
    by_cases hTxn : t = txnId
    · subst hTxn
      rw [AList.lookup_insert] at hLookup
      obtain rfl := Option.some.inj hLookup
      exact hCoherent.snapshot_settled
    · rw [AList.lookup_insert_ne hTxn] at hLookup
      exact hEffect.advances.settled (h.pinned t snap hLookup)

theorem openWithConfig_cases {codec : Codec} {maxFileSize : Nat} {env : OpenEnv} {config : Z1Config}
    {dir : DataDir} {db : Engine}
    (h : openWithConfig codec maxFileSize env config dir = .ok db) :
    ∃ recovery l1,
      replayCommittedOps replayIntoL1 codec
          (WalWriter.openLatest dir.wal (sessionConfig maxFileSize)).dir config.strictMode
          (MemStore.new (64 * 1024 * 1024)) = .ok (recovery, l1) ∧
      db =
        { config
          wal := WalWriter.openLatest dir.wal (sessionConfig maxFileSize)
          mvcc := (((VisibilityManager.newWithConfig config.visibility).setCommittedTxn
            (max (dir.checkpoints.recoveryBaseline.getD (0, [])).1
              recovery.maxSeenCommittedTxn)).recoverCommittedHistory
                ((mergeHistory (dir.checkpoints.recoveryBaseline.getD (0, [])).2
                  recovery.commitTsMap).entries.map fun e => (e.1, e.2))
                recovery.insertedAtMap env.now).setReplayWatermark recovery.replayWatermark
          snapshotCache := {}
          txnSnapshots := ∅
          store :=
            { l1
              recentFlush := ∅
              l2 := DiskLayer.open env dir.l2
              l3 := DiskLayer.open env dir.l3
              nextPatchId := max (DiskLayer.open env dir.l2).maxPatchId
                (DiskLayer.open env dir.l3).maxPatchId + 1 }
          txnCounter := min (max (dir.checkpoints.recoveryBaseline.getD (0, [])).1
            recovery.maxSeenCommittedTxn + 1) u64Max
          checkpoints := dir.checkpoints } := by
  unfold openWithConfig at h
  dsimp only at h
  split at h
  · cases h
  · next recovery l1 hReplay => exact ⟨recovery, l1, hReplay, (Except.ok.inj h).symm⟩

theorem sound_of_open {codec : Codec} {maxFileSize : Nat} {env : OpenEnv} {config : Z1Config}
    {dir : DataDir} {db : Engine} (h : openWithConfig codec maxFileSize env config dir = .ok db) :
    db.Sound := by
  obtain ⟨recovery, l1, -, rfl⟩ := openWithConfig_cases h
  refine ⟨⟨?_, ?_⟩, cacheTrue_of_none rfl, by simp⟩
  · exact (VisibilityManager.recoverCommittedHistory_spec _ _ _ _).2.2.2
  · intro t _ hActive
    dsimp only [VisibilityManager.setReplayWatermark] at hActive
    rw [(VisibilityManager.recoverCommittedHistory_spec _ _ _ _).1] at hActive
    exact AList.notMem_empty t hActive

end Engine

theorem Engine.snapshot_store (db : Engine) : db.snapshot.2.store = db.store := rfl

theorem Engine.scan_eq (db : Engine) (cf : UInt16) (start : Bytes) (endKey : Option Bytes) :
    (db.scan cf start endKey).1 = db.store.scanAt db.snapshot.1 cf start endKey := by
  rw [← db.snapshot_store]
  unfold scan scanAt
  generalize db.snapshot = taken
  obtain ⟨snap, db'⟩ := taken
  dsimp only

/-- What every open establishes and every call keeps holds of every engine. -/
theorem life_induct {codec : Codec} {maxFileSize : Nat} {P : Engine → Prop}
    (hOpen : ∀ env config dir db,
      Engine.openWithConfig codec maxFileSize env config dir = .ok db → P db)
    (hStep : ∀ db op, P db → P (db.step codec op).2)
    {env : OpenEnv} {config : Z1Config} {ops : List LifeOp} {db : Engine}
    (h : (life codec maxFileSize env config ops).2 = some db) : P db := by
  have hAll : ∀ db', (life codec maxFileSize env config ops).2 = some db' → P db' := by
    have hMeets : EachMeets (lifeStep codec maxFileSize) (fun _ _ _ => True) []
        (Engine.openWithConfig codec maxFileSize env config {}).toOption ops :=
      EachMeets.of_forall fun _ _ => trivial
    refine runs_invariant (fun _ state => ∀ db', state = some db' → P db') (fun _ _ _ => True)
      ?_ ?_ hMeets
    · rintro past state input hState - db' hDb
      cases state with
      | none => cases hDb
      | some db =>
          cases input with
          | call op =>
              obtain rfl := Option.some.inj hDb
              exact hStep db op (hState db rfl)
          | reopen kept env config =>
              dsimp only [lifeStep] at hDb
              split at hDb
              · next hOk =>
                obtain rfl := Option.some.inj hDb
                exact hOpen _ _ _ _ hOk
              · cases hDb
    · intro db' hDb
      exact hOpen env config {} db' (ok_of_toOption hDb)
  exact hAll db h

theorem life_sound {codec : Codec} {maxFileSize : Nat} {env : OpenEnv} {config : Z1Config}
    {ops : List LifeOp} {db : Engine} (h : (life codec maxFileSize env config ops).2 = some db) :
    db.Sound :=
  life_induct (fun _ _ _ _ hOpen => Engine.sound_of_open hOpen) (fun _ op hSound => hSound.step op) h

end Z1Kv
