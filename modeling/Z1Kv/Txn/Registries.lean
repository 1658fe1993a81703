import Z1Kv.Txn.Accepted

/-! The two registries of active transactions: the manager's table and the pinned
snapshots of the engine. Begin, commit and rollback change both, with exits between;
here every append to the log may fail, those of the maintenance included. -/
namespace Z1Kv

/-- Outcomes of the log operations of the maintenance: the sync before the checkpoint and
the append of its marker. -/
structure MaintainIo where
  synced : Bool := true
  marker : AppendIo := {}

namespace Engine
variable (codec : Codec)

/-- `checkpoint` with the outcomes of its log operations. -/
def checkpointIo (io : MaintainIo) (db : Engine) (writes : Writes) : Except Z1Error Unit × Engine :=
  match db.flushNow writes with
  | (.error e, db) => (.error e, db)
  | (.ok _, db) =>
      match db.wal.flushAndSync codec with
      | (.error e, wal) => (.error e, { db with wal })
      | (.ok (), wal) =>
          let db := { db with wal }
          if io.synced = false then (.error (.io .other), db)
          else
            let state := db.checkpointState
            match db.writeCheckpoint writes state with
            | (.error e, db) => (.error e, db)
            | (.ok (), db) =>
                match db.wal.appendDurableIo codec io.marker state.committedTxn
                    (.checkpoint state.checkpointId) with
                | (.error e, wal) => (.error e, { db with wal })
                | (.ok (), wal) => truncateWal { db with wal }

def maintainCheckpointIo (io : MaintainIo) (db : Engine) (writes : Writes) :
    Except Z1Error Unit × Engine :=
  if db.config.checkpointWalSizeThreshold > 0 ∧
      db.wal.dir.sizeBytes ≥ db.config.checkpointWalSizeThreshold then
    db.checkpointIo codec io writes
  else (.ok (), db)

def maybeAutoMaintainIo (io : MaintainIo) (db : Engine) (writes : Writes) :
    Except Z1Error Unit × Engine :=
  match db.maintainCheckpointIo codec io writes with
  | (.error e, db) => (.error e, db)
  | (.ok (), db) => db.maintainCompaction writes

/-- `commit` with the outcomes of its own append and of the maintenance. -/
def commitAndMaintainIo (io : AppendIo) (maintain : MaintainIo) (db : Engine) (env : CommitEnv)
    (txnId : TxnId) : Except Z1Error Unit × Engine :=
  match db.ensureActiveTxn txnId with
  | .error e => (.error e, db)
  | .ok () =>
      match db.wal.appendDurableIo codec io txnId (.commit txnId env.insertedAt) with
      | (.error e, wal) => (.error e, { db with wal })
      | (.ok (), wal) =>
          match applyCommit { db with wal } env txnId with
          | (.error e, db) => (.error e, db)
          | (.ok (), db) => (.ok (), (db.maybeAutoMaintainIo codec maintain env.writes).2)

end Engine

/-- The calls of a transaction, with the outcomes of their appends. -/
inductive TxnCall
  | begin
  | getForTxn (cf : UInt16) (key : Bytes) (txnId : TxnId)
  | put (cf : UInt16) (key value : Bytes) (txnId : TxnId) (io : AppendIo)
  | delete (cf : UInt16) (key : Bytes) (txnId : TxnId) (io : AppendIo)
  | commit (txnId : TxnId) (env : CommitEnv) (io : AppendIo) (maintain : MaintainIo)
  | rollback (txnId : TxnId) (io : AppendIo)

/-- The transaction that a call names. -/
def TxnCall.txn? : TxnCall → Option TxnId
  | .begin => none
  | .getForTxn _ _ txnId | .put _ _ _ txnId _ | .delete _ _ txnId _ | .commit txnId _ _ _
  | .rollback txnId _ => some txnId

namespace Engine

def txnStep (codec : Codec) (db : Engine) : TxnCall → Reply × Engine
  | .begin => db.beginTxn.map (Reply.ofResult Reply.began) id
  | .getForTxn cf key txnId => (db.getForTxn cf key txnId).map (Reply.ofResult Reply.value) id
  | .put cf key value txnId io =>
      (db.writeIo codec io cf key (some value) txnId).map (Reply.ofResult fun _ => .done) id
  | .delete cf key txnId io =>
      (db.writeIo codec io cf key none txnId).map (Reply.ofResult fun _ => .done) id
  | .commit txnId env io maintain =>
      (db.commitAndMaintainIo codec io maintain env txnId).map (Reply.ofResult fun _ => .done) id
  | .rollback txnId io => (db.rollbackIo codec io txnId).map (Reply.ofResult fun _ => .done) id

/-- The registries name the same transactions, each under the id that it began with. -/
structure Registered (db : Engine) : Prop where
  keys : ∀ t, t ∈ db.txnSnapshots ↔ t ∈ db.mvcc.activeTxns
  starts : ∀ t txn, AList.lookup t db.mvcc.activeTxns = some txn → txn.beginTs = t

section
variable {codec : Codec} {db : Engine}

/-- An engine with the registries of another one. -/
theorem Registered.congr {db' : Engine} (h : db.Registered) (hMvcc : db'.mvcc = db.mvcc)
    (hPinned : db'.txnSnapshots = db.txnSnapshots) : db'.Registered := by
  constructor
  · intro t
    rw [hMvcc, hPinned]
    exact h.keys t
  · intro t txn hLookup
    rw [hMvcc] at hLookup
    exact h.starts t txn hLookup

/-- A begin that succeeds enters its transaction in both. -/
theorem Registered.began {db' : Engine} {txnId : TxnId} {m : VisibilityManager} {snap : TxnSnapshot}
    (h : db.Registered) (hBegin : db.mvcc.beginTxn txnId = .ok m) (hMvcc : db'.mvcc = m)
    (hPinned : db'.txnSnapshots = AList.insert txnId snap db.txnSnapshots) : db'.Registered := by
  obtain ⟨-, -, hActive⟩ := VisibilityManager.beginTxn_eq_ok hBegin
  subst hActive
  constructor
  · intro t
    rw [hMvcc, hPinned, AList.mem_insert, AList.mem_insert, h.keys t]
  · intro t txn hLookup
    rw [hMvcc] at hLookup
    by_cases hTxn : t = txnId
    · subst hTxn
      rw [AList.lookup_insert] at hLookup
      rw [← Option.some.inj hLookup]
    · rw [AList.lookup_insert_ne hTxn] at hLookup
      exact h.starts t txn hLookup

/-- A transaction that ends leaves both. -/
theorem Registered.ended {db' : Engine} {txnId : TxnId} (h : db.Registered)
    (hMvcc : db'.mvcc.activeTxns = AList.erase txnId db.mvcc.activeTxns)
    (hPinned : db'.txnSnapshots = AList.erase txnId db.txnSnapshots) : db'.Registered := by
  constructor
  · intro t
    rw [hMvcc, hPinned, AList.mem_erase, AList.mem_erase, h.keys t]
  · intro t txn hLookup
    rw [hMvcc] at hLookup
    by_cases hTxn : t = txnId
    · subst hTxn
      rw [AList.lookup_erase] at hLookup
      cases hLookup
    · rw [AList.lookup_erase_ne hTxn] at hLookup
      exact h.starts t txn hLookup

/-- A read or a write of a transaction adds to its key sets. -/
theorem Registered.modifyActive {db' : Engine} {txnId : TxnId} {f : TxnMeta → TxnMeta}
    (h : db.Registered) (hBeginTs : ∀ txn, (f txn).beginTs = txn.beginTs)
    (hMvcc : db'.mvcc = db.mvcc.modifyActive txnId f)
    (hPinned : db'.txnSnapshots = db.txnSnapshots) : db'.Registered := by
  constructor
  · intro t
    rw [hMvcc, hPinned, VisibilityManager.mem_modifyActive]
    exact h.keys t
  · intro t txn hLookup
    rw [hMvcc] at hLookup
    obtain ⟨old, hOld, ⟨-, rfl⟩ | ⟨-, rfl⟩⟩ := VisibilityManager.lookup_modifyActive hLookup
    · exact (hBeginTs old).trans (h.starts t old hOld)
    · exact h.starts t txn hOld

/-- A checkpoint, wherever it stops, leaves the transactions alone. -/
theorem checkpointIo_sameTxns (codec : Codec) (io : MaintainIo) (db : Engine) (writes : Writes) :
    db.SameTxns (db.checkpointIo codec io writes).2 := by
  unfold checkpointIo flushNow
  dsimp only
  generalize db.store.flushL1ToL2 writes.patch = flushed
  obtain ⟨result, store⟩ := flushed
  cases result with
  | error e => exact ⟨rfl, rfl, rfl, rfl, rfl⟩
  | ok groups =>
      dsimp only
      generalize db.wal.flushAndSync codec = synced
      obtain ⟨result, wal⟩ := synced
      cases result with
      | error e => exact ⟨rfl, rfl, rfl, rfl, rfl⟩
      | ok _ =>
          dsimp only
          split
          · exact ⟨rfl, rfl, rfl, rfl, rfl⟩
          · dsimp only [checkpointState, writeCheckpoint]
            generalize db.checkpoints.write writes _ = written
            obtain ⟨result, checkpoints⟩ := written
            cases result with
            | error e => exact ⟨rfl, rfl, rfl, rfl, rfl⟩
            | ok _ =>
                dsimp only
                generalize wal.appendDurableIo codec io.marker _ _ = appended
                obtain ⟨result, wal⟩ := appended
                cases result <;> exact ⟨rfl, rfl, rfl, rfl, rfl⟩

theorem maybeAutoMaintainIo_sameTxns (codec : Codec) (io : MaintainIo) (db : Engine) (writes : Writes) :
    db.SameTxns (db.maybeAutoMaintainIo codec io writes).2 := by
  have hSame : db.SameTxns (db.maintainCheckpointIo codec io writes).2 := by
    unfold maintainCheckpointIo
    split
    · exact db.checkpointIo_sameTxns codec io writes
    · exact .refl db
  unfold maybeAutoMaintainIo
  generalize db.maintainCheckpointIo codec io writes = checkpointed at hSame
  obtain ⟨result, after⟩ := checkpointed
  cases result with
  | error e => exact hSame
  | ok _ =>
      obtain ⟨hSame', -⟩ := after.maintainCompaction_spec writes
      exact ⟨hSame'.config.trans hSame.config, hSame'.mvcc.trans hSame.mvcc,
        hSame'.snapshotCache.trans hSame.snapshotCache,
        hSame'.txnSnapshots.trans hSame.txnSnapshots, hSame'.txnCounter.trans hSame.txnCounter⟩

/-- Why an append fails. -/
theorem appendIo_error {w w' : WalWriter} {io : AppendIo} {txnId t : TxnId} {record : WalRecord}
    {e : Z1Error} (h : w.appendIo codec io txnId record = (.error e, w')) : e ≠ .txnNotFound t := by
  unfold WalWriter.appendIo at h
  split at h
  · cases (Prod.mk.inj h).1
  · by_cases hFits : codec.Fits ⟨txnId, record⟩
    · rw [codec.encodeRecord_of_fits hFits] at h
      dsimp only [WalWriter.appendEncodedIo, WalWriter.writeIo] at h
      split at h
      · split at h
        · split at h <;> cases (Prod.mk.inj h).1
          simp
        · cases (Prod.mk.inj h).1
          simp
      · split at h <;> cases (Prod.mk.inj h).1
        simp
    · rw [codec.encodeRecord_refused hFits] at h
      cases (Prod.mk.inj h).1
      simp

theorem appendDurableIo_error {w w' : WalWriter} {io : AppendIo} {txnId t : TxnId}
    {record : WalRecord} {e : Z1Error}
    (h : w.appendDurableIo codec io txnId record = (.error e, w')) : e ≠ .txnNotFound t := by
  unfold WalWriter.appendDurableIo at h
  split at h
  · cases (Prod.mk.inj h).1
  · split at h
    · next e' after hAppend =>
      cases (Prod.mk.inj h).1
      exact appendIo_error hAppend
    · split at h <;> cases (Prod.mk.inj h).1
      simp

/-- A call of a transaction: it fails for want of its transaction exactly if the
registries do not have it, and they agree afterwards. -/
def KeepsRegistries {α : Type} (db : Engine) (t : TxnId) (outcome : Except Z1Error α × Engine) : Prop :=
  outcome.2.Registered ∧ (outcome.1 = .error (.txnNotFound t) ↔ t ∉ db.mvcc.activeTxns)

theorem KeepsRegistries.reply {α : Type} {t : TxnId} {outcome : Except Z1Error α × Engine}
    (h : db.KeepsRegistries t outcome) (ok : α → Reply) (hOk : ∀ a e, ok a ≠ .failed e) :
    (outcome.map (Reply.ofResult ok) id).2.Registered ∧
      ((outcome.map (Reply.ofResult ok) id).1 = .failed (.txnNotFound t) ↔ t ∉ db.mvcc.activeTxns) := by
  obtain ⟨result, after⟩ := outcome
  refine ⟨h.1, Iff.trans ?_ h.2⟩
  cases result with
  | error e => simp [Reply.ofResult]
  | ok a => simpa [Reply.ofResult] using hOk a _

/-- A call that fails before anything else when its transaction is not active. -/
theorem Registered.refused {α : Type} (h : db.Registered) {t : TxnId} (hNot : t ∉ db.mvcc.activeTxns) :
    db.KeepsRegistries t ((.error (.txnNotFound t) : Except Z1Error α), db) :=
  ⟨h, iff_of_true rfl hNot⟩

theorem Registered.beginTxn (h : db.Registered) : db.beginTxn.2.Registered := by
  rcases db.beginAttempts_cases 16 with ⟨e, counter, cache, hEq, -⟩ | ⟨t, m, cache, hBegin, -, -, hEq⟩
  · rw [Engine.beginTxn, hEq]
    exact h.congr rfl rfl
  · rw [Engine.beginTxn, hEq]
    exact h.began hBegin rfl rfl

theorem Registered.writeIo (h : db.Registered) (codec : Codec) (io : AppendIo) (cf : UInt16) (key : Bytes)
    (value : Option Bytes) (t : TxnId) :
    db.KeepsRegistries t (db.writeIo codec io cf key value t) := by
  by_cases hActive : t ∈ db.mvcc.activeTxns
  · rcases db.write_cases codec cf key value t with ⟨hNot, -⟩ | ⟨-, hEq⟩
    · exact absurd hActive hNot
    · rw [writeIo_eq hActive, hEq]
      refine ⟨?_, by simp [hActive]⟩
      exact h.modifyActive (f := (·.recordWrite (conflictKey cf key))) (fun _ => rfl) rfl rfl
  · rw [writeIo_inactive hActive]
    exact h.refused hActive

theorem Registered.getForTxn (h : db.Registered) (cf : UInt16) (key : Bytes) (t : TxnId) :
    db.KeepsRegistries t (db.getForTxn cf key t) := by
  unfold Engine.getForTxn
  cases hPinned : AList.lookup t db.txnSnapshots with
  | none =>
      refine h.refused fun hActive => ?_
      exact AList.lookup_eq_none.mp hPinned ((h.keys t).mpr hActive)
  | some snap =>
      have hActive : t ∈ db.mvcc.activeTxns :=
        (h.keys t).mp (FinMap.mem_iff_lookup.mpr ⟨snap, hPinned⟩)
      refine ⟨?_, by simp [hActive]⟩
      exact h.modifyActive (f := (·.recordRead (conflictKey cf key))) (fun _ => rfl) rfl rfl

theorem Registered.rollbackIo (h : db.Registered) (codec : Codec) (io : AppendIo) (t : TxnId) :
    db.KeepsRegistries t (db.rollbackIo codec io t) := by
  unfold Engine.rollbackIo
  rcases db.ensureActiveTxn_cases t with ⟨hActive, hOk⟩ | ⟨hNot, hErr⟩
  · rw [hOk]
    dsimp only
    cases hAppend : db.wal.appendIo codec io t .rollback with
    | mk result wal =>
        cases result with
        | error e =>
            have hOther : e ≠ .txnNotFound t := appendIo_error hAppend
            exact ⟨h.congr rfl rfl, by simp [hActive, hOther]⟩
        | ok _ => exact ⟨h.ended rfl rfl, by simp [hActive]⟩
  · rw [hErr]
    exact h.refused hNot

/-- The apply phase ends the transaction in both registries, conflict or not. -/
theorem Registered.applyCommit (h : db.Registered) (env : CommitEnv) {t : TxnId}
    (hActive : t ∈ db.mvcc.activeTxns) :
    (db.applyCommit env t).2.Registered ∧ (db.applyCommit env t).1 ≠ .error (.txnNotFound t) := by
  unfold Engine.applyCommit
  rcases db.mvcc.commitTxn_cases env.order t env.insertedAt env.ts env.nowMs with
    ⟨hNot, -⟩ | ⟨txn, conflict, -, -, hEq⟩ | ⟨txn, -, -, hEq⟩
  · exact absurd hActive hNot
  · rw [hEq]
    exact ⟨h.ended rfl rfl, by simp⟩
  · rw [hEq]
    exact ⟨h.ended (db.mvcc.committed_activeTxns _ _ _ _ _) rfl, by simp⟩

theorem Registered.commitAndMaintainIo (h : db.Registered) (codec : Codec) (io : AppendIo)
    (maintain : MaintainIo) (env : CommitEnv) (t : TxnId) :
    db.KeepsRegistries t (db.commitAndMaintainIo codec io maintain env t) := by
  unfold Engine.commitAndMaintainIo
  rcases db.ensureActiveTxn_cases t with ⟨hActive, hOk⟩ | ⟨hNot, hErr⟩
  · rw [hOk]
    dsimp only
    cases hAppend : db.wal.appendDurableIo codec io t (.commit t env.insertedAt) with
    | mk result wal =>
        cases result with
        | error e =>
            have hOther : e ≠ .txnNotFound t := appendDurableIo_error hAppend
            exact ⟨h.congr rfl rfl, by simp [hActive, hOther]⟩
        | ok _ =>
            have hLogged : Engine.Registered { db with wal } := h.congr rfl rfl
            obtain ⟨hApplied, hOther⟩ := hLogged.applyCommit env hActive
            dsimp only
            generalize Engine.applyCommit { db with wal } env t = applied at hApplied hOther
            obtain ⟨result, after⟩ := applied
            cases result with
            | error e => exact ⟨hApplied, by simpa [hActive] using hOther⟩
            | ok _ =>
                have hSame := after.maybeAutoMaintainIo_sameTxns codec maintain env.writes
                exact ⟨hApplied.congr hSame.mvcc hSame.txnSnapshots, by simp [hActive]⟩
  · rw [hErr]
    exact h.refused hNot

/-- Every call keeps the registries in step and is refused exactly if they lack its
transaction. -/
theorem Registered.step (h : db.Registered) (call : TxnCall) :
    (db.txnStep codec call).2.Registered ∧ ∀ t, call.txn? = some t →
      ((db.txnStep codec call).1 = .failed (.txnNotFound t) ↔ t ∉ db.mvcc.activeTxns) := by
  cases call with
  | begin => exact ⟨h.beginTxn, by simp [TxnCall.txn?]⟩
  | getForTxn cf key txnId =>
      have hReply := (h.getForTxn cf key txnId).reply Reply.value (by simp)
      exact ⟨hReply.1, fun t ht => Option.some.inj ht ▸ hReply.2⟩
  | put cf key value txnId io =>
      have hReply := (h.writeIo codec io cf key (some value) txnId).reply (fun _ => .done) (by simp)
      exact ⟨hReply.1, fun t ht => Option.some.inj ht ▸ hReply.2⟩
  | delete cf key txnId io =>
      have hReply := (h.writeIo codec io cf key none txnId).reply (fun _ => .done) (by simp)
      exact ⟨hReply.1, fun t ht => Option.some.inj ht ▸ hReply.2⟩
  | commit txnId env io maintain =>
      have hReply := (h.commitAndMaintainIo codec io maintain env txnId).reply (fun _ => .done)
        (by simp)
      exact ⟨hReply.1, fun t ht => Option.some.inj ht ▸ hReply.2⟩
  | rollback txnId io =>
      have hReply := (h.rollbackIo codec io txnId).reply (fun _ => .done) (by simp)
      exact ⟨hReply.1, fun t ht => Option.some.inj ht ▸ hReply.2⟩

/-- With the registries in step the pinned snapshots add nothing to the watermark. -/
theorem Registered.gcWatermark (h : db.Registered) : db.gcWatermark = db.mvcc.oldestActiveBeginTs := by
  have hStarts : (db.mvcc.activeTxns.entries.map fun e => e.2.beginTs) = db.mvcc.activeTxns.keys := by
    rw [AList.keys, List.keys]
    apply List.map_congr_left
    intro e he
    exact h.starts e.1 e.2 (FinMap.mem_entries.mp he)
  have hSame : db.txnSnapshots.keys.min? = db.mvcc.activeTxns.keys.min? := by
    have hKeys : ∀ t, t ∈ db.txnSnapshots.keys ↔ t ∈ db.mvcc.activeTxns.keys := fun t =>
      (AList.mem_keys.symm.trans (h.keys t)).trans AList.mem_keys
    cases hMin : db.mvcc.activeTxns.keys.min? with
    | none =>
        rw [List.min?_eq_none_iff] at hMin ⊢
        refine List.eq_nil_iff_forall_not_mem.mpr fun t ht => ?_
        rw [hKeys, hMin] at ht
        cases ht
    | some least =>
        rw [List.min?_eq_some_iff] at hMin ⊢
        exact ⟨(hKeys least).mpr hMin.1, fun t ht => hMin.2 t ((hKeys t).mp ht)⟩
  unfold Engine.gcWatermark VisibilityManager.oldestActiveBeginTs
  rw [hStarts, hSame, min_self]

theorem registered_of_open {maxFileSize : Nat} {env : OpenEnv} {config : Z1Config} {dir : DataDir}
    (hOpen : Engine.openWithConfig codec maxFileSize env config dir = .ok db) : db.Registered := by
  obtain ⟨recovery, l1, -, rfl⟩ := openWithConfig_cases hOpen
  have hNone : ∀ t, t ∉ (∅ : FinMap TxnId TxnMeta) := fun t => AList.notMem_empty t
  have hActive := (VisibilityManager.recoverCommittedHistory_spec
    ((VisibilityManager.newWithConfig config.visibility).setCommittedTxn
      (max (dir.checkpoints.recoveryBaseline.getD (0, [])).1 recovery.maxSeenCommittedTxn))
    ((mergeHistory (dir.checkpoints.recoveryBaseline.getD (0, [])).2
      recovery.commitTsMap).entries.map fun e => (e.1, e.2)) recovery.insertedAtMap env.now).1
  constructor
  · intro t
    dsimp only [VisibilityManager.setReplayWatermark]
    rw [hActive]
    exact iff_of_false (AList.notMem_empty t) (hNone t)
  · intro t txn hLookup
    dsimp only [VisibilityManager.setReplayWatermark] at hLookup
    rw [hActive] at hLookup
    exact absurd (FinMap.mem_iff_lookup.mpr ⟨txn, hLookup⟩) (hNone t)

end
end Engine

/-- After every run of calls, whatever became of their log records, the pinned snapshots
are those of the active transactions; all calls of a transaction that is not active are
refused alike, and the GC watermark is that of the active transactions. -/
theorem registries_agree {codec : Codec} {maxFileSize : Nat} {env : OpenEnv} {config : Z1Config}
    {dir : DataDir} {db : Engine}
    (hOpen : Engine.openWithConfig codec maxFileSize env config dir = .ok db) (calls : List TxnCall) :
    let after := (runs (Engine.txnStep codec) db calls).2
    (∀ t, t ∈ after.txnSnapshots ↔ t ∈ after.mvcc.activeTxns) ∧
      (∀ call t, TxnCall.txn? call = some t →
        ((after.txnStep codec call).1 = .failed (.txnNotFound t) ↔ t ∉ after.mvcc.activeTxns)) ∧
      after.gcWatermark = after.mvcc.oldestActiveBeginTs := by
  intro after
  have hAfter : after.Registered :=
    @runs_invariant _ _ _ _ (fun _ (db : Engine) => db.Registered) (fun _ _ _ => True)
      (fun _ _ call h _ => (h.step call).1) [] _ _ (Engine.registered_of_open hOpen)
      (EachMeets.of_forall fun _ _ => trivial)
  exact ⟨hAfter.keys, fun call t ht => (hAfter.step call).2 t ht, hAfter.gcWatermark⟩

/-- Two transactions write one key. The Commit record of the first does not reach the
disk; the second conflicts with it, and a third is rolled back. -/
def failingCalls : List TxnCall :=
  [.begin, .begin, .begin, .put 0 [107] [1] 1 {}, .put 0 [107] [2] 2 { failsAfter := some 0 },
    .commit 1 ⟨0, 0, 0, .listed, .succeed⟩ { synced := false } {},
    .commit 2 ⟨0, 0, 0, .listed, .succeed⟩ {} {}, .rollback 3 {}]

theorem registries_agree_after_failures :
    ∃ db, Engine.openWithConfig Postcard.codec engineSegmentSize (.listed 0) {} {} = .ok db ∧
      let after := (runs (Engine.txnStep Postcard.codec) db failingCalls).2
      after.mvcc.activeTxns.keys = [1] ∧ (∀ t, t ∈ after.txnSnapshots ↔ t ∈ after.mvcc.activeTxns) ∧
        (∀ call t, TxnCall.txn? call = some t →
          ((after.txnStep Postcard.codec call).1 = .failed (.txnNotFound t) ↔
            t ∉ after.mvcc.activeTxns)) ∧
        after.gcWatermark = after.mvcc.oldestActiveBeginTs := by
  have hRun : (Engine.openWithConfig Postcard.codec engineSegmentSize (.listed 0) {} {}).toOption.map
      (fun db => (runs (Engine.txnStep Postcard.codec) db failingCalls).2.mvcc.activeTxns.keys) =
        some [1] := by decide +kernel
  obtain ⟨db, hDb, hKeys⟩ := Option.map_eq_some_iff.mp hRun
  exact ⟨db, ok_of_toOption hDb, hKeys, registries_agree (ok_of_toOption hDb) failingCalls⟩

end Z1Kv
