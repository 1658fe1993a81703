import Mathlib.Logic.Relation
import Z1Kv.Txn.Steps

/-! A begin, a write and a commit step by step: each step is what the call does under one
lock. The maintenance after a commit is not a part of it. -/
namespace Z1Kv

/-- How far a call has got. -/
inductive CallPhase
  | idle
  | checkedWrite (e : Z1Entry)
  | recordedWrite (e : Z1Entry)
  | loggedWrite (e : Z1Entry)
  | insertedWrite (e : Z1Entry)
  | written
  | checkedCommit (txnId : TxnId)
  | loggedCommit (txnId : TxnId) (insertedAt : Nat)
  | committed (txnId : TxnId)
  | begun (txnId : TxnId)
  | refused (e : Z1Error)

/-- What the next step of the call inserts into the hot buffer. -/
def CallPhase.inserts : CallPhase → List Z1Entry
  | .loggedWrite e => [e]
  | _ => []

open CallPhase in
/-- One step of a call. -/
inductive CallStep (codec : Codec) : CallPhase × Engine → CallPhase × Engine → Prop
  | begin (db db' : Engine) (txnId : TxnId) (h : db.beginTxn = (.ok txnId, db')) :
      CallStep codec (idle, db) (begun txnId, db')
  | beginFails (db db' : Engine) (e : Z1Error) (h : db.beginTxn = (.error e, db')) :
      CallStep codec (idle, db) (refused e, db')
  | refuse (db : Engine) (txnId : TxnId) (e : Z1Error) (h : db.ensureActiveTxn txnId = .error e) :
      CallStep codec (idle, db) (refused e, db)
  | checkWrite (db : Engine) (e : Z1Entry) (h : db.ensureActiveTxn e.txnId = .ok ()) :
      CallStep codec (idle, db) (checkedWrite e, db)
  | recordWrite (db : Engine) (e : Z1Entry) :
      CallStep codec (checkedWrite e, db)
        (recordedWrite e, { db with mvcc := db.mvcc.recordWrite e.txnId (conflictKey e.key.cf e.key.key) })
  | logWrite (db : Engine) (e : Z1Entry) :
      CallStep codec (recordedWrite e, db) (loggedWrite e, db.logPut codec e)
  | insertWrite (db : Engine) (e : Z1Entry) :
      CallStep codec (loggedWrite e, db)
        (insertedWrite e,
          { db with store := { db.store with l1 := { db.store.l1 with hot := db.store.l1.hot.put e } } })
  | growHot (db : Engine) (e : Z1Entry) :
      CallStep codec (insertedWrite e, db)
        (written,
          { db with
            store :=
              { db.store with
                l1 :=
                  { db.store.l1 with
                    hotSizeBytes := db.store.l1.hotSizeBytes + MemStore.estimateSize e } } })
  | checkCommit (db : Engine) (txnId : TxnId) (h : db.ensureActiveTxn txnId = .ok ()) :
      CallStep codec (idle, db) (checkedCommit txnId, db)
  | logCommit (db : Engine) (txnId : TxnId) (insertedAt : Nat) (wal : WalWriter)
      (h : db.wal.appendDurable codec txnId (.commit txnId insertedAt) = (.ok (), wal)) :
      CallStep codec (checkedCommit txnId, db) (loggedCommit txnId insertedAt, { db with wal })
  | logCommitFails (db : Engine) (txnId : TxnId) (insertedAt : Nat) (wal : WalWriter) (e : Z1Error)
      (h : db.wal.appendDurable codec txnId (.commit txnId insertedAt) = (.error e, wal)) :
      CallStep codec (checkedCommit txnId, db) (refused e, { db with wal })
  | applyCommit (db db' : Engine) (txnId : TxnId) (env : CommitEnv)
      (h : db.applyCommit env txnId = (.ok (), db')) :
      CallStep codec (loggedCommit txnId env.insertedAt, db) (committed txnId, db')
  | applyCommitFails (db db' : Engine) (txnId : TxnId) (env : CommitEnv) (e : Z1Error)
      (h : db.applyCommit env txnId = (.error e, db')) :
      CallStep codec (loggedCommit txnId env.insertedAt, db) (refused e, db')

section Alone
variable {codec : Codec}

/-- The steps of a write that nothing interrupts are the write. -/
theorem write_steps (db : Engine) (cf : UInt16) (key : Bytes) (value : Option Bytes) (txnId : TxnId) :
    match db.write codec cf key value txnId with
    | (.ok (), db') => Relation.ReflTransGen (CallStep codec) (.idle, db) (.written, db')
    | (.error e, db') => Relation.ReflTransGen (CallStep codec) (.idle, db) (.refused e, db') := by
  rw [Engine.write]
  cases hActive : db.ensureActiveTxn txnId with
  | error e => exact .single (.refuse db txnId e hActive)
  | ok done =>
      let e : Z1Entry := ⟨⟨cf, key⟩, txnId, value⟩
      refine .head (.checkWrite db e hActive) (.head (.recordWrite db e) (.head (.logWrite _ e) ?_))
      exact .head (.insertWrite _ e) (.single (.growHot _ e))

/-- The steps of a commit that nothing interrupts are the commit; its maintenance
follows. -/
theorem commit_steps (db : Engine) (env : CommitEnv) (txnId : TxnId) :
    match db.commit codec env txnId with
    | (.ok (), db') => ∃ applied,
        Relation.ReflTransGen (CallStep codec) (.idle, db) (.committed txnId, applied) ∧
          db' = (applied.maybeAutoMaintain codec env.writes).2
    | (.error e, db') => Relation.ReflTransGen (CallStep codec) (.idle, db) (.refused e, db') := by
  rw [Engine.commit]
  cases hActive : db.ensureActiveTxn txnId with
  | error e => exact .single (.refuse db txnId e hActive)
  | ok done =>
      dsimp only
      cases hAppend : db.wal.appendDurable codec txnId (.commit txnId env.insertedAt) with
      | mk result wal =>
          cases result with
          | error e =>
              exact .head (.checkCommit db txnId hActive)
                (.single (.logCommitFails db txnId env.insertedAt wal e hAppend))
          | ok _ =>
              have hLogged : Relation.ReflTransGen (CallStep codec) (.idle, db)
                  (.loggedCommit txnId env.insertedAt, { db with wal }) :=
                .head (.checkCommit db txnId hActive)
                  (.single (.logCommit db txnId env.insertedAt wal hAppend))
              dsimp only
              cases hApply : Engine.applyCommit { db with wal } env txnId with
              | mk result applied =>
                  cases result with
                  | error e => exact hLogged.tail (.applyCommitFails _ applied txnId env e hApply)
                  | ok _ => exact ⟨applied, hLogged.tail (.applyCommit _ applied txnId env hApply), rfl⟩

end Alone

section Effects
variable {codec : Codec} {phase phase' : CallPhase} {db db' : Engine}

theorem Engine.beginTxn_store (db : Engine) : db.beginTxn.2.store = db.store := by
  rcases db.beginAttempts_cases 16 with ⟨e, counter, cache, hEq, -⟩ | ⟨txnId, mvcc, cache, -, -, -, hEq⟩
  · rw [beginTxn, hEq]
  · rw [beginTxn, hEq]

theorem Engine.applyCommit_store (db : Engine) (env : CommitEnv) (txnId : TxnId) :
    (db.applyCommit env txnId).2.store = db.store := by
  unfold applyCommit
  split
  · rfl
  · rfl

/-- A call changes the layers by the version that it inserts. -/
theorem CallStep.store_eq (h : CallStep codec (phase, db) (phase', db')) :
    ∃ size, db'.store =
      { db.store with
        l1 := { db.store.l1 with hot := db.store.l1.hot.putAll phase.inserts, hotSizeBytes := size } } := by
  have hSame : ∀ {db' : Engine}, db'.store = db.store → ∃ size, db'.store =
      { db.store with
        l1 := { db.store.l1 with hot := db.store.l1.hot.putAll [], hotSizeBytes := size } } :=
    fun hStore => ⟨db.store.l1.hotSizeBytes, hStore⟩
  cases h with
  | begin _ _ txnId hBegin =>
      have hStore := db.beginTxn_store
      rw [hBegin] at hStore
      exact hSame hStore
  | beginFails _ _ e hBegin =>
      have hStore := db.beginTxn_store
      rw [hBegin] at hStore
      exact hSame hStore
  | insertWrite _ e => exact ⟨_, rfl⟩
  | growHot _ e => exact ⟨_, rfl⟩
  | applyCommit _ _ txnId env hApply =>
      have hStore := db.applyCommit_store env txnId
      rw [hApply] at hStore
      exact hSame hStore
  | applyCommitFails _ _ txnId env e hApply =>
      have hStore := db.applyCommit_store env txnId
      rw [hApply] at hStore
      exact hSame hStore
  | _ => exact hSame rfl

end Effects
end Z1Kv
