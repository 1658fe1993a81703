import Z1Kv.Txn.Calls
import Z1Kv.Txn.CheckpointSteps
import Z1Kv.Txn.Eviction
import Z1Kv.Txn.Uncommitted

/-! A checkpoint beside begins, writes and commits, each taking its steps whenever it
likes. What a transaction wrote last for a version is on its way into the hot buffer, in
the hot buffer, in the hands of the checkpoint, or in L2 or L3. -/
namespace Z1Kv

/-- The transaction that a call is at work on, and the key if it writes. A write is done
with its version once that is in the hot buffer. -/
def CallPhase.work? : CallPhase → Option (TxnId × Option Z1Key)
  | .checkedWrite e | .recordedWrite e | .loggedWrite e => some (e.txnId, some e.key)
  | .checkedCommit txnId | .loggedCommit txnId _ => some (txnId, none)
  | _ => none

/-- Two calls on one transaction, one of which commits, or both of which write one key. -/
def CallPhase.Clash (a b : CallPhase) : Prop :=
  ∃ t x y, a.work? = some (t, x) ∧ b.work? = some (t, y) ∧ (x = none ∨ y = none ∨ x = y)

/-- What a call adds to the journal when it gets here. A write counts from its record
on. -/
def CallPhase.news : CallPhase → News
  | .begun txnId => .began txnId
  | .loggedWrite e => .wrote e
  | .committed txnId => .committed txnId
  | _ => .other

/-- The last value that its transaction has written for a version. -/
def FinalWrite (j : List News) (e : Z1Entry) : Prop := LastOf (·.id = e.id) (writesOf j e.txnId) e

namespace CheckpointPhase

/-- The patches still to be written. -/
def groups : CheckpointPhase → List (UInt16 × List PatchEntry)
  | .patching groups => groups
  | _ => []

/-- The state that the checkpoint has read and not yet made the latest one. -/
def read? : CheckpointPhase → Option CheckpointState
  | .captured state | .filed state => some state
  | _ => none

/-- The position below which segments are being deleted. -/
def floor : CheckpointPhase → Nat
  | .deleting pos => pos
  | _ => 0

/-- What the flush has taken from the hot buffer and not yet written. A failed flush
leaves it in the cache, for the next one. -/
def InHand (cache : VersionMap) (e : Z1Entry) : CheckpointPhase → Prop
  | .start | .ended _ => e ∈ cache.values
  | .patching groups => ∃ group ∈ groups, ∃ pe ∈ group.2, pe.toZ1Entry group.1 = e
  | _ => False

end CheckpointPhase

/-- The engine, its calls and its checkpoint. `journal` is not a part of the program. -/
structure Traffic where
  db : Engine
  calls : Nat → CallPhase := fun _ => .idle
  checkpoint : CheckpointPhase := .ended (.ok ())
  journal : List News := []

namespace Traffic

/-- A call gets to its next phase. -/
def afterCall (s : Traffic) (i : Nat) (phase : CallPhase) (db : Engine) : Traffic :=
  { s with
    db
    calls := Function.update s.calls i phase
    journal := s.journal ++ [phase.news] }

section
variable (s : Traffic) (i : Nat) (phase : CallPhase) (db : Engine)

@[simp] theorem afterCall_db : (s.afterCall i phase db).db = db := rfl

@[simp] theorem afterCall_checkpoint : (s.afterCall i phase db).checkpoint = s.checkpoint := rfl

@[simp] theorem afterCall_journal :
    (s.afterCall i phase db).journal = s.journal ++ [phase.news] := rfl

@[simp] theorem afterCall_self : (s.afterCall i phase db).calls i = phase :=
  Function.update_self _ _ _

theorem afterCall_of_ne {k : Nat} (h : k ≠ i) : (s.afterCall i phase db).calls k = s.calls k :=
  Function.update_of_ne h _ _

/-- After the step, a call in a phase is the one that took it, or was there before. -/
theorem exists_afterCall {p : CallPhase → Prop} :
    (∃ k, p ((s.afterCall i phase db).calls k)) ↔ p phase ∨ ∃ k, k ≠ i ∧ p (s.calls k) := by
  constructor
  · rintro ⟨k, hk⟩
    by_cases hSame : k = i
    · rw [hSame, afterCall_self] at hk
      exact Or.inl hk
    · rw [afterCall_of_ne _ _ _ _ hSame] at hk
      exact Or.inr ⟨k, hSame, hk⟩
  · rintro (hNew | ⟨k, hNe, hk⟩)
    · refine ⟨i, ?_⟩
      rwa [afterCall_self]
    · refine ⟨k, ?_⟩
      rwa [afterCall_of_ne _ _ _ _ hNe]

end

/-- Who takes the next step, and where it leads. -/
inductive Act
  | call (i : Nat) (phase : CallPhase)
  | checkpoint (phase : CheckpointPhase)
  | restart

/-- A new checkpoint begins after the last one has ended. -/
inductive Step (codec : Codec) : Traffic → Act → Traffic → Prop
  | call (s : Traffic) (i : Nat) (phase : CallPhase) (db : Engine)
      (h : CallStep codec (s.calls i, s.db) (phase, db)) :
      Step codec s (.call i phase) (s.afterCall i phase db)
  | checkpoint (s : Traffic) (phase : CheckpointPhase) (db : Engine)
      (h : CheckpointStep codec (s.checkpoint, s.db) (phase, db)) :
      Step codec s (.checkpoint phase) { s with db, checkpoint := phase }
  | restart (s : Traffic) (result : Except Z1Error Unit) (h : s.checkpoint = .ended result) :
      Step codec s .restart { s with checkpoint := .start }

/-- A write between its record and the hot buffer. -/
def Underway (s : Traffic) (e : Z1Entry) : Prop := ∃ k, s.calls k = .loggedWrite e

def OnDisk (s : Traffic) (e : Z1Entry) : Prop :=
  e ∈ s.db.store.l2.versions ∨ e ∈ s.db.store.l3.versions

/-- A version that has left the hot buffer for the disk: in a file of L2 or L3, also in
one that a failed write left there, or in a patch still to be written. -/
def Leaving (s : Traffic) (v : Z1Entry) : Prop :=
  v ∈ s.db.store.l2.files.flatMap Patch.versions ∨ v ∈ s.db.store.l3.files.flatMap Patch.versions ∨
    ∃ group ∈ s.checkpoint.groups, ∃ pe ∈ group.2, pe.toZ1Entry group.1 = v

/-- What the latest checkpoint knows is in the one that is to replace it, or whole in the
log. -/
def Remembers (codec : Codec) (s : Traffic) (state : CheckpointState) : Prop :=
  ∀ t ∈ s.db.checkpoints.history, writesOf s.journal t ≠ [] →
    t ∈ state.committedHistory.map Prod.fst ∨ s.db.LogsWhole codec s.journal t

/-- A transaction that has ended and that recovery does not need the log for: it has not
committed, or the latest checkpoint has it and nothing of it is in the hot buffer. -/
def Secured (s : Traffic) (t : TxnId) : Prop :=
  t ∉ s.db.mvcc.activeTxns ∧ (.committed t ∈ s.journal →
    t ∈ s.db.checkpoints.history ∧ ∀ v ∈ s.db.store.l1.hot.values, v.txnId ≠ t)

/-- The condition on a step. Calls do not clash; Put records fit; a version that left the
hot buffer is not written again with another value; a commit of a writer overlaps no
active transaction, so the check behind its durable record passes; a checkpoint forgets
no transaction that only the last one knew; segments are deleted only if the writers with
Put or Commit records in them are secured; the marker and the deletions do not fail. -/
def Spares (codec : Codec) (s : Traffic) : Act → Prop
  | .call i next =>
      match s.calls i with
      | .idle => ∀ k, ¬ next.Clash (s.calls k)
      | .recordedWrite e => codec.Fits e.logged
      | .loggedWrite e => ∀ v, s.Leaving v → v.id = e.id → v = e
      | .loggedCommit txnId _ => ∀ env, s.db.CommitsApart (.commit txnId env)
      | _ => True
  | .checkpoint next =>
      match s.checkpoint, next with
      | .captured state, .filed _ =>
          s.db.checkpoints.latest = some state.checkpointId → s.Remembers codec state
      | .filed state, .pointed _ => s.Remembers codec state
      | .pointed _, .ended _ => False
      | .marked, _ =>
          ∀ op, s.db.wal.dir.Below codec s.db.wal.position op → op.record ≠ .rollback →
            (∀ id, op.record ≠ .checkpoint id) → writesOf s.journal op.txnId ≠ [] →
              s.Secured op.txnId
      | .deleting _, .ended (.error _) => False
      | _, _ => True
  | .restart => True

/-- Runs, and runs whose steps all meet the condition. -/
abbrev Steps (codec : Codec) := Relation.ReflTransGen fun s s' => ∃ act, Step codec s act s'

abbrev SparingSteps (codec : Codec) :=
  Relation.ReflTransGen fun s s' => ∃ act, Step codec s act s' ∧ s.Spares codec act

end Traffic

section Calls
variable {codec : Codec} {phase phase' : CallPhase} {db db' : Engine} {t : TxnId}

theorem CallPhase.Clash.symm {a b : CallPhase} (h : a.Clash b) : b.Clash a := by
  obtain ⟨t, x, y, hA, hB, hKeys⟩ := h
  refine ⟨t, y, x, hB, hA, ?_⟩
  rcases hKeys with hNone | hNone | hSame
  · exact Or.inr (Or.inl hNone)
  · exact Or.inl hNone
  · exact Or.inr (Or.inr hSame.symm)

theorem CallPhase.not_clash_of_idle {a b : CallPhase} (h : a.work? = none) : ¬ a.Clash b := by
  rintro ⟨t, x, y, hA, -⟩
  rw [h] at hA
  cases hA

theorem Engine.beginTxn_ok (h : db.beginTxn = (.ok t, db')) :
    ∃ mvcc cache, db.mvcc.beginTxn t = .ok mvcc ∧ db.txnCounter ≤ t ∧ db' =
      { db with
        mvcc
        txnCounter := t + 1
        snapshotCache := cache
        txnSnapshots := AList.insert t mvcc.snapshot db.txnSnapshots } := by
  rcases db.beginAttempts_cases 16 with ⟨e, counter, cache, hEq, -⟩ |
    ⟨u, mvcc, cache, hOk, -, hId, hEq⟩
  · rw [beginTxn, hEq] at h
    cases (Prod.mk.inj h).1
  · rw [beginTxn, hEq] at h
    obtain ⟨hTxn, hDb⟩ := Prod.mk.inj h
    obtain rfl := Except.ok.inj hTxn
    exact ⟨mvcc, cache, hOk, hId, hDb.symm⟩

theorem Engine.beginTxn_error {e : Z1Error} (h : db.beginTxn = (.error e, db')) :
    ∃ counter cache, db.txnCounter ≤ counter ∧
      db' = { db with txnCounter := counter, snapshotCache := cache } := by
  rcases db.beginAttempts_cases 16 with ⟨e, counter, cache, hEq, -, hLe⟩ |
    ⟨u, mvcc, cache, -, -, -, hEq⟩
  · rw [beginTxn, hEq] at h
    exact ⟨counter, cache, hLe, (Prod.mk.inj h).2.symm⟩
  · rw [beginTxn, hEq] at h
    cases (Prod.mk.inj h).1

theorem Engine.applyCommit_checked {env : CommitEnv} (h : db.applyCommit env t = (.ok (), db')) :
    ∃ txn, AList.lookup t db.mvcc.activeTxns = some txn ∧
      db.mvcc.ssiConflict env.order t txn = none := by
  unfold applyCommit at h
  rcases db.mvcc.commitTxn_cases env.order t env.insertedAt env.ts env.nowMs with
    ⟨-, hEq⟩ | ⟨txn, conflict, -, -, hEq⟩ | ⟨txn, hLookup, hSsi, -⟩
  · rw [hEq] at h
    cases (Prod.mk.inj h).1
  · rw [hEq] at h
    cases (Prod.mk.inj h).1
  · exact ⟨txn, hLookup, hSsi⟩

/-- A commit that fails at the check ends its transaction. -/
theorem Engine.applyCommit_error {env : CommitEnv} {e : Z1Error}
    (h : db.applyCommit env t = (.error e, db')) :
    ∃ mvcc, db' = { db with mvcc, txnSnapshots := AList.erase t db.txnSnapshots } ∧
      (t ∉ db.mvcc.activeTxns ∧ mvcc = db.mvcc ∨
        ∃ txn conflict, AList.lookup t db.mvcc.activeTxns = some txn ∧
          db.mvcc.ssiConflict env.order t txn = some conflict ∧ mvcc = db.mvcc.abortTxn t) := by
  unfold applyCommit at h
  rcases db.mvcc.commitTxn_cases env.order t env.insertedAt env.ts env.nowMs with
    ⟨hNot, hEq⟩ | ⟨txn, conflict, hLookup, hSsi, hEq⟩ | ⟨txn, -, -, hEq⟩
  · rw [hEq] at h
    exact ⟨_, (Prod.mk.inj h).2.symm, Or.inl ⟨hNot, rfl⟩⟩
  · rw [hEq] at h
    exact ⟨_, (Prod.mk.inj h).2.symm, Or.inr ⟨txn, conflict, hLookup, hSsi, rfl⟩⟩
  · rw [hEq] at h
    cases (Prod.mk.inj h).1

/-- A call goes on with the work that it took up when it began. -/
theorem CallStep.work_cases (h : CallStep codec (phase, db) (phase', db')) :
    phase'.work? = none ∨ phase'.work? = phase.work? ∨
      phase = .idle ∧ db' = db ∧ ∀ t x, phase'.work? = some (t, x) → t ∈ db.mvcc.activeTxns := by
  have hActive : ∀ u, db.ensureActiveTxn u = .ok () → u ∈ db.mvcc.activeTxns := by
    intro u hOk
    rcases db.ensureActiveTxn_cases u with ⟨hIn, -⟩ | ⟨-, hErr⟩
    · exact hIn
    · rw [hErr] at hOk
      cases hOk
  cases h with
  | checkWrite _ e hOk =>
      refine Or.inr (Or.inr ⟨rfl, rfl, fun t x hWork => ?_⟩)
      obtain ⟨rfl, -⟩ := Prod.mk.inj (Option.some.inj hWork)
      exact hActive _ hOk
  | checkCommit _ t hOk =>
      refine Or.inr (Or.inr ⟨rfl, rfl, fun u x hWork => ?_⟩)
      obtain ⟨rfl, -⟩ := Prod.mk.inj (Option.some.inj hWork)
      exact hActive _ hOk
  | recordWrite => exact Or.inr (Or.inl rfl)
  | logWrite => exact Or.inr (Or.inl rfl)
  | logCommit => exact Or.inr (Or.inl rfl)
  | _ => exact Or.inl rfl

/-- Only its commit ends a transaction. -/
theorem CallStep.active (h : CallStep codec (phase, db) (phase', db')) (ht : t ∈ db.mvcc.activeTxns) :
    t ∈ db'.mvcc.activeTxns ∨ ∃ insertedAt, phase = .loggedCommit t insertedAt := by
  have hErased : ∀ (mvcc : VisibilityManager) u, mvcc.activeTxns = AList.erase u db.mvcc.activeTxns →
      t ∈ mvcc.activeTxns ∨ u = t := by
    intro mvcc u hActive
    by_cases hTxn : u = t
    · exact Or.inr hTxn
    · refine Or.inl ?_
      rw [hActive]
      exact AList.mem_erase.mpr ⟨Ne.symm hTxn, ht⟩
  cases h with
  | begin _ _ u hBegin =>
      obtain ⟨mvcc, cache, hOk, -, rfl⟩ := Engine.beginTxn_ok hBegin
      obtain ⟨-, -, rfl⟩ := VisibilityManager.beginTxn_eq_ok hOk
      exact Or.inl ((AList.mem_insert _).mpr (Or.inr ht))
  | beginFails _ _ e hBegin =>
      obtain ⟨counter, cache, -, rfl⟩ := Engine.beginTxn_error hBegin
      exact Or.inl ht
  | recordWrite => exact Or.inl (VisibilityManager.mem_modifyActive.mpr ht)
  | applyCommit _ _ u env hApply =>
      obtain rfl := Engine.applyCommit_ok hApply
      rcases hErased _ u (VisibilityManager.committed_activeTxns _ _ _ _ _ _) with hIn | rfl
      · exact Or.inl hIn
      · exact Or.inr ⟨_, rfl⟩
  | applyCommitFails _ _ u env e hApply =>
      obtain ⟨mvcc, rfl, ⟨-, rfl⟩ | ⟨txn, conflict, -, -, rfl⟩⟩ := Engine.applyCommit_error hApply
      · exact Or.inl ht
      · rcases hErased _ u (VisibilityManager.abortTxn_activeTxns _ _) with hIn | rfl
        · exact Or.inl hIn
        · exact Or.inr ⟨_, rfl⟩
  | _ => exact Or.inl ht

/-- Transactions go on with more written keys, or end; a begin adds a new one. -/
theorem CallStep.extends {txn : TxnMeta} (h : CallStep codec (phase, db) (phase', db'))
    (hLookup : AList.lookup t db'.mvcc.activeTxns = some txn) :
    (∃ old, AList.lookup t db.mvcc.activeTxns = some old ∧ old.Extends txn) ∨
      phase' = .begun t ∧ t ∉ db.mvcc.activeTxns := by
  have hSame : AList.lookup t db.mvcc.activeTxns = some txn →
      ∃ old, AList.lookup t db.mvcc.activeTxns = some old ∧ old.Extends txn :=
    fun hOld => ⟨txn, hOld, .refl txn⟩
  have hErased : ∀ u, AList.lookup t (AList.erase u db.mvcc.activeTxns) = some txn →
      AList.lookup t db.mvcc.activeTxns = some txn := by
    intro u hErase
    by_cases hTxn : t = u
    · subst hTxn
      simp at hErase
    · rwa [AList.lookup_erase_ne hTxn] at hErase
  cases h with
  | begin _ _ u hBegin =>
      obtain ⟨mvcc, cache, hOk, -, rfl⟩ := Engine.beginTxn_ok hBegin
      obtain ⟨hFresh, -, rfl⟩ := VisibilityManager.beginTxn_eq_ok hOk
      by_cases hTxn : t = u
      · exact Or.inr ⟨by rw [hTxn], by rwa [hTxn]⟩
      · dsimp only at hLookup
        rw [AList.lookup_insert_ne hTxn] at hLookup
        exact Or.inl (hSame hLookup)
  | beginFails _ _ e hBegin =>
      obtain ⟨counter, cache, -, rfl⟩ := Engine.beginTxn_error hBegin
      exact Or.inl (hSame hLookup)
  | recordWrite =>
      obtain ⟨old, hOld, ⟨-, rfl⟩ | ⟨-, rfl⟩⟩ := VisibilityManager.lookup_modifyActive hLookup
      · exact Or.inl ⟨old, hOld, rfl, fun key hKey => List.mem_insert_of_mem hKey⟩
      · exact Or.inl (hSame hOld)
  | applyCommit _ _ u env hApply =>
      obtain rfl := Engine.applyCommit_ok hApply
      dsimp only at hLookup
      rw [VisibilityManager.committed_activeTxns] at hLookup
      exact Or.inl (hSame (hErased u hLookup))
  | applyCommitFails _ _ u env e hApply =>
      obtain ⟨mvcc, rfl, ⟨-, rfl⟩ | ⟨_, conflict, -, -, rfl⟩⟩ := Engine.applyCommit_error hApply
      · exact Or.inl (hSame hLookup)
      · exact Or.inl (hSame (hErased u hLookup))
  | _ => exact Or.inl (hSame hLookup)

/-- What the manager knows agrees with the journal after each step of a call. The record
of a write is logged after the write has been noted in its transaction. -/
theorem CallStep.ledger {base : TxnId} {j : List News} (h : CallStep codec (phase, db) (phase', db'))
    (hLedger : Ledger base j db.mvcc db.txnCounter)
    (hActive : ∀ t x, phase.work? = some (t, x) → t ∈ db.mvcc.activeTxns)
    (hRecorded : ∀ e txn, phase = .recordedWrite e →
        AList.lookup e.txnId db.mvcc.activeTxns = some txn →
      conflictKey e.key.cf e.key.key ∈ txn.writtenKeys) :
    Ledger base (j ++ [phase'.news]) db'.mvcc db'.txnCounter := by
  have hGoesOn : (∀ t, phase' ≠ .begun t) → ∀ t txn, AList.lookup t db'.mvcc.activeTxns = some txn →
      ∃ old, AList.lookup t db.mvcc.activeTxns = some old ∧ old.Extends txn :=
    fun hNot t txn hLookup => (h.extends hLookup).resolve_right fun hNew => hNot t hNew.1
  have hIdle : ∀ counter, db.txnCounter ≤ counter → Ledger base (j ++ [.other]) db.mvcc counter :=
    fun counter hLe => hLedger.step (.other rfl fun t txn hLookup => ⟨txn, hLookup, .refl txn⟩)
      (VisibilityManager.Advances.refl _) hLe (by simp)
  cases h with
  | begin _ _ t hBegin =>
      obtain ⟨mvcc, cache, hOk, hId, rfl⟩ := Engine.beginTxn_ok hBegin
      exact hLedger.step_began hOk hId (Nat.lt_succ_self t)
  | beginFails _ _ e hBegin =>
      obtain ⟨counter, cache, hLe, rfl⟩ := Engine.beginTxn_error hBegin
      exact hIdle counter hLe
  | recordWrite _ e =>
      exact hLedger.step
        (.other (VisibilityManager.modifyActive_committedHistory _ _ _) (hGoesOn (by simp)))
        (VisibilityManager.advances_modifyActive _ _ _) le_rfl (by simp [CallPhase.news])
  | logWrite _ e =>
      refine hLedger.step_on (by simp [CallPhase.news]) le_rfl le_rfl (hGoesOn (by simp))
        (by simp [CallPhase.news]) (fun t ht => Or.inl ht) fun w hw => ?_
      obtain rfl := News.wrote.inj hw
      exact ⟨hActive _ _ rfl, fun txn hLookup => hRecorded e txn rfl hLookup⟩
  | applyCommit _ _ t env hApply =>
      obtain ⟨txn, hLookup, hSsi⟩ := Engine.applyCommit_checked hApply
      obtain rfl := Engine.applyCommit_ok hApply
      exact hLedger.step (.committed env hLookup hSsi)
        (VisibilityManager.advances_committed _ _ _ _ _ _)
        le_rfl (by simp [CallPhase.news])
  | applyCommitFails _ _ t env e hApply =>
      have hOn := hGoesOn (by simp)
      obtain ⟨mvcc, rfl, ⟨-, rfl⟩ | ⟨txn, conflict, -, -, rfl⟩⟩ := Engine.applyCommit_error hApply
      · exact hIdle _ le_rfl
      · exact hLedger.step (.other (VisibilityManager.abortTxn_committedHistory _ _) hOn)
          (VisibilityManager.advances_abortTxn _ _) le_rfl (by simp [CallPhase.news])
  | _ => exact hIdle _ le_rfl

end Calls

namespace Traffic
variable {codec : Codec} {s s' : Traffic} {act : Act}

/-- Calls at work do not clash and have active transactions; what a write is about to log
has been noted in its transaction. -/
structure Orderly (s : Traffic) : Prop where
  apart : ∀ i k, i ≠ k → ¬ (s.calls i).Clash (s.calls k)
  active : ∀ k t x, (s.calls k).work? = some (t, x) → t ∈ s.db.mvcc.activeTxns
  recorded : ∀ k e txn, s.calls k = .recordedWrite e →
    AList.lookup e.txnId s.db.mvcc.activeTxns = some txn →
      conflictKey e.key.cf e.key.key ∈ txn.writtenKeys

theorem mvcc_of_checkpointStep {phase phase' : CheckpointPhase} {db db' : Engine}
    (h : CheckpointStep codec (phase, db) (phase', db')) :
    db'.mvcc = db.mvcc ∧ db'.txnCounter = db.txnCounter := by
  cases h <;> exact ⟨rfl, rfl⟩

theorem Orderly.step (h : s.Orderly) (hStep : Step codec s act s') (hSpares : s.Spares codec act) :
    s'.Orderly := by
  cases hStep with
  | call i phase db hCall =>
      -- what the call is at work on was free when it began, and has been its own since then
      have hFree : ∀ k, k ≠ i → ¬ phase.Clash (s.calls k) := by
        intro k hk hClash
        rcases hCall.work_cases with hNone | hSame | ⟨hIdle, -, -⟩
        · exact CallPhase.not_clash_of_idle hNone hClash
        · obtain ⟨t, x, y, hA, hB, hKeys⟩ := hClash
          exact h.apart i k hk.symm ⟨t, x, y, hSame ▸ hA, hB, hKeys⟩
        · simp only [Spares, hIdle] at hSpares
          exact hSpares k hClash
      have hOwn : ∀ t x, phase.work? = some (t, x) → t ∈ s.db.mvcc.activeTxns := by
        intro t x hWork
        rcases hCall.work_cases with hNone | hSame | ⟨-, -, hIn⟩
        · rw [hNone] at hWork
          cases hWork
        · exact h.active i t x (hSame ▸ hWork)
        · exact hIn t x hWork
      have hAlive : ∀ k t x, k ≠ i → (s.calls k).work? = some (t, x) → t ∈ db.mvcc.activeTxns := by
        intro k t x hk hWork
        refine (hCall.active (h.active k t x hWork)).resolve_right ?_
        rintro ⟨insertedAt, hCommit⟩
        refine h.apart i k hk.symm ⟨t, none, x, ?_, hWork, Or.inl rfl⟩
        rw [hCommit]
        rfl
      refine ⟨fun a b hab => ?_, fun k t x hWork => ?_, fun k e txn hPhase hLookup => ?_⟩
      · by_cases ha : a = i
        · subst ha
          rw [afterCall_self, afterCall_of_ne _ _ _ _ hab.symm]
          exact hFree b hab.symm
        · rw [afterCall_of_ne _ _ _ _ ha]
          by_cases hb : b = i
          · subst hb
            rw [afterCall_self]
            exact fun hClash => hFree a ha hClash.symm
          · rw [afterCall_of_ne _ _ _ _ hb]
            exact h.apart a b hab
      · by_cases hk : k = i
        · subst hk
          rw [afterCall_self] at hWork
          refine (hCall.active (hOwn t x hWork)).resolve_right ?_
          rintro ⟨insertedAt, hCommit⟩
          rw [hCommit] at hCall
          cases hCall <;> cases hWork
        · rw [afterCall_of_ne _ _ _ _ hk] at hWork
          exact hAlive k t x hk hWork
      · by_cases hk : k = i
        · subst hk
          rw [afterCall_self] at hPhase
          subst hPhase
          generalize s.calls k = phase at hCall
          cases hCall with
          | recordWrite =>
              obtain ⟨old, -, ⟨-, rfl⟩ | ⟨hNe, -⟩⟩ := VisibilityManager.lookup_modifyActive hLookup
              · exact List.mem_insert_self
              · exact absurd rfl hNe
        · rw [afterCall_of_ne _ _ _ _ hk] at hPhase
          rcases hCall.extends hLookup with ⟨old, hOld, hExtends⟩ | ⟨-, hNew⟩
          · exact hExtends.writtenKeys _ (h.recorded k e old hPhase hOld)
          · exact absurd (h.active k e.txnId (some e.key) (by rw [hPhase]; rfl)) hNew
  | checkpoint phase db hCheckpoint =>
      obtain ⟨hMvcc, -⟩ := mvcc_of_checkpointStep hCheckpoint
      refine ⟨h.apart, fun k t x hWork => ?_, fun k e txn hPhase hLookup => ?_⟩
      · dsimp only
        rw [hMvcc]
        exact h.active k t x hWork
      · dsimp only at hLookup
        rw [hMvcc] at hLookup
        exact h.recorded k e txn hPhase hLookup
  | restart => exact ⟨h.apart, h.active, h.recorded⟩

end Traffic
end Z1Kv
