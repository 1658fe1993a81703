import Z1Kv.Library.Runs
import Z1Kv.Mvcc.History
import Z1Kv.Store.Types

/-! The visibility rules in the three places that implement them, over every
state of a manager: a version is visible exactly when its transaction is in the
committed history. -/
namespace Z1Kv

/-- Deletion rule, shared by both filters: a deletion counts if its transaction
is not active and committed up to the snapshot. -/
def deletedBefore (snapshotId : TxnId) (deletedTxn : Option TxnId) (activeTxns : Finset TxnId)
    (commitTsMap : FinMap TxnId Nat) : Bool :=
  match deletedTxn with
  | none => false
  | some del =>
      if del ∈ activeTxns then false
      else
        match AList.lookup del commitTsMap with
        | some delCommitTs => delCommitTs ≤ snapshotId
        | none => false

/-- `VisFilter for TxnSnapshot`. -/
def TxnSnapshot.isRowVisible (_ : TxnSnapshot) (snapshotId createdTxn : TxnId)
    (deletedTxn : Option TxnId) (activeTxns : Finset TxnId) (commitTsMap : FinMap TxnId Nat) : Bool :=
  if createdTxn > snapshotId then false
  else if createdTxn ∈ activeTxns then false
  else if createdTxn ∉ commitTsMap then false
  else if ((AList.lookup createdTxn commitTsMap).any fun commitTs => commitTs > snapshotId) then false
  else !deletedBefore snapshotId deletedTxn activeTxns commitTsMap

/-- `VisFilter for VisibilityManager`. -/
def VisibilityManager.isRowVisible (_ : VisibilityManager) (snapshotId createdTxn : TxnId)
    (deletedTxn : Option TxnId) (activeTxns : Finset TxnId) (commitTsMap : FinMap TxnId Nat) : Bool :=
  if createdTxn > snapshotId then false
  else if createdTxn ∈ activeTxns then false
  else
    match AList.lookup createdTxn commitTsMap with
    | some commitTs =>
        if commitTs > snapshotId then false
        else !deletedBefore snapshotId deletedTxn activeTxns commitTsMap
    | none => false

def VisibilityManager.isVisible (m : VisibilityManager) (snap : TxnSnapshot) (createdTxn : TxnId)
    (deletedTxn : Option TxnId) : Bool :=
  m.isRowVisible snap.snapshotId createdTxn deletedTxn snap.activeTxns snap.commitTsMap

/-- Rule for rule, the two filters are one. -/
theorem VisibilityManager.isRowVisible_eq (m : VisibilityManager) (snap : TxnSnapshot)
    (snapshotId createdTxn : TxnId) (deletedTxn : Option TxnId) (activeTxns : Finset TxnId)
    (commitTsMap : FinMap TxnId Nat) :
    m.isRowVisible snapshotId createdTxn deletedTxn activeTxns commitTsMap =
      snap.isRowVisible snapshotId createdTxn deletedTxn activeTxns commitTsMap := by
  unfold isRowVisible TxnSnapshot.isRowVisible
  cases hLookup : AList.lookup createdTxn commitTsMap with
  | none =>
      have hNot : createdTxn ∉ commitTsMap := AList.lookup_eq_none.mp hLookup
      simp [hNot]
  | some commitTs =>
      have hIn : createdTxn ∈ commitTsMap := FinMap.mem_iff_lookup.mpr ⟨commitTs, hLookup⟩
      simp [hIn]

/-- Without a deletion the filters are the rule of versions. -/
theorem VisibilityManager.isVisible_none (m : VisibilityManager) (snap : TxnSnapshot)
    (createdTxn : TxnId) : m.isVisible snap createdTxn none = snap.sees createdTxn := by
  unfold isVisible isRowVisible TxnSnapshot.sees deletedBefore
  split
  · rfl
  · split
    · rfl
    · cases AList.lookup createdTxn snap.commitTsMap with
      | none => rfl
      | some commitTs =>
          by_cases hLe : commitTs ≤ snap.snapshotId
          · simp [hLe, Nat.not_lt.mpr hLe]
          · simp [hLe, Nat.lt_of_not_le hLe]

/-- Calls on a manager, with the clock readings and hash orders of a commit. -/
inductive MvccOp
  | begin (txnId : TxnId)
  | recordRead (txnId : TxnId) (key : Bytes)
  | recordWrite (txnId : TxnId) (key : Bytes)
  | commit (order : HashOrder) (txnId : TxnId) (insertedAt ts nowMs : Nat)
  | rollback (txnId : TxnId)

namespace VisibilityManager

/-- The answer is the conflict of a call that failed. -/
def step (m : VisibilityManager) : MvccOp → Option MvccConflict × VisibilityManager
  | .begin txnId =>
      match m.beginTxn txnId with
      | .ok m' => (none, m')
      | .error conflict => (some conflict, m)
  | .recordRead txnId key => (none, m.recordRead txnId key)
  | .recordWrite txnId key => (none, m.recordWrite txnId key)
  | .commit order txnId insertedAt ts nowMs =>
      match m.commitTxn order txnId insertedAt ts nowMs with
      | (.ok _, m') => (none, m')
      | (.error conflict, m') => (some conflict, m')
  | .rollback txnId => (none, m.rollbackTxn txnId)

/-- A manager as an open builds it from what the checkpoint and the log gave. -/
def recovered (config : VisibilityConfig) (committedTxn : TxnId) (history : List (TxnId × Nat))
    (walInsertedAt : FinMap TxnId Nat) (now replayWatermark : Nat) : VisibilityManager :=
  (((newWithConfig config).setCommittedTxn committedTxn).recoverCommittedHistory history
    walInsertedAt now).setReplayWatermark replayWatermark

theorem coherent_recovered (config : VisibilityConfig) (committedTxn : TxnId)
    (history : List (TxnId × Nat)) (walInsertedAt : FinMap TxnId Nat) (now replayWatermark : Nat) :
    (recovered config committedTxn history walInsertedAt now replayWatermark).Coherent := by
  obtain ⟨hActive, -, -, hBelow⟩ := recoverCommittedHistory_spec
    ((newWithConfig config).setCommittedTxn committedTxn) history walInsertedAt now
  refine ⟨hBelow, fun t _ hIn => ?_⟩
  dsimp only [recovered, setReplayWatermark] at hIn
  rw [hActive] at hIn
  exact AList.notMem_empty t hIn

theorem Coherent.step {m : VisibilityManager} (h : m.Coherent) (op : MvccOp) : (m.step op).2.Coherent := by
  cases op with
  | begin txnId =>
      unfold VisibilityManager.step
      dsimp only
      cases hBegin : m.beginTxn txnId with
      | ok m' => exact h.beginTxn hBegin
      | error conflict => exact h
  | recordRead txnId key => exact h.modifyActive _ _
  | recordWrite txnId key => exact h.modifyActive _ _
  | commit order txnId insertedAt ts nowMs =>
      have hAfter := h.commitTxn order txnId insertedAt ts nowMs
      unfold VisibilityManager.step
      dsimp only
      generalize m.commitTxn order txnId insertedAt ts nowMs = outcome at hAfter
      obtain ⟨result, m'⟩ := outcome
      cases result with
      | ok snap => exact hAfter
      | error conflict => exact hAfter
  | rollback txnId => exact h.abortTxn txnId

end VisibilityManager

/-- In every reachable state the three implementations agree on every version, and
it is visible exactly when its transaction is in the committed history. -/
theorem visible_iff_committed (config : VisibilityConfig) (committedTxn : TxnId)
    (history : List (TxnId × Nat)) (walInsertedAt : FinMap TxnId Nat) (now replayWatermark : Nat)
    (ops : List MvccOp) :
    let m := (runs VisibilityManager.step
      (VisibilityManager.recovered config committedTxn history walInsertedAt now replayWatermark)
      ops).2
    let snap := m.snapshot
    ∀ c, (m.isVisible snap c none = true ↔ c ∈ m.committedHistory) ∧
      snap.isRowVisible snap.snapshotId c none snap.activeTxns snap.commitTsMap =
        m.isVisible snap c none ∧
      ∀ e : Z1Entry, e.txnId = c → e.isVisibleAtCommit snap = m.isVisible snap c none := by
  intro m snap c
  have hCoherent : m.Coherent := by
    have hStart := VisibilityManager.coherent_recovered config committedTxn history walInsertedAt now
      replayWatermark
    exact @runs_invariant _ _ _ _ (fun _ (m : VisibilityManager) => m.Coherent) (fun _ _ _ => True)
      (fun _ _ op h _ => h.step op) [] _ _ hStart (EachMeets.of_forall fun _ _ => trivial)
  refine ⟨?_, (m.isRowVisible_eq snap _ _ _ _ _).symm, ?_⟩
  · rw [m.isVisible_none]
    exact hCoherent.snapshot_sees c
  · rintro e rfl
    rw [m.isVisible_none]
    rfl

end Z1Kv
