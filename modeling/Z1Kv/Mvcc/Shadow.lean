import Z1Kv.Mvcc.Rules

/-! The shadow copy of the commit timestamps. A commit and both steps of a prune keep it
equal to the committed history; a recovered history does not reach it. -/
namespace Z1Kv.VisibilityManager

/-- `recover_committed_history_with_config`; `recover_committed_history` is the call without
an override and without insertion times. -/
def recoverCommittedHistoryWithConfig (m : VisibilityManager) (history : List (TxnId × Nat))
    (configOverride : Option VisibilityConfig) (walInsertedAt : FinMap TxnId Nat) (now : Nat) :
    VisibilityManager :=
  let m :=
    match configOverride with
    | some config => { m with config }
    | none => m
  m.recoverCommittedHistory history walInsertedAt now

/-- All calls that change a manager. -/
inductive ManagerOp
  | call (op : MvccOp)
  | setCommittedTxn (txnId : TxnId)
  | setReplayWatermark (watermark : Nat)
  | recover (history : List (TxnId × Nat)) (configOverride : Option VisibilityConfig)
      (walInsertedAt : FinMap TxnId Nat) (now : Nat)

def perform (m : VisibilityManager) : ManagerOp → Option MvccConflict × VisibilityManager
  | .call op => m.step op
  | .setCommittedTxn txnId => (none, m.setCommittedTxn txnId)
  | .setReplayWatermark watermark => (none, m.setReplayWatermark watermark)
  | .recover history configOverride walInsertedAt now =>
      (none, m.recoverCommittedHistoryWithConfig history configOverride walInsertedAt now)

/-- The shadow has the commit timestamps of the history. -/
def ShadowMirrors (m : VisibilityManager) : Prop :=
  ∀ t, AList.lookup t m.committedTsShadow =
    (AList.lookup t m.committedHistory).map HistoryEntry.commitTs

/-- The timestamp that a list of pairs gives to a transaction, the last one. -/
def lastTs (history : List (TxnId × Nat)) (t : TxnId) : Option Nat :=
  (history.filter (·.1 = t)).getLast?.map Prod.snd

/-- A recovered history has the timestamps that the manager has already. -/
def ManagerOp.Restates (m : VisibilityManager) : ManagerOp → Prop
  | .recover history _ _ _ =>
      ∀ t, lastTs history t = (AList.lookup t m.committedHistory).map HistoryEntry.commitTs
  | _ => True

section Steps
variable {m m' : VisibilityManager}

theorem ShadowMirrors.congr (h : m.ShadowMirrors) (hShadow : m'.committedTsShadow = m.committedTsShadow)
    (hHistory : m'.committedHistory = m.committedHistory) : m'.ShadowMirrors := by
  intro t
  rw [hShadow, hHistory]
  exact h t

/-- An eviction takes the same transactions from both. -/
theorem ShadowMirrors.retain (h : m.ShadowMirrors)
    (hShadow : m'.committedTsShadow = m.committedTsShadow.retain fun txnId _ => txnId ∈ m'.committedHistory)
    (hHistory : ∀ t e, AList.lookup t m'.committedHistory = some e →
      AList.lookup t m.committedHistory = some e) : m'.ShadowMirrors := by
  intro t
  rw [hShadow]
  cases hLookup : AList.lookup t m'.committedHistory with
  | none =>
      rw [Option.map_none, Option.eq_none_iff_forall_ne_some]
      intro ts hSome
      obtain ⟨-, hIn⟩ := FinMap.mem_lookup_retain.mp hSome
      exact AList.lookup_eq_none.mp hLookup (by simpa using hIn)
  | some e =>
      have hIn : t ∈ m'.committedHistory := FinMap.mem_iff_lookup.mpr ⟨e, hLookup⟩
      refine FinMap.mem_lookup_retain.mpr ⟨?_, by simpa using hIn⟩
      rw [h t, hHistory t e hLookup]
      rfl

theorem ShadowMirrors.pruneByCount (h : m.ShadowMirrors) (order : HashOrder) :
    (m.pruneByCount order).ShadowMirrors := by
  by_cases hFull : m.committedHistory.keys.length > m.config.maxHistoryEntries
  · refine h.retain (by simp [VisibilityManager.pruneByCount, hFull]) fun t e hLookup => ?_
    rw [lookup_pruneByCount] at hLookup
    split at hLookup
    · cases hLookup
    · exact hLookup
  · unfold VisibilityManager.pruneByCount
    rwa [if_neg hFull]

theorem ShadowMirrors.pruneByTime (h : m.ShadowMirrors) (nowMs : Nat) :
    (m.pruneByTime nowMs).ShadowMirrors := by
  by_cases hDue : m.ttlCheckDue nowMs = true
  · exact h.retain (by simp [VisibilityManager.pruneByTime, hDue]) fun t e hLookup =>
      (lookup_pruneByTime.mp hLookup).1
  · unfold VisibilityManager.pruneByTime
    rwa [if_neg hDue]

theorem ShadowMirrors.enterCommit (h : m.ShadowMirrors) (txnId : TxnId) (ts insertedAt : Nat) :
    (m.enterCommit txnId ts insertedAt).ShadowMirrors := by
  intro t
  dsimp only [VisibilityManager.enterCommit]
  by_cases hTxn : t = txnId
  · subst hTxn
    rw [AList.lookup_insert, AList.lookup_insert]
    rfl
  · rw [AList.lookup_insert_ne hTxn, AList.lookup_insert_ne hTxn]
    exact h t

theorem ShadowMirrors.abortTxn (h : m.ShadowMirrors) (txnId : TxnId) : (m.abortTxn txnId).ShadowMirrors :=
  h.congr rfl rfl

theorem ShadowMirrors.commitTxn (h : m.ShadowMirrors) (order : HashOrder) (txnId : TxnId)
    (insertedAt ts nowMs : Nat) : (m.commitTxn order txnId insertedAt ts nowMs).2.ShadowMirrors := by
  rcases m.commitTxn_cases order txnId insertedAt ts nowMs with
    ⟨-, hEq⟩ | ⟨txn, conflict, -, -, hEq⟩ | ⟨txn, -, -, hEq⟩
  · rw [hEq]
    exact h
  · rw [hEq]
    exact h.abortTxn txnId
  · rw [hEq]
    exact (((h.enterCommit txnId ts insertedAt).pruneByCount order).pruneByTime nowMs).abortTxn txnId

theorem modifyActive_committedTsShadow (m : VisibilityManager) (txnId : TxnId) (f : TxnMeta → TxnMeta) :
    (m.modifyActive txnId f).committedTsShadow = m.committedTsShadow := by
  unfold modifyActive
  split <;> rfl

theorem ShadowMirrors.step (h : m.ShadowMirrors) (op : MvccOp) : (m.step op).2.ShadowMirrors := by
  cases op with
  | begin txnId =>
      unfold VisibilityManager.step
      dsimp only
      cases hBegin : m.beginTxn txnId with
      | ok m' =>
          obtain ⟨-, -, rfl⟩ := beginTxn_eq_ok hBegin
          exact h.congr rfl rfl
      | error conflict => exact h
  | recordRead txnId key =>
      exact h.congr (modifyActive_committedTsShadow _ _ _) (modifyActive_committedHistory _ _ _)
  | recordWrite txnId key =>
      exact h.congr (modifyActive_committedTsShadow _ _ _) (modifyActive_committedHistory _ _ _)
  | commit order txnId insertedAt ts nowMs =>
      have hAfter := h.commitTxn order txnId insertedAt ts nowMs
      unfold VisibilityManager.step
      dsimp only
      generalize m.commitTxn order txnId insertedAt ts nowMs = outcome at hAfter
      obtain ⟨result, m'⟩ := outcome
      cases result with
      | ok snap => exact hAfter
      | error conflict => exact hAfter
  | rollback txnId => exact h.abortTxn txnId

/-- After a recovery the history has the timestamps of the list, and the shadow is the old
one. -/
theorem recoverCommittedHistory_ts (m : VisibilityManager) (history : List (TxnId × Nat))
    (walInsertedAt : FinMap TxnId Nat) (now : Nat) :
    (m.recoverCommittedHistory history walInsertedAt now).committedTsShadow = m.committedTsShadow ∧
      ∀ t, (AList.lookup t (m.recoverCommittedHistory history walInsertedAt now).committedHistory).map
        HistoryEntry.commitTs = lastTs history t := by
  unfold recoverCommittedHistory
  induction history using List.reverseRecOn with
  | nil => exact ⟨rfl, fun t => rfl⟩
  | append_singleton history pair ih =>
      obtain ⟨hShadow, hTs⟩ := ih
      rw [List.foldl_append, List.foldl_cons, List.foldl_nil]
      refine ⟨hShadow, fun t => ?_⟩
      unfold lastTs at hTs ⊢
      dsimp only
      by_cases hTxn : t = pair.1
      · subst hTxn
        rw [AList.lookup_insert, List.filter_append]
        simp
      · rw [AList.lookup_insert_ne hTxn, hTs, List.filter_append]
        simp [Ne.symm hTxn]

/-- A call keeps the shadow equal to the history exactly if it recovers nothing new. -/
theorem ShadowMirrors.perform_iff (h : m.ShadowMirrors) (op : ManagerOp) :
    (m.perform op).2.ShadowMirrors ↔ op.Restates m := by
  cases op with
  | call op => exact iff_of_true (h.step op) trivial
  | setCommittedTxn txnId => exact iff_of_true (h.congr rfl rfl) trivial
  | setReplayWatermark watermark => exact iff_of_true (h.congr rfl rfl) trivial
  | recover history configOverride walInsertedAt now =>
      have hRecovered : ∀ start : VisibilityManager, start.committedTsShadow = m.committedTsShadow →
          ((start.recoverCommittedHistory history walInsertedAt now).ShadowMirrors ↔
            ∀ t, lastTs history t = (AList.lookup t m.committedHistory).map HistoryEntry.commitTs) := by
        intro start hStart
        obtain ⟨hShadow, hTs⟩ := start.recoverCommittedHistory_ts history walInsertedAt now
        refine forall_congr' fun t => ?_
        rw [hShadow, hStart, hTs, h t]
        exact eq_comm
      cases configOverride with
      | none => exact hRecovered m rfl
      | some config => exact hRecovered { m with config } rfl

end Steps

/-- The shadow is equal to the history in every state of a run exactly if no call recovers
a history that the manager does not have already. -/
theorem shadow_mirrors_history_iff (config : VisibilityConfig) (ops : List ManagerOp) :
    (∀ n, (runs perform (newWithConfig config) (ops.take n)).2.ShadowMirrors) ↔
      EachMeets perform (fun _ m op => op.Restates m) [] (newWithConfig config) ops := by
  have hRun : ∀ (past : List (ManagerOp × Option MvccConflict)) (m : VisibilityManager), m.ShadowMirrors →
      ((∀ n, (runs perform m (ops.take n)).2.ShadowMirrors) ↔
        EachMeets perform (fun _ m op => op.Restates m) past m ops) := by
    induction ops with
    | nil => exact fun past m h => iff_of_true (fun n => by simpa [runs] using h) trivial
    | cons op rest ih =>
        intro past m h
        have hStep := h.perform_iff op
        constructor
        · intro hAll
          have hNext : (m.perform op).2.ShadowMirrors := by simpa [runs] using hAll 1
          exact ⟨hStep.mp hNext, (ih _ _ hNext).mp fun n => by simpa [runs] using hAll (n + 1)⟩
        · rintro ⟨hOp, hRest⟩ n
          cases n with
          | zero => exact h
          | succ n => simpa [runs] using (ih _ _ (hStep.mpr hOp)).mpr hRest n
  exact hRun [] (newWithConfig config) fun t => rfl

/-- A recovered history of one transaction. -/
theorem recovered_history_misses_shadow :
    ¬ ∀ config ops, (runs perform (newWithConfig config) ops).2.ShadowMirrors := by
  intro h
  have hLookup := h {} [.recover [(1, 5)] none ∅ 0] 1
  exact absurd hLookup (by decide)

end Z1Kv.VisibilityManager
