import Mathlib.Order.Nat
import Z1Kv.Mvcc.Visibility

/-! What the operations of the visibility manager do to the active set and the
committed history, and what its snapshots see. -/
namespace Z1Kv.VisibilityManager

section Prune
variable (m : VisibilityManager) (order : HashOrder) (nowMs : Nat)

@[simp] theorem pruneByCount_activeTxns : (m.pruneByCount order).activeTxns = m.activeTxns := by
  unfold pruneByCount
  split <;> rfl

@[simp] theorem pruneByCount_committedTxn : (m.pruneByCount order).committedTxn = m.committedTxn := by
  unfold pruneByCount
  split <;> rfl

@[simp] theorem pruneByCount_replayWatermark :
    (m.pruneByCount order).replayWatermark = m.replayWatermark := by
  unfold pruneByCount
  split <;> rfl

@[simp] theorem pruneByCount_config : (m.pruneByCount order).config = m.config := by
  unfold pruneByCount
  split <;> rfl

@[simp] theorem pruneByTime_activeTxns : (m.pruneByTime nowMs).activeTxns = m.activeTxns := by
  unfold pruneByTime
  split <;> rfl

@[simp] theorem pruneByTime_committedTxn : (m.pruneByTime nowMs).committedTxn = m.committedTxn := by
  unfold pruneByTime
  split <;> rfl

@[simp] theorem pruneByTime_replayWatermark :
    (m.pruneByTime nowMs).replayWatermark = m.replayWatermark := by
  unfold pruneByTime
  split <;> rfl

@[simp] theorem pruneByTime_config : (m.pruneByTime nowMs).config = m.config := by
  unfold pruneByTime
  split <;> rfl

@[simp] theorem pruneHistory_activeTxns : (m.pruneHistory order nowMs).activeTxns = m.activeTxns := by
  simp [pruneHistory]

@[simp] theorem pruneHistory_committedTxn :
    (m.pruneHistory order nowMs).committedTxn = m.committedTxn := by
  simp [pruneHistory]

@[simp] theorem pruneHistory_replayWatermark :
    (m.pruneHistory order nowMs).replayWatermark = m.replayWatermark := by
  simp [pruneHistory]

@[simp] theorem pruneHistory_config : (m.pruneHistory order nowMs).config = m.config := by
  simp [pruneHistory]

variable {m order nowMs}

/-- Transactions that the count-based step removes. -/
def evicted (m : VisibilityManager) (order : HashOrder) : List TxnId :=
  if m.committedHistory.keys.length > m.config.maxHistoryEntries then
    ((m.evictionOrder order).take m.evictCount).map Prod.snd
  else []

theorem lookup_pruneByCount (txnId : TxnId) :
    AList.lookup txnId (m.pruneByCount order).committedHistory =
      if txnId ∈ m.evicted order then none else AList.lookup txnId m.committedHistory := by
  unfold pruneByCount evicted
  split
  · exact FinMap.lookup_eraseAll _ _ _
  · simp

/-- Entries that the time-based step lets stay. -/
theorem lookup_pruneByTime {txnId : TxnId} {e : HistoryEntry} :
    AList.lookup txnId (m.pruneByTime nowMs).committedHistory = some e ↔
      AList.lookup txnId m.committedHistory = some e ∧
        (m.ttlCheckDue nowMs = true → max (nowMs - m.ttlMs) m.replayWatermark ≤ e.insertedAt) := by
  unfold pruneByTime
  split
  · next hDue =>
    simp only [FinMap.mem_lookup_retain, decide_eq_true_eq, hDue, forall_const, ge_iff_le]
  · next hNot => simp [hNot]

/-- A prune only removes entries. -/
theorem lookup_pruneHistory {txnId : TxnId} {e : HistoryEntry}
    (h : AList.lookup txnId (m.pruneHistory order nowMs).committedHistory = some e) :
    AList.lookup txnId m.committedHistory = some e := by
  have hCount := (lookup_pruneByTime.mp h).1
  rw [lookup_pruneByCount] at hCount
  split at hCount
  · cases hCount
  · exact hCount

theorem mem_pruneHistory {txnId : TxnId}
    (h : txnId ∈ (m.pruneHistory order nowMs).committedHistory) : txnId ∈ m.committedHistory := by
  obtain ⟨e, he⟩ := FinMap.mem_iff_lookup.mp h
  exact FinMap.mem_iff_lookup.mpr ⟨e, lookup_pruneHistory he⟩

end Prune

@[simp] theorem enterCommit_committedHistory (m : VisibilityManager) (txnId : TxnId)
    (ts insertedAt : Nat) : (m.enterCommit txnId ts insertedAt).committedHistory =
      AList.insert txnId ⟨ts, insertedAt⟩ m.committedHistory := rfl

theorem lookup_enterCommit (m : VisibilityManager) (txnId : TxnId) (ts insertedAt : Nat) :
    AList.lookup txnId (m.enterCommit txnId ts insertedAt).committedHistory = some ⟨ts, insertedAt⟩ := by
  rw [enterCommit_committedHistory, AList.lookup_insert]

@[simp] theorem enterCommit_activeTxns (m : VisibilityManager) (txnId : TxnId)
    (ts insertedAt : Nat) : (m.enterCommit txnId ts insertedAt).activeTxns = m.activeTxns := rfl

@[simp] theorem enterCommit_committedTxn (m : VisibilityManager) (txnId : TxnId)
    (ts insertedAt : Nat) :
    (m.enterCommit txnId ts insertedAt).committedTxn = max m.committedTxn txnId := rfl

@[simp] theorem enterCommit_replayWatermark (m : VisibilityManager) (txnId : TxnId)
    (ts insertedAt : Nat) :
    (m.enterCommit txnId ts insertedAt).replayWatermark = m.replayWatermark := rfl

@[simp] theorem enterCommit_config (m : VisibilityManager) (txnId : TxnId)
    (ts insertedAt : Nat) : (m.enterCommit txnId ts insertedAt).config = m.config := rfl

@[simp] theorem abortTxn_activeTxns (m : VisibilityManager) (txnId : TxnId) :
    (m.abortTxn txnId).activeTxns = AList.erase txnId m.activeTxns := rfl

@[simp] theorem abortTxn_committedHistory (m : VisibilityManager) (txnId : TxnId) :
    (m.abortTxn txnId).committedHistory = m.committedHistory := rfl

@[simp] theorem abortTxn_committedTxn (m : VisibilityManager) (txnId : TxnId) :
    (m.abortTxn txnId).committedTxn = m.committedTxn := rfl

/-- The manager after a commit that succeeds. -/
def committed (m : VisibilityManager) (order : HashOrder) (txnId : TxnId)
    (insertedAt ts nowMs : Nat) : VisibilityManager :=
  ((m.enterCommit txnId ts insertedAt).pruneHistory order nowMs).abortTxn txnId

/-- The three outcomes of a commit. -/
theorem commitTxn_cases (m : VisibilityManager) (order : HashOrder) (txnId : TxnId)
    (insertedAt ts nowMs : Nat) :
    (txnId ∉ m.activeTxns ∧
      m.commitTxn order txnId insertedAt ts nowMs = (.error (.notActive txnId), m)) ∨
    (∃ txn conflict, AList.lookup txnId m.activeTxns = some txn ∧
      m.ssiConflict order txnId txn = some conflict ∧
      m.commitTxn order txnId insertedAt ts nowMs = (.error conflict, m.abortTxn txnId)) ∨
    (∃ txn, AList.lookup txnId m.activeTxns = some txn ∧ m.ssiConflict order txnId txn = none ∧
      m.commitTxn order txnId insertedAt ts nowMs =
        (.ok (m.committed order txnId insertedAt ts nowMs).snapshot,
          m.committed order txnId insertedAt ts nowMs)) := by
  unfold commitTxn
  cases hActive : AList.lookup txnId m.activeTxns with
  | none => exact Or.inl ⟨AList.lookup_eq_none.mp hActive, rfl⟩
  | some txn =>
      cases hSsi : m.ssiConflict order txnId txn with
      | some conflict =>
          exact Or.inr (Or.inl ⟨txn, conflict, rfl, hSsi, by simp only [hSsi]⟩)
      | none => exact Or.inr (Or.inr ⟨txn, rfl, hSsi, by simp only [hSsi, committed]⟩)

theorem lookup_committed {m : VisibilityManager} {order : HashOrder} {txnId t : TxnId}
    {insertedAt ts nowMs : Nat} {e : HistoryEntry}
    (h : AList.lookup t (m.committed order txnId insertedAt ts nowMs).committedHistory = some e) :
    t = txnId ∧ e = ⟨ts, insertedAt⟩ ∨ AList.lookup t m.committedHistory = some e := by
  rw [committed, abortTxn_committedHistory] at h
  have hEntered := lookup_pruneHistory h
  rw [enterCommit_committedHistory] at hEntered
  by_cases hTxn : t = txnId
  · subst hTxn
    rw [AList.lookup_insert] at hEntered
    exact Or.inl ⟨rfl, (Option.some.inj hEntered).symm⟩
  · rw [AList.lookup_insert_ne hTxn] at hEntered
    exact Or.inr hEntered

theorem mem_committed {m : VisibilityManager} {order : HashOrder} {txnId t : TxnId}
    {insertedAt ts nowMs : Nat}
    (h : t ∈ (m.committed order txnId insertedAt ts nowMs).committedHistory) :
    t = txnId ∨ t ∈ m.committedHistory := by
  obtain ⟨e, he⟩ := FinMap.mem_iff_lookup.mp h
  rcases lookup_committed he with ⟨rfl, -⟩ | he
  · exact Or.inl rfl
  · exact Or.inr (FinMap.mem_iff_lookup.mpr ⟨e, he⟩)

@[simp] theorem committed_activeTxns (m : VisibilityManager) (order : HashOrder) (txnId : TxnId)
    (insertedAt ts nowMs : Nat) :
    (m.committed order txnId insertedAt ts nowMs).activeTxns = AList.erase txnId m.activeTxns := by
  rw [committed, abortTxn_activeTxns, pruneHistory_activeTxns, enterCommit_activeTxns]

@[simp] theorem committed_committedTxn (m : VisibilityManager) (order : HashOrder) (txnId : TxnId)
    (insertedAt ts nowMs : Nat) :
    (m.committed order txnId insertedAt ts nowMs).committedTxn = max m.committedTxn txnId := by
  rw [committed, abortTxn_committedTxn, pruneHistory_committedTxn, enterCommit_committedTxn]

@[simp] theorem modifyActive_committedHistory (m : VisibilityManager) (txnId : TxnId)
    (f : TxnMeta → TxnMeta) : (m.modifyActive txnId f).committedHistory = m.committedHistory := by
  unfold modifyActive
  split <;> rfl

@[simp] theorem modifyActive_committedTxn (m : VisibilityManager) (txnId : TxnId)
    (f : TxnMeta → TxnMeta) : (m.modifyActive txnId f).committedTxn = m.committedTxn := by
  unfold modifyActive
  split <;> rfl

/-- Recording a read or a write keeps the set of active transactions. -/
@[simp] theorem mem_modifyActive {m : VisibilityManager} {txnId t : TxnId} {f : TxnMeta → TxnMeta} :
    t ∈ (m.modifyActive txnId f).activeTxns ↔ t ∈ m.activeTxns := by
  unfold modifyActive
  split
  · next txn hLookup =>
    simp only [AList.mem_insert, or_iff_right_iff_imp]
    rintro rfl
    exact FinMap.mem_iff_lookup.mpr ⟨txn, hLookup⟩
  · rfl

theorem beginTxn_eq_ok {m m' : VisibilityManager} {txnId : TxnId} (h : m.beginTxn txnId = .ok m') :
    txnId ∉ m.activeTxns ∧ m.committedTxn < txnId ∧
      m' = { m with activeTxns := AList.insert txnId { beginTs := txnId } m.activeTxns } := by
  unfold beginTxn at h
  split at h
  · cases h
  · next hActive =>
    split at h
    · cases h
    · next hCommitted => exact ⟨hActive, Nat.lt_of_not_le hCommitted, (Except.ok.inj h).symm⟩

theorem oldestActiveBeginTs_le {m : VisibilityManager} {t : TxnId} {txn : TxnMeta}
    (h : AList.lookup t m.activeTxns = some txn) : m.oldestActiveBeginTs ≤ txn.beginTs := by
  have hMem : txn.beginTs ∈ m.activeTxns.entries.map fun e => e.2.beginTs :=
    List.mem_map.mpr ⟨⟨t, txn⟩, FinMap.mem_entries.mpr h, rfl⟩
  unfold oldestActiveBeginTs
  cases hMin : (m.activeTxns.entries.map fun e => e.2.beginTs).min? with
  | none =>
      rw [List.min?_eq_none_iff.mp hMin] at hMem
      cases hMem
  | some least => exact (List.min?_eq_some_iff.mp hMin).2 _ hMem

/-- Committed transactions have ended and are not above the highest committed
id. -/
structure Coherent (m : VisibilityManager) : Prop where
  below : ∀ t ∈ m.committedHistory, t ≤ m.committedTxn
  ended : ∀ t ∈ m.committedHistory, t ∉ m.activeTxns

namespace Coherent
variable {m : VisibilityManager} (h : m.Coherent)
include h

theorem beginTxn {m' : VisibilityManager} {txnId : TxnId} (hBegin : m.beginTxn txnId = .ok m') :
    m'.Coherent := by
  obtain ⟨-, hNew, rfl⟩ := beginTxn_eq_ok hBegin
  refine ⟨h.below, fun t ht hActive => ?_⟩
  rcases (AList.mem_insert _).mp hActive with rfl | hActive
  · exact absurd (h.below t ht) (Nat.not_le.mpr hNew)
  · exact h.ended t ht hActive

theorem modifyActive (txnId : TxnId) (f : TxnMeta → TxnMeta) : (m.modifyActive txnId f).Coherent :=
  ⟨by simpa using h.below, by simpa using h.ended⟩

theorem abortTxn (txnId : TxnId) : (m.abortTxn txnId).Coherent :=
  ⟨h.below, fun t ht hActive => h.ended t ht (AList.mem_erase.mp hActive).2⟩

theorem committed (order : HashOrder) (txnId : TxnId) (insertedAt ts nowMs : Nat) :
    (m.committed order txnId insertedAt ts nowMs).Coherent := by
  constructor
  · intro t ht
    rw [committed_committedTxn]
    rcases mem_committed ht with rfl | ht
    · exact le_max_right _ _
    · exact le_max_of_le_left (h.below t ht)
  · intro t ht hActive
    rw [committed_activeTxns, AList.mem_erase] at hActive
    rcases mem_committed ht with rfl | ht
    · exact hActive.1 rfl
    · exact h.ended t ht hActive.2

theorem commitTxn (order : HashOrder) (txnId : TxnId) (insertedAt ts nowMs : Nat) :
    (m.commitTxn order txnId insertedAt ts nowMs).2.Coherent := by
  rcases m.commitTxn_cases order txnId insertedAt ts nowMs with
    ⟨-, hEq⟩ | ⟨txn, conflict, -, -, hEq⟩ | ⟨txn, -, -, hEq⟩
  · rw [hEq]
    exact h
  · rw [hEq]
    exact h.abortTxn txnId
  · rw [hEq]
    exact h.committed order txnId insertedAt ts nowMs

end Coherent

/-- The timestamps of the entries that a snapshot retains, of the present or of the past. -/
theorem lookup_commitTsMap {history : FinMap TxnId HistoryEntry} {bound t : TxnId} {commitTs : Nat}
    (hKeys : ((history.retain fun _ e => e.commitTs ≤ bound).entries.map
      fun e => (⟨e.1, e.2.commitTs⟩ : Sigma fun _ : TxnId => Nat)).NodupKeys) :
    AList.lookup t (⟨_, hKeys⟩ : FinMap TxnId Nat) = some commitTs ↔
      ∃ e, AList.lookup t history = some e ∧ e.commitTs = commitTs ∧ e.commitTs ≤ bound := by
  rw [← FinMap.mem_entries]
  simp only [List.mem_map]
  constructor
  · rintro ⟨⟨t', e⟩, he, hPair⟩
    obtain ⟨rfl, rfl⟩ : t' = t ∧ e.commitTs = commitTs := by simpa using hPair
    obtain ⟨hLookup, hLe⟩ := FinMap.mem_lookup_retain.mp (FinMap.mem_entries.mp he)
    exact ⟨e, hLookup, rfl, by simpa using hLe⟩
  · rintro ⟨e, hLookup, rfl, hLe⟩
    refine ⟨⟨t, e⟩, FinMap.mem_entries.mpr (FinMap.mem_lookup_retain.mpr ⟨hLookup, ?_⟩), rfl⟩
    simpa using hLe

theorem lookup_snapshot {m : VisibilityManager} {t : TxnId} {commitTs : Nat} :
    AList.lookup t m.snapshot.commitTsMap = some commitTs ↔
      ∃ e, AList.lookup t m.committedHistory = some e ∧ e.commitTs = commitTs ∧
        e.commitTs ≤ m.snapshot.snapshotId :=
  lookup_commitTsMap _

theorem le_snapshotId_of_mem {m : VisibilityManager} {t : TxnId} {e : HistoryEntry}
    (h : AList.lookup t m.committedHistory = some e) : e.commitTs ≤ m.snapshot.snapshotId := by
  have hMem : e.commitTs ∈ m.committedHistory.entries.map fun e => e.2.commitTs :=
    List.mem_map.mpr ⟨⟨t, e⟩, FinMap.mem_entries.mpr h, rfl⟩
  have hMax : e.commitTs ≤ (m.committedHistory.entries.map fun e => e.2.commitTs).foldr max 0 :=
    List.le_max_of_le hMem le_rfl
  exact hMax.trans (le_max_right _ _)

/-- A snapshot sees a transaction of the history that is behind `committedTxn` and not
active. -/
theorem snapshot_sees_of_lookup {m : VisibilityManager} {t : TxnId} {e : HistoryEntry}
    (hLookup : AList.lookup t m.committedHistory = some e) (hBelow : t ≤ m.committedTxn)
    (hEnded : t ∉ m.activeTxns) : m.snapshot.sees t = true := by
  have hActive : t ∉ m.snapshot.activeTxns := by
    simp only [snapshot, List.mem_toFinset]
    exact fun h => hEnded (AList.mem_keys.mpr h)
  have hTs := le_snapshotId_of_mem hLookup
  have hLe : t ≤ m.snapshot.snapshotId := hBelow.trans (le_max_left _ _)
  have hCommitTs : AList.lookup t m.snapshot.commitTsMap = some e.commitTs :=
    lookup_snapshot.mpr ⟨e, hLookup, rfl, hTs⟩
  unfold TxnSnapshot.sees
  rw [if_neg (Nat.not_lt.mpr hLe), if_neg hActive, hCommitTs]
  simpa using hTs

/-- A snapshot sees exactly the transactions of the history. -/
theorem Coherent.snapshot_sees {m : VisibilityManager} (h : m.Coherent) (t : TxnId) :
    m.snapshot.sees t = true ↔ t ∈ m.committedHistory := by
  constructor
  · intro hSees
    unfold TxnSnapshot.sees at hSees
    split at hSees
    · cases hSees
    · split at hSees
      · cases hSees
      · split at hSees
        · next hLookup =>
          obtain ⟨e, he, -⟩ := lookup_snapshot.mp hLookup
          exact FinMap.mem_iff_lookup.mpr ⟨e, he⟩
        · cases hSees
  · intro hMem
    obtain ⟨e, he⟩ := FinMap.mem_iff_lookup.mp hMem
    exact snapshot_sees_of_lookup he (h.below t hMem) (h.ended t hMem)

theorem recoverCommittedHistory_spec (m : VisibilityManager) (history : List (TxnId × Nat))
    (walInsertedAt : FinMap TxnId Nat) (now : Nat) :
    let m' := m.recoverCommittedHistory history walInsertedAt now
    m'.activeTxns = m.activeTxns ∧ m.committedTxn ≤ m'.committedTxn ∧
      (∀ t, t ∈ m'.committedHistory ↔ t ∈ history.map Prod.fst) ∧
      ∀ t ∈ m'.committedHistory, t ≤ m'.committedTxn := by
  have hFold : ∀ start : VisibilityManager,
      (∀ t ∈ start.committedHistory, t ≤ start.committedTxn) →
      let m' := history.foldl (fun m pair =>
        { m with
          committedHistory := AList.insert pair.1
            ⟨pair.2, (AList.lookup pair.1 walInsertedAt).getD now⟩ m.committedHistory
          committedTxn := max m.committedTxn pair.1 }) start
      m'.activeTxns = start.activeTxns ∧ start.committedTxn ≤ m'.committedTxn ∧
        (∀ t, t ∈ m'.committedHistory ↔ t ∈ start.committedHistory ∨ t ∈ history.map Prod.fst) ∧
        ∀ t ∈ m'.committedHistory, t ≤ m'.committedTxn := by
    induction history with
    | nil => exact fun start h => ⟨rfl, le_rfl, by simp, h⟩
    | cons pair rest ih =>
        intro start h
        obtain ⟨hActive, hLe, hMem, hBelow⟩ := ih
          { start with
            committedHistory := AList.insert pair.1
              ⟨pair.2, (AList.lookup pair.1 walInsertedAt).getD now⟩ start.committedHistory
            committedTxn := max start.committedTxn pair.1 } (by
              intro t ht
              rcases (AList.mem_insert _).mp ht with rfl | ht
              · exact le_max_right _ _
              · exact le_max_of_le_left (h t ht))
        refine ⟨hActive, (le_max_left _ _).trans hLe, fun t => ?_, hBelow⟩
        rw [List.foldl_cons, hMem t, AList.mem_insert, List.map_cons, List.mem_cons]
        tauto
  obtain ⟨hActive, hLe, hMem, hBelow⟩ := hFold { m with committedHistory := ∅ }
    (fun t ht => absurd ht (AList.notMem_empty t))
  refine ⟨hActive, hLe, fun t => (hMem t).trans ?_, hBelow⟩
  simp

end Z1Kv.VisibilityManager
