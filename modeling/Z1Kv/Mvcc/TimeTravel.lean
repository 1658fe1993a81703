import Z1Kv.Mvcc.Conflicts
import Z1Kv.Mvcc.Rules

/-! Snapshots of the past. `snapshot_at` takes a transaction id and compares it with
commit timestamps, which are ids in a recovered history and milliseconds of the clock in
the entries of live commits. -/
namespace Z1Kv.VisibilityManager

/-- `snapshot_at`: the state as of a transaction id. -/
def snapshotAt (m : VisibilityManager) (txnId : TxnId) : TxnSnapshot where
  snapshotId := txnId
  activeTxns := ((m.activeTxns.retain fun _ txn => txn.beginTs ≤ txnId).keys).toFinset
  commitTsMap :=
    ⟨(m.committedHistory.retain fun _ e => e.commitTs ≤ txnId).entries.map
        fun e => ⟨e.1, e.2.commitTs⟩,
      by
        rw [List.NodupKeys, List.keys, List.map_map]
        exact (m.committedHistory.retain _).nodupKeys⟩

variable {m : VisibilityManager}

theorem lookup_snapshotAt {at' t : TxnId} {commitTs : Nat} :
    AList.lookup t (m.snapshotAt at').commitTsMap = some commitTs ↔
      ∃ e, AList.lookup t m.committedHistory = some e ∧ e.commitTs = commitTs ∧ e.commitTs ≤ at' :=
  lookup_commitTsMap _

/-- A snapshot of the past sees the entries whose id and commit timestamp it has
reached. -/
theorem Coherent.snapshotAt_sees (h : m.Coherent) (at' t : TxnId) :
    (m.snapshotAt at').sees t = true ↔
      t ≤ at' ∧ ∃ e, AList.lookup t m.committedHistory = some e ∧ e.commitTs ≤ at' := by
  constructor
  · intro hSees
    unfold TxnSnapshot.sees at hSees
    split at hSees
    · cases hSees
    · next hLe =>
      split at hSees
      · cases hSees
      · split at hSees
        · next hLookup =>
          obtain ⟨e, he, -, hTs⟩ := lookup_snapshotAt.mp hLookup
          exact ⟨Nat.le_of_not_lt hLe, e, he, hTs⟩
        · cases hSees
  · rintro ⟨hLe, e, he, hTs⟩
    have hEnded : t ∉ (m.snapshotAt at').activeTxns := by
      simp only [snapshotAt, List.mem_toFinset]
      intro hKey
      obtain ⟨txn, hTxn⟩ := FinMap.mem_iff_lookup.mp (AList.mem_keys.mpr hKey)
      have hActive := (FinMap.mem_lookup_retain.mp hTxn).1
      exact h.ended t (FinMap.mem_iff_lookup.mpr ⟨e, he⟩) (FinMap.mem_iff_lookup.mpr ⟨txn, hActive⟩)
    have hLookup := lookup_snapshotAt.mpr ⟨e, he, rfl, hTs⟩
    have hId : ¬ t > (m.snapshotAt at').snapshotId := Nat.not_lt.mpr hLe
    unfold TxnSnapshot.sees
    rw [if_neg hId, if_neg hEnded, hLookup]
    exact decide_eq_true hTs

/-- A commit that succeeds, with the `committedTxn` that it reaches. -/
def commitPoint (m : VisibilityManager) : MvccOp → Option (TxnId × TxnId)
  | .commit order txnId insertedAt ts nowMs =>
      match m.commitTxn order txnId insertedAt ts nowMs with
      | (.ok _, m') => some (txnId, m'.committedTxn)
      | (.error _, _) => none
  | _ => none

def commitPoints (m : VisibilityManager) : List MvccOp → List (TxnId × TxnId)
  | [] => []
  | op :: rest => (m.commitPoint op).toList ++ commitPoints (m.step op).2 rest

/-- What is asked of a state in which these commits have been made. -/
structure TimeTravels (m : VisibilityManager) (points : List (TxnId × TxnId)) : Prop where
  current : ∀ t, (m.snapshotAt m.committedTxn).sees t = m.snapshot.sees t
  monotone : ∀ a b t, a ≤ b → (m.snapshotAt a).sees t = true → (m.snapshotAt b).sees t = true
  committed : ∀ point ∈ points, ∀ t, point.2 ≤ t → (m.snapshotAt t).sees point.1 = true

/-- The prune of a call removes nothing. -/
def EvictsNothing (m : VisibilityManager) : MvccOp → Prop
  | .commit order txnId insertedAt ts nowMs =>
      m.Prunes txnId → ∀ t ∈ (m.enterCommit txnId ts insertedAt).committedHistory,
        t ∈ (m.committed order txnId insertedAt ts nowMs).committedHistory
  | _ => True

/-- The clock reading of a commit that goes through is no larger than the `committedTxn`
that it reaches. -/
def CommitsById (m : VisibilityManager) : MvccOp → Prop
  | .commit _ txnId _ ts _ => m.Prunes txnId → ts ≤ max m.committedTxn txnId
  | _ => True

/-- No commit timestamp of the history is above `committedTxn`. -/
def TsBehind (m : VisibilityManager) : Prop :=
  ∀ t e, AList.lookup t m.committedHistory = some e → e.commitTs ≤ m.committedTxn

/-- A call leaves history and `committedTxn` alone or is a commit that goes through. -/
theorem step_cases (m : VisibilityManager) (op : MvccOp) :
    ((m.step op).2.committedHistory = m.committedHistory ∧
      (m.step op).2.committedTxn = m.committedTxn ∧ m.commitPoint op = none) ∨
    ∃ order txnId insertedAt ts nowMs, op = .commit order txnId insertedAt ts nowMs ∧
      m.Prunes txnId ∧ (m.step op).2 = m.committed order txnId insertedAt ts nowMs ∧
      m.commitPoint op = some (txnId, max m.committedTxn txnId) := by
  cases op with
  | begin txnId =>
      refine Or.inl ?_
      unfold step
      dsimp only
      cases hBegin : m.beginTxn txnId with
      | ok m' =>
          obtain ⟨-, -, rfl⟩ := beginTxn_eq_ok hBegin
          exact ⟨rfl, rfl, rfl⟩
      | error conflict => exact ⟨rfl, rfl, rfl⟩
  | recordRead txnId key =>
      exact Or.inl ⟨modifyActive_committedHistory _ _ _, modifyActive_committedTxn _ _ _, rfl⟩
  | recordWrite txnId key =>
      exact Or.inl ⟨modifyActive_committedHistory _ _ _, modifyActive_committedTxn _ _ _, rfl⟩
  | commit order txnId insertedAt ts nowMs =>
      by_cases hPrunes : m.Prunes txnId
      · refine Or.inr ⟨order, txnId, insertedAt, ts, nowMs, rfl, hPrunes, ?_, ?_⟩
        · simp only [step, hPrunes.commitTxn]
        · simp only [commitPoint, hPrunes.commitTxn, committed_committedTxn]
      · obtain ⟨⟨e, hError⟩, hHistory, hTxn⟩ :=
          commitTxn_of_not_prunes hPrunes order insertedAt ts nowMs
        refine Or.inl ?_
        unfold step commitPoint
        dsimp only
        generalize m.commitTxn order txnId insertedAt ts nowMs = outcome at hError hHistory hTxn
        obtain ⟨result, m'⟩ := outcome
        obtain rfl : result = .error e := hError
        exact ⟨hHistory, hTxn, rfl⟩
  | rollback txnId => exact Or.inl ⟨abortTxn_committedHistory _ _, abortTxn_committedTxn _ _, rfl⟩

/-- Without eviction an entry stays as it is. -/
theorem Coherent.step_lookup (h : m.Coherent) {op : MvccOp} (hKept : m.EvictsNothing op) {t : TxnId}
    {e : HistoryEntry} (hLookup : AList.lookup t m.committedHistory = some e) :
    AList.lookup t (m.step op).2.committedHistory = some e := by
  rcases m.step_cases op with
    ⟨hHistory, -, -⟩ | ⟨order, txnId, insertedAt, ts, nowMs, rfl, hPrunes, hAfter, -⟩
  · rw [hHistory]
    exact hLookup
  · have hMem : t ∈ m.committedHistory := FinMap.mem_iff_lookup.mpr ⟨e, hLookup⟩
    have hOther : t ≠ txnId := by
      rintro rfl
      obtain ⟨txn, hActive, -⟩ := hPrunes
      exact h.ended t hMem (FinMap.mem_iff_lookup.mpr ⟨txn, hActive⟩)
    have hStays := hKept hPrunes t (by
      rw [enterCommit_committedHistory, AList.mem_insert]
      exact Or.inr hMem)
    obtain ⟨e', he'⟩ := FinMap.mem_iff_lookup.mp hStays
    rcases lookup_committed he' with ⟨hSame, -⟩ | hOld
    · exact absurd hSame hOther
    · rw [hAfter, he', ← hOld, hLookup]

/-- The entry that a commit makes without eviction. -/
theorem lookup_committed_self {order : HashOrder} {txnId : TxnId} {insertedAt ts nowMs : Nat}
    (hPrunes : m.Prunes txnId) (hKept : m.EvictsNothing (.commit order txnId insertedAt ts nowMs)) :
    AList.lookup txnId (m.committed order txnId insertedAt ts nowMs).committedHistory =
      some ⟨ts, insertedAt⟩ := by
  have hStays := hKept hPrunes txnId (by
    rw [enterCommit_committedHistory, AList.mem_insert]
    exact Or.inl rfl)
  obtain ⟨e, he⟩ := FinMap.mem_iff_lookup.mp hStays
  rw [committed, abortTxn_committedHistory] at he ⊢
  have hEntered := lookup_pruneHistory he
  rw [enterCommit_committedHistory, AList.lookup_insert] at hEntered
  rw [he, hEntered]

theorem TsBehind.step (h : m.TsBehind) {op : MvccOp} (hById : m.CommitsById op) :
    (m.step op).2.TsBehind := by
  intro t e hLookup
  rcases m.step_cases op with
    ⟨hHistory, hTxn, -⟩ | ⟨order, txnId, insertedAt, ts, nowMs, rfl, hPrunes, hAfter, -⟩
  · rw [hHistory] at hLookup
    rw [hTxn]
    exact h t e hLookup
  · rw [hAfter] at hLookup
    rw [hAfter, committed_committedTxn]
    rcases lookup_committed hLookup with ⟨-, rfl⟩ | hOld
    · exact hById hPrunes
    · exact le_max_of_le_left (h t e hOld)

/-- A commit is behind a point of the history: both its id and its timestamp are. -/
def PointPassed (m : VisibilityManager) (point : TxnId × TxnId) : Prop :=
  point.1 ≤ point.2 ∧ ∃ e, AList.lookup point.1 m.committedHistory = some e ∧ e.commitTs ≤ point.2

/-- After a run without eviction in which commits go by their ids, history entries are
behind `committedTxn` and the commits behind the points they reached. -/
theorem Coherent.run (h : m.Coherent) (hBehind : m.TsBehind) {points : List (TxnId × TxnId)}
    (hSettled : ∀ point ∈ points, m.PointPassed point) {past : List (MvccOp × Option MvccConflict)}
    {ops : List MvccOp}
    (hKept : EachMeets VisibilityManager.step (fun _ m op => m.EvictsNothing op) past m ops)
    (hById : EachMeets VisibilityManager.step (fun _ m op => m.CommitsById op) past m ops) :
    let after := (runs VisibilityManager.step m ops).2
    after.Coherent ∧ after.TsBehind ∧ ∀ point ∈ points ++ m.commitPoints ops, after.PointPassed point := by
  induction ops generalizing m points past with
  | nil =>
      rw [commitPoints, List.append_nil]
      exact ⟨h, hBehind, hSettled⟩
  | cons op rest ih =>
      have hNext : ∀ point ∈ points ++ (m.commitPoint op).toList, (m.step op).2.PointPassed point := by
        intro point hPoint
        rcases List.mem_append.mp hPoint with hOld | hNew
        · obtain ⟨hLe, e, he, hTs⟩ := hSettled point hOld
          exact ⟨hLe, e, h.step_lookup hKept.1 he, hTs⟩
        · rw [Option.mem_toList] at hNew
          rcases m.step_cases op with
            ⟨-, -, hNone⟩ | ⟨order, txnId, insertedAt, ts, nowMs, rfl, hPrunes, hAfter, hSome⟩
          · rw [hNone] at hNew
            cases hNew
          · rw [hSome] at hNew
            obtain rfl := Option.some.inj hNew
            rw [hAfter]
            exact ⟨le_max_right _ _, _, lookup_committed_self hPrunes hKept.1, hById.1 hPrunes⟩
      have hRun := ih (h.step op) (hBehind.step hById.1) hNext hKept.2 hById.2
      rw [List.append_assoc] at hRun
      exact hRun

theorem Coherent.timeTravels (h : m.Coherent) (hBehind : m.TsBehind) {points : List (TxnId × TxnId)}
    (hSettled : ∀ point ∈ points, m.PointPassed point) : m.TimeTravels points := by
  refine ⟨fun t => ?_, fun a b t hLe hSees => ?_, fun point hPoint t hLe => ?_⟩
  · rw [Bool.eq_iff_iff, h.snapshotAt_sees, h.snapshot_sees]
    constructor
    · rintro ⟨-, e, he, -⟩
      exact FinMap.mem_iff_lookup.mpr ⟨e, he⟩
    · intro hMem
      obtain ⟨e, he⟩ := FinMap.mem_iff_lookup.mp hMem
      exact ⟨h.below t hMem, e, he, hBehind t e he⟩
  · obtain ⟨hId, e, he, hTs⟩ := (h.snapshotAt_sees a t).mp hSees
    exact (h.snapshotAt_sees b t).mpr ⟨hId.trans hLe, e, he, hTs.trans hLe⟩
  · obtain ⟨hId, e, he, hTs⟩ := hSettled point hPoint
    exact (h.snapshotAt_sees t point.1).mpr ⟨hId.trans hLe, e, he, hTs.trans hLe⟩

/-- If a state travels in time its history is behind `committedTxn`. -/
theorem TimeTravels.tsBehind {points : List (TxnId × TxnId)} (h : m.Coherent)
    (hTravels : m.TimeTravels points) : m.TsBehind := by
  intro t e hLookup
  have hSees := (h.snapshot_sees t).mpr (FinMap.mem_iff_lookup.mpr ⟨e, hLookup⟩)
  rw [← hTravels.current t] at hSees
  obtain ⟨-, e', he', hTs⟩ := (h.snapshotAt_sees _ t).mp hSees
  obtain rfl := Option.some.inj (hLookup.symm.trans he')
  exact hTs

/-- In a run without eviction every state travels in time exactly if the recovered
commit timestamps are not above the recovered `committedTxn`, and no commit reads a
clock that is above the `committedTxn` it reaches. -/
theorem snapshot_at_travels_iff (config : VisibilityConfig) (committedTxn : TxnId)
    (history : List (TxnId × Nat)) (walInsertedAt : FinMap TxnId Nat) (now replayWatermark : Nat)
    (ops : List MvccOp) :
    let start := recovered config committedTxn history walInsertedAt now replayWatermark
    EachMeets VisibilityManager.step (fun _ m op => m.EvictsNothing op) [] start ops →
      ((∀ i, (runs VisibilityManager.step start (ops.take i)).2.TimeTravels
          (start.commitPoints (ops.take i))) ↔
        start.TsBehind ∧ EachMeets VisibilityManager.step (fun _ m op => m.CommitsById op) [] start ops) := by
  intro start hKept
  have hStart : start.Coherent :=
    coherent_recovered config committedTxn history walInsertedAt now replayWatermark
  have hReached (i : Nat) : (runs VisibilityManager.step start (ops.take i)).2.Coherent :=
    @runs_invariant _ _ _ _ (fun _ (m : VisibilityManager) => m.Coherent) (fun _ _ _ => True)
      (fun _ _ op h _ => h.step op) [] _ _ hStart (EachMeets.of_forall fun _ _ => trivial)
  constructor
  · intro hTravels
    refine ⟨(hTravels 0).tsBehind (hReached 0), .of_take fun i op hOp => ?_⟩
    cases op with
    | commit order txnId insertedAt ts nowMs =>
        intro hPrunes
        have hEvicts := hKept.getElem? hOp
        -- the entry just made is behind the point that its commit reaches
        have hNext : (runs VisibilityManager.step start (ops.take (i + 1))).2 =
            (runs VisibilityManager.step start (ops.take i)).2.committed order txnId insertedAt ts nowMs := by
          rw [List.take_add_one, hOp, Option.toList_some, runs_append]
          simp only [runs, VisibilityManager.step, hPrunes.commitTxn]
        have hBehind := (hTravels (i + 1)).tsBehind (hReached (i + 1))
        rw [hNext] at hBehind
        have hTs := hBehind txnId _ (lookup_committed_self hPrunes hEvicts)
        rw [committed_committedTxn] at hTs
        exact hTs
    | _ => trivial
  · rintro ⟨hBehind, hById⟩ i
    obtain ⟨hCoherent, hAfter, hSettled⟩ := @Coherent.run start hStart hBehind [] (by simp) []
      (ops.take i) (hKept.take i) (hById.take i)
    exact hCoherent.timeTravels hAfter hSettled

/-- A commit whose clock reads no more than its id. -/
theorem commit_by_id_travels :
    let ops : List MvccOp := [.begin 1, .commit .listed 1 1 1 1]
    let start := recovered {} 0 [] ∅ 0 0
    (runs VisibilityManager.step start (ops.take 2)).2.TimeTravels (start.commitPoints (ops.take 2)) := by
  intro ops start
  have hKept : EachMeets VisibilityManager.step (fun _ m op => m.EvictsNothing op) [] start ops := by
    refine ⟨trivial, fun _ t ht => ?_, trivial⟩
    rw [enterCommit_committedHistory, AList.mem_insert] at ht
    obtain rfl := ht.resolve_right (AList.notMem_empty t)
    decide +kernel
  refine (snapshot_at_travels_iff {} 0 [] ∅ 0 0 ops hKept).mpr ⟨?_, trivial, ?_, trivial⟩ 2
  · intro t e hLookup
    cases hLookup
  · intro _
    decide +kernel

/-- A commit at the wall clock is visible now and not as of the `committedTxn` that it
reached. -/
theorem live_commit_invisible :
    let m := (runs VisibilityManager.step (recovered {} 0 [] ∅ 0 0)
      [.begin 1, .commit .listed 1 1000 1000 1000]).2
    m.committedTxn = 1 ∧ m.snapshot.sees 1 = true ∧ (m.snapshotAt m.committedTxn).sees 1 = false ∧
      ¬ m.TimeTravels [(1, 1)] := by
  intro m
  have hNow : m.snapshot.sees 1 = true := by decide +kernel
  have hThen : (m.snapshotAt m.committedTxn).sees 1 = false := by decide +kernel
  refine ⟨by decide +kernel, hNow, hThen, fun hTravels => ?_⟩
  have hSame := hTravels.current 1
  rw [hNow, hThen] at hSame
  cases hSame

end Z1Kv.VisibilityManager
