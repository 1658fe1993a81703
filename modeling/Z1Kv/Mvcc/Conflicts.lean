import Z1Kv.Mvcc.History

/-! What the SSI check finds, whatever the iteration orders. -/
namespace Z1Kv.VisibilityManager

/-- Transactions that an index lists under a key. -/
def listed (index : FinMap Bytes (List TxnId)) (key : Bytes) : List TxnId :=
  (AList.lookup key index).getD []

theorem firstListed_eq_none {index : FinMap Bytes (List TxnId)} {key : Bytes} :
    firstListed index key = none ↔ listed index key = [] := by
  unfold firstListed listed
  cases AList.lookup key index with
  | none => simp
  | some txns => simp [List.head?_eq_none_iff]

theorem listed_addKeys (other : TxnId) (keys : List Bytes) (index : FinMap Bytes (List TxnId))
    (key : Bytes) :
    listed (keys.foldl (fun index key =>
        AList.insert key ((AList.lookup key index).getD [] ++ [other]) index) index) key = [] ↔
      listed index key = [] ∧ key ∉ keys := by
  induction keys generalizing index with
  | nil => simp
  | cons first rest ih =>
      rw [List.foldl_cons, ih, List.mem_cons, not_or]
      by_cases hKey : key = first
      · subst hKey
        simp [listed]
      · have hSame : listed (AList.insert first
            ((AList.lookup first index).getD [] ++ [other]) index) key = listed index key := by
          unfold listed
          rw [AList.lookup_insert_ne hKey]
        rw [hSame]
        simp [hKey]

/-- A fold lists nothing under a key if none of its steps adds to it. -/
theorem listed_foldl {step : FinMap Bytes (List TxnId) → TxnId → FinMap Bytes (List TxnId)}
    {key : Bytes} {P : TxnId → Prop}
    (hStep : ∀ index other, listed (step index other) key = [] ↔ listed index key = [] ∧ P other)
    (txns : List TxnId) (index : FinMap Bytes (List TxnId)) :
    listed (txns.foldl step index) key = [] ↔ listed index key = [] ∧ ∀ other ∈ txns, P other := by
  induction txns generalizing index with
  | nil => simp
  | cons first rest ih => rw [List.foldl_cons, ih, hStep, List.forall_mem_cons, and_assoc]

/-- A key is listed if another active transaction has it. -/
theorem firstListed_keyIndex {m : VisibilityManager} {order : HashOrder} {txnId : TxnId}
    {keysOf : TxnMeta → List Bytes} {key : Bytes} :
    firstListed (m.keyIndex order txnId keysOf) key = none ↔
      ∀ other txn, other ≠ txnId → AList.lookup other m.activeTxns = some txn → key ∉ keysOf txn := by
  rw [firstListed_eq_none, keyIndex, listed_foldl (P := fun other => ∀ txn, other ≠ txnId →
    AList.lookup other m.activeTxns = some txn → key ∉ keysOf txn)]
  · constructor
    · rintro ⟨-, hNone⟩ other txn hNe hLookup
      refine hNone other ?_ txn hNe hLookup
      rw [(order.txns_perm _).mem_iff]
      exact AList.mem_keys.mp (FinMap.mem_iff_lookup.mpr ⟨txn, hLookup⟩)
    · exact fun h => ⟨rfl, fun other _ => h other⟩
  · intro index first
    by_cases hFirst : first = txnId
    · simp [hFirst]
    · rw [if_neg hFirst]
      cases hLookup : AList.lookup first m.activeTxns with
      | none => simp
      | some txn =>
          simp only [listed_addKeys, (order.keys_perm _).mem_iff, Option.some.injEq]
          grind

/-- Two transactions get in each other's way: one wrote what the other one read or
wrote. -/
def Overlaps (txn other : TxnMeta) : Prop :=
  (∃ key ∈ txn.readKeys, key ∈ other.writtenKeys) ∨
    ∃ key ∈ txn.writtenKeys, key ∈ other.readKeys ∨ key ∈ other.writtenKeys

/-- The check finds a conflict if the transaction overlaps another active one. -/
theorem ssiConflict_eq_none {m : VisibilityManager} {order : HashOrder} {txnId : TxnId}
    {txn : TxnMeta} :
    m.ssiConflict order txnId txn = none ↔
      ∀ otherId other, otherId ≠ txnId → AList.lookup otherId m.activeTxns = some other →
        ¬ Overlaps txn other := by
  have hReads : (order.keys txn.readKeys).findSome?
      (firstListed (m.keyIndex order txnId TxnMeta.writtenKeys)) = none ↔
        ∀ key ∈ txn.readKeys, ∀ otherId other, otherId ≠ txnId →
          AList.lookup otherId m.activeTxns = some other → key ∉ other.writtenKeys := by
    simp only [List.findSome?_eq_none_iff, (order.keys_perm _).mem_iff, firstListed_keyIndex]
  have hWrites : ((order.keys txn.writtenKeys).findSome? fun key =>
      (firstListed (m.keyIndex order txnId TxnMeta.readKeys) key).or
        (firstListed (m.keyIndex order txnId TxnMeta.writtenKeys) key)) = none ↔
        ∀ key ∈ txn.writtenKeys, ∀ otherId other, otherId ≠ txnId →
          AList.lookup otherId m.activeTxns = some other →
            key ∉ other.readKeys ∧ key ∉ other.writtenKeys := by
    simp only [List.findSome?_eq_none_iff, (order.keys_perm _).mem_iff, Option.or_eq_none_iff,
      firstListed_keyIndex]
    grind
  have hCheck : m.ssiConflict order txnId txn = none ↔
      (order.keys txn.readKeys).findSome?
          (firstListed (m.keyIndex order txnId TxnMeta.writtenKeys)) = none ∧
        ((order.keys txn.writtenKeys).findSome? fun key =>
          (firstListed (m.keyIndex order txnId TxnMeta.readKeys) key).or
            (firstListed (m.keyIndex order txnId TxnMeta.writtenKeys) key)) = none := by
    unfold ssiConflict
    dsimp only
    split
    · next other hSome => simp [hSome]
    · next hNone =>
      split
      · next other hSome => simp [hSome]
      · next hNone' => simp [hNone, hNone']
  rw [hCheck, hReads, hWrites]
  unfold Overlaps
  constructor
  · rintro ⟨hRead, hWrite⟩ otherId other hNe hLookup (⟨key, hKey, hIn⟩ | ⟨key, hKey, hIn⟩)
    · exact hRead key hKey otherId other hNe hLookup hIn
    · obtain ⟨hNotRead, hNotWritten⟩ := hWrite key hKey otherId other hNe hLookup
      exact hIn.elim hNotRead hNotWritten
  · intro h
    refine ⟨fun key hKey otherId other hNe hLookup hIn => ?_, fun key hKey otherId other hNe hLookup => ?_⟩
    · exact h otherId other hNe hLookup (Or.inl ⟨key, hKey, hIn⟩)
    · exact ⟨fun hIn => h otherId other hNe hLookup (Or.inr ⟨key, hKey, Or.inl hIn⟩),
        fun hIn => h otherId other hNe hLookup (Or.inr ⟨key, hKey, Or.inr hIn⟩)⟩

/-- What the check reports is a conflict of this transaction. -/
theorem ssiConflict_eq_some {m : VisibilityManager} {order : HashOrder} {txnId : TxnId} {txn : TxnMeta}
    {conflict : MvccConflict} (h : m.ssiConflict order txnId txn = some conflict) :
    ∃ other readWrite writeWrite, conflict = .ssiConflict txnId other readWrite writeWrite := by
  unfold ssiConflict at h
  dsimp only at h
  split at h
  · next other _ => exact ⟨other, true, false, (Option.some.inj h).symm⟩
  · split at h
    · next other _ => exact ⟨other, false, true, (Option.some.inj h).symm⟩
    · cases h

/-- A commit of an active transaction fails exactly when the transaction overlaps another
active one, and then only ends it; otherwise it ends it and moves `committedTxn`, and the
other active transactions stay as they are. -/
theorem commitTxn_fails_iff_overlaps (m : VisibilityManager) (order : HashOrder) (txnId : TxnId)
    (insertedAt ts nowMs : Nat) {txn : TxnMeta} (hActive : AList.lookup txnId m.activeTxns = some txn) :
    ((∃ other readWrite writeWrite, (m.commitTxn order txnId insertedAt ts nowMs).1 =
        .error (.ssiConflict txnId other readWrite writeWrite)) ↔
      ∃ otherId other, otherId ≠ txnId ∧ AList.lookup otherId m.activeTxns = some other ∧
        Overlaps txn other) ∧
    (∀ conflict, (m.commitTxn order txnId insertedAt ts nowMs).1 = .error conflict →
      (m.commitTxn order txnId insertedAt ts nowMs).2 =
        { m with activeTxns := AList.erase txnId m.activeTxns }) ∧
    ∀ snap, (m.commitTxn order txnId insertedAt ts nowMs).1 = .ok snap →
      txnId ∉ (m.commitTxn order txnId insertedAt ts nowMs).2.activeTxns ∧
      (m.commitTxn order txnId insertedAt ts nowMs).2.committedTxn = max m.committedTxn txnId ∧
      ∀ otherId, otherId ≠ txnId →
        AList.lookup otherId (m.commitTxn order txnId insertedAt ts nowMs).2.activeTxns =
          AList.lookup otherId m.activeTxns := by
  have hCheck := @ssiConflict_eq_none m order txnId txn
  rcases m.commitTxn_cases order txnId insertedAt ts nowMs with
    ⟨hNot, -⟩ | ⟨txn', conflict, hLookup, hSsi, hEq⟩ | ⟨txn', hLookup, hSsi, hEq⟩
  · exact absurd (FinMap.mem_iff_lookup.mpr ⟨txn, hActive⟩) hNot
  · obtain rfl := Option.some.inj (hActive.symm.trans hLookup)
    rw [hEq]
    refine ⟨⟨fun _ => ?_, fun _ => ?_⟩, fun _ _ => rfl, fun snap hOk => (by cases hOk)⟩
    · by_contra hNone
      have hNoConflict := hCheck.mpr fun otherId other hNe hOther hOverlaps =>
        hNone ⟨otherId, other, hNe, hOther, hOverlaps⟩
      rw [hSsi] at hNoConflict
      cases hNoConflict
    · obtain ⟨other, readWrite, writeWrite, rfl⟩ := ssiConflict_eq_some hSsi
      exact ⟨other, readWrite, writeWrite, rfl⟩
  · obtain rfl := Option.some.inj (hActive.symm.trans hLookup)
    rw [hEq]
    refine ⟨⟨?_, ?_⟩, fun conflict hErr => (by cases hErr), fun snap _ => ⟨?_, ?_, ?_⟩⟩
    · rintro ⟨other, readWrite, writeWrite, hErr⟩
      cases hErr
    · rintro ⟨otherId, other, hNe, hOther, hOverlaps⟩
      exact absurd hOverlaps (hCheck.mp hSsi otherId other hNe hOther)
    · simp
    · exact committed_committedTxn m order txnId insertedAt ts nowMs
    · intro otherId hNe
      rw [committed_activeTxns, AList.lookup_erase_ne hNe]

/-- A commit gets as far as the prune: its transaction is active and overlaps no other
active one. -/
def Prunes (m : VisibilityManager) (txnId : TxnId) : Prop :=
  ∃ txn, AList.lookup txnId m.activeTxns = some txn ∧ ∀ otherId other, otherId ≠ txnId →
    AList.lookup otherId m.activeTxns = some other → ¬ Overlaps txn other

theorem Prunes.commitTxn {m : VisibilityManager} {txnId : TxnId} (h : m.Prunes txnId) (order : HashOrder)
    (insertedAt ts nowMs : Nat) :
    m.commitTxn order txnId insertedAt ts nowMs =
      (.ok (m.committed order txnId insertedAt ts nowMs).snapshot,
        m.committed order txnId insertedAt ts nowMs) := by
  obtain ⟨txn, hActive, hApart⟩ := h
  rcases m.commitTxn_cases order txnId insertedAt ts nowMs with
    ⟨hIdle, -⟩ | ⟨txn', conflict, hTxn, hSome, -⟩ | ⟨txn', -, -, hEq⟩
  · exact absurd (FinMap.mem_iff_lookup.mpr ⟨txn, hActive⟩) hIdle
  · obtain rfl := Option.some.inj (hActive.symm.trans hTxn)
    rw [ssiConflict_eq_none.mpr hApart] at hSome
    cases hSome
  · exact hEq

/-- Any other commit fails and leaves the history and `committedTxn` alone. -/
theorem commitTxn_of_not_prunes {m : VisibilityManager} {txnId : TxnId} (h : ¬ m.Prunes txnId)
    (order : HashOrder) (insertedAt ts nowMs : Nat) :
    (∃ e, (m.commitTxn order txnId insertedAt ts nowMs).1 = .error e) ∧
      (m.commitTxn order txnId insertedAt ts nowMs).2.committedHistory = m.committedHistory ∧
      (m.commitTxn order txnId insertedAt ts nowMs).2.committedTxn = m.committedTxn := by
  rcases m.commitTxn_cases order txnId insertedAt ts nowMs with
    ⟨-, hEq⟩ | ⟨txn, conflict, -, -, hEq⟩ | ⟨txn, hActive, hNone, -⟩
  · rw [hEq]
    exact ⟨⟨_, rfl⟩, rfl, rfl⟩
  · rw [hEq]
    exact ⟨⟨_, rfl⟩, abortTxn_committedHistory m txnId, abortTxn_committedTxn m txnId⟩
  · exact absurd ⟨txn, hActive, ssiConflict_eq_none.mp hNone⟩ h

/-- Whether a commit goes through does not depend on the order of the maps. -/
theorem prunes_of_ok {m : VisibilityManager} {order : HashOrder} {txnId : TxnId} {insertedAt ts nowMs : Nat}
    {snap : TxnSnapshot}
    (h : (m.commitTxn order txnId insertedAt ts nowMs).1 = .ok snap) : m.Prunes txnId := by
  by_contra hNot
  obtain ⟨⟨e, hError⟩, -⟩ := commitTxn_of_not_prunes hNot order insertedAt ts nowMs
  rw [h] at hError
  cases hError

/-- The first of two transactions that wrote the same key cannot commit. -/
theorem second_writer_fails_first :
    let m : VisibilityManager :=
      { newWithConfig {} with
        activeTxns := AList.insert 2 ⟨2, [], [[107]]⟩ (AList.insert 1 ⟨1, [], [[107]]⟩ ∅) }
    ∃ other readWrite writeWrite,
      (m.commitTxn .listed 1 0 0 0).1 = .error (.ssiConflict 1 other readWrite writeWrite) := by
  intro m
  refine (@commitTxn_fails_iff_overlaps m .listed 1 0 0 0 ⟨1, [], [[107]]⟩ rfl).1.mpr ?_
  exact ⟨2, ⟨2, [], [[107]]⟩, by decide, rfl, Or.inr ⟨[107], by simp, by simp⟩⟩

end Z1Kv.VisibilityManager
