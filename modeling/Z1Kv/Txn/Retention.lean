import Z1Kv.Mvcc.Conflicts
import Z1Kv.Txn.Eviction
import Z1Kv.Txn.Ttl

/-! How many entries the count-based eviction leaves, and whether the entry just made
is among them; then the arithmetic of both evictions at the limits of its types. -/
namespace Z1Kv

/-- The order that lists one transaction before all others. -/
def HashOrder.leading (txnId : TxnId) : HashOrder where
  txns := fun l => if txnId ∈ l then txnId :: l.erase txnId else l
  keys := id
  txns_perm := by
    intro l
    split
    · next hMem => exact (List.perm_cons_erase hMem).symm
    · exact .refl _
  keys_perm := List.Perm.refl

namespace VisibilityManager
variable {m : VisibilityManager} {order : HashOrder} {nowMs : Nat}

theorem evictionOrder_length (m : VisibilityManager) (order : HashOrder) :
    (m.evictionOrder order).length = m.committedHistory.keys.length := by
  rw [(m.evictionOrder_perm order).length_eq, List.length_map, AList.keys, List.keys, List.length_map]

/-- Of entries made at the same time the map decides which go first. -/
theorem exists_order_evicts {t : TxnId} {e : HistoryEntry}
    (h : AList.lookup t m.committedHistory = some e)
    (hBefore : m.enteredBefore e.insertedAt < m.overflow) : t ∈ m.evicted (.leading t) := by
  have hKey : t ∈ m.committedHistory.keys := AList.mem_keys.mp (FinMap.mem_iff_lookup.mpr ⟨e, h⟩)
  have hOrder : m.evictionOrder (.leading t) = ((e.insertedAt, t) ::
      (m.committedHistory.keys.erase t).filterMap fun txnId =>
        (AList.lookup txnId m.committedHistory).map fun e => (e.insertedAt, txnId)).insertionSort
          (·.1 ≤ ·.1) := by
    simp only [evictionOrder, HashOrder.leading, if_pos hKey, List.filterMap_cons, h, Option.map_some]
  have hCount := @countP_evictionOrder m (.leading t) (· < e.insertedAt)
  rw [hOrder, (List.perm_insertionSort _ _).countP_eq, List.countP_cons_of_neg (by simp)] at hCount
  rw [evicted_eq, hOrder]
  refine List.mem_map.mpr ⟨(e.insertedAt, t), mem_take_insertionSort ?_, rfl⟩
  exact hCount.trans_lt hBefore

/-- A prune by count keeps to the limit. -/
theorem length_pruneByCount_le (m : VisibilityManager) (order : HashOrder) :
    (m.pruneByCount order).committedHistory.keys.length ≤ m.config.maxHistoryEntries := by
  by_cases hOver : m.committedHistory.keys.length > m.config.maxHistoryEntries
  · have hKept : (m.pruneByCount order).committedHistory.keys ⊆
        ((m.evictionOrder order).drop m.evictCount).map Prod.snd := by
      intro t ht
      obtain ⟨e, he⟩ := FinMap.mem_iff_lookup.mp (AList.mem_keys.mpr ht)
      rw [lookup_pruneByCount] at he
      split at he
      · cases he
      · next hNot =>
        have hMem : (e.insertedAt, t) ∈ m.evictionOrder order := mem_evictionOrder he
        rw [← List.take_append_drop m.evictCount (m.evictionOrder order), List.mem_append] at hMem
        rw [evicted, if_pos hOver] at hNot
        exact List.mem_map.mpr ⟨_, hMem.resolve_left fun hTake =>
          hNot (List.mem_map.mpr ⟨_, hTake, rfl⟩), rfl⟩
    have hLength := ((m.pruneByCount order).committedHistory.keys_nodup.subperm hKept).length_le
    rw [List.length_map, List.length_drop, evictionOrder_length, evictCount] at hLength
    have hMod := Nat.mod_le (m.config.maxHistoryEntries * 4) (2 ^ 64)
    omega
  · rw [pruneByCount, if_neg hOver]
    omega

theorem length_pruneHistory_le (m : VisibilityManager) (order : HashOrder) (nowMs : Nat) :
    (m.pruneHistory order nowMs).committedHistory.keys.length ≤ m.config.maxHistoryEntries := by
  refine le_trans (List.Subperm.length_le ?_) (m.length_pruneByCount_le order)
  refine (AList.keys_nodup _).subperm fun t ht => ?_
  obtain ⟨e, he⟩ := FinMap.mem_iff_lookup.mp (AList.mem_keys.mpr ht)
  exact AList.mem_keys.mp (FinMap.mem_iff_lookup.mpr ⟨e, (lookup_pruneByTime.mp he).1⟩)

/-- The time-based step is not due or has nothing to remove. -/
def TtlIdle (m : VisibilityManager) (nowMs : Nat) : Prop :=
  m.ttlCheckDue nowMs = true → ∀ t e, AList.lookup t m.committedHistory = some e →
    m.cutoff nowMs ≤ e.insertedAt

theorem TtlIdle.lookup (h : m.TtlIdle nowMs) {t : TxnId} {e : HistoryEntry} :
    AList.lookup t (m.pruneHistory order nowMs).committedHistory = some e ↔
      AList.lookup t m.committedHistory = some e ∧ t ∉ m.evicted order := by
  rw [lookup_pruneHistory_iff]
  constructor
  · exact fun ⟨hLookup, hKept, _⟩ => ⟨hLookup, hKept⟩
  · exact fun ⟨hLookup, hKept⟩ => ⟨hLookup, hKept, fun hDue => h hDue t e hLookup⟩

/-- What is asked of a commit: `entered` is the manager with the new entry, `after` the
one that the commit leaves behind. -/
structure KeepsNewest (entered after : VisibilityManager) (txnId : TxnId) : Prop where
  bounded : after.committedHistory.keys.length ≤ entered.config.maxHistoryEntries
  oldestFirst : ∀ s a t b, AList.lookup s entered.committedHistory = some a →
    s ∉ after.committedHistory → AList.lookup t after.committedHistory = some b →
    a.insertedAt ≤ b.insertedAt
  kept : txnId ∈ after.committedHistory
  visible : after.snapshot.sees txnId = true

/-- With the entry that is made now the history is within its limit, or what was entered
at this time fits into four fifths of the limit. -/
def NewestFit (m : VisibilityManager) (txnId : TxnId) (insertedAt : Nat) : Prop :=
  let others := (AList.erase txnId m.committedHistory).entries
  others.length + 1 ≤ m.config.maxHistoryEntries ∨
    others.countP (·.2.insertedAt = insertedAt) + 1 ≤ m.config.maxHistoryEntries * 4 % 2 ^ 64 / 5

instance (m : VisibilityManager) (txnId : TxnId) (insertedAt : Nat) :
    Decidable (m.NewestFit txnId insertedAt) := inferInstanceAs (Decidable (_ ∨ _))

theorem enterCommit_entries (m : VisibilityManager) (txnId : TxnId) (ts insertedAt : Nat) :
    (m.enterCommit txnId ts insertedAt).committedHistory.entries =
      ⟨txnId, ⟨ts, insertedAt⟩⟩ :: (AList.erase txnId m.committedHistory).entries := rfl

/-- The newest entry stays in every order if as many were made before it as have to go. -/
theorem newestFit_iff {txnId : TxnId} (ts : Nat) {insertedAt : Nat}
    (hNewest : ∀ t e, AList.lookup t m.committedHistory = some e → e.insertedAt ≤ insertedAt) :
    m.NewestFit txnId insertedAt ↔ (m.enterCommit txnId ts insertedAt).overflow ≤
      (m.enterCommit txnId ts insertedAt).enteredBefore insertedAt := by
  have hLength : (m.enterCommit txnId ts insertedAt).committedHistory.keys.length =
      (AList.erase txnId m.committedHistory).entries.length + 1 := by
    rw [AList.keys, enterCommit_entries, List.keys, List.length_map, List.length_cons]
  have hBefore : (m.enterCommit txnId ts insertedAt).enteredBefore insertedAt =
      (AList.erase txnId m.committedHistory).entries.countP (·.2.insertedAt < insertedAt) := by
    rw [enteredBefore, enterCommit_entries, List.countP_cons_of_neg (by simp)]
  have hSplit := List.length_eq_countP_add_countP
    (fun e : (_ : TxnId) × HistoryEntry => decide (e.2.insertedAt < insertedAt))
    (l := (AList.erase txnId m.committedHistory).entries)
  have hTies : (AList.erase txnId m.committedHistory).entries.countP
      (fun e => ¬ decide (e.2.insertedAt < insertedAt) = true) =
        (AList.erase txnId m.committedHistory).entries.countP (·.2.insertedAt = insertedAt) := by
    apply List.countP_congr
    intro e he
    have hLookup : AList.lookup e.1 (AList.erase txnId m.committedHistory) = some e.2 :=
      FinMap.mem_entries.mp he
    have hNe : e.1 ≠ txnId := by
      rintro rfl
      rw [AList.lookup_erase] at hLookup
      cases hLookup
    rw [AList.lookup_erase_ne hNe] at hLookup
    have hLe := hNewest e.1 e.2 hLookup
    simp only [decide_eq_true_eq]
    omega
  rw [hTies] at hSplit
  unfold NewestFit overflow evictCount
  rw [hLength, hBefore, enterCommit_config]
  dsimp only
  split <;> omega

theorem keepsNewest_iff {txnId : TxnId} {ts insertedAt : Nat}
    (hIdle : (m.enterCommit txnId ts insertedAt).TtlIdle nowMs) :
    KeepsNewest (m.enterCommit txnId ts insertedAt) (m.committed order txnId insertedAt ts nowMs) txnId ↔
      txnId ∉ (m.enterCommit txnId ts insertedAt).evicted order := by
  have hLookup {t : TxnId} {e : HistoryEntry} :
      AList.lookup t (m.committed order txnId insertedAt ts nowMs).committedHistory = some e ↔
        AList.lookup t (m.enterCommit txnId ts insertedAt).committedHistory = some e ∧
          t ∉ (m.enterCommit txnId ts insertedAt).evicted order := by
    rw [committed_committedHistory, hIdle.lookup]
  constructor
  · intro h
    obtain ⟨e, he⟩ := FinMap.mem_iff_lookup.mp h.kept
    exact (hLookup.mp he).2
  · intro hKept
    have hEntry := hLookup.mpr ⟨m.lookup_enterCommit txnId ts insertedAt, hKept⟩
    refine ⟨?_, ?_, FinMap.mem_iff_lookup.mpr ⟨_, hEntry⟩, snapshot_sees_of_lookup hEntry ?_ ?_⟩
    · rw [committed_committedHistory]
      exact length_pruneHistory_le _ order nowMs
    · intro s a t b ha hGone hb
      obtain ⟨hb, hStays⟩ := hLookup.mp hb
      apply insertedAt_le ha hb _ hStays
      by_contra hNot
      exact hGone (FinMap.mem_iff_lookup.mpr ⟨a, hLookup.mpr ⟨ha, hNot⟩⟩)
    · rw [committed_committedTxn]
      exact le_max_right _ _
    · rw [committed_activeTxns]
      exact fun h => (AList.mem_erase.mp h).1 rfl

/-- A commit keeps the newest entries, its own among them, whatever the order of the
maps, exactly if the entries of this time fit. -/
theorem commit_keeps_newest_iff {txnId : TxnId} {insertedAt ts : Nat}
    (hOk : ∃ order snap, (m.commitTxn order txnId insertedAt ts nowMs).1 = .ok snap)
    (hNewest : ∀ t e, AList.lookup t m.committedHistory = some e → e.insertedAt ≤ insertedAt)
    (hIdle : (m.enterCommit txnId ts insertedAt).TtlIdle nowMs) :
    (∀ order snap after, m.commitTxn order txnId insertedAt ts nowMs = (.ok snap, after) →
      KeepsNewest (m.enterCommit txnId ts insertedAt) after txnId) ↔
        m.NewestFit txnId insertedAt := by
  obtain ⟨first, snap, hFirst⟩ := hOk
  have hPrunes := prunes_of_ok hFirst
  have hEntry := m.lookup_enterCommit txnId ts insertedAt
  rw [newestFit_iff ts hNewest]
  constructor
  · intro h
    by_contra hFew
    have hEvicted := exists_order_evicts hEntry (Nat.lt_of_not_le hFew)
    have hKeeps := h (.leading txnId) _ _ (hPrunes.commitTxn _ _ _ _)
    exact (keepsNewest_iff hIdle).mp hKeeps hEvicted
  · intro hFits order snap after hCommit
    rw [hPrunes.commitTxn, Prod.mk.injEq] at hCommit
    rw [← hCommit.2, keepsNewest_iff hIdle]
    intro hEvicted
    exact absurd (enteredBefore_lt hEntry hEvicted) (Nat.not_lt.mpr hFits)

/-- Five transactions have committed one after the other, with room for no more; a sixth one
is active. -/
def fiveCommitted : VisibilityManager :=
  { newWithConfig { maxHistoryEntries := 5 } with
    committedTxn := 5
    activeTxns := AList.insert 6 { beginTs := 6 } ∅
    committedHistory := FinMap.insertAll ∅ ((List.range 5).map fun i => (i + 1, ⟨1000 + i, 1000 + i⟩))
    committedTsShadow := FinMap.insertAll ∅ ((List.range 5).map fun i => (i + 1, 1000 + i))
    commitSeq := 5
    lastTtlCheckSeq := 5
    lastTtlCheckMs := 1000 }

theorem sixth_commit_kept :
    (fiveCommitted.commitTxn .listed 6 1500 1500 1500).2.committedHistory.keys = [6, 5, 4, 3] ∧
      ∀ order snap after, fiveCommitted.commitTxn order 6 1500 1500 1500 = (.ok snap, after) →
        KeepsNewest (fiveCommitted.enterCommit 6 1500 1500) after 6 := by
  have hFit : fiveCommitted.NewestFit 6 1500 := by decide +kernel
  have hEntered : ∀ pair ∈ fiveCommitted.committedHistory.entries, pair.2.insertedAt ≤ 1500 := by
    decide +kernel
  refine ⟨by decide +kernel, (commit_keeps_newest_iff ⟨.listed, _, rfl⟩ (fun t e hLookup => ?_) ?_).mpr hFit⟩
  · exact hEntered ⟨t, e⟩ (FinMap.mem_entries.mpr hLookup)
  · intro hDue
    exact absurd hDue (by decide +kernel)

/-- One transaction has committed, a second one is active. -/
def oneCommitted (maxHistoryEntries : Nat) : VisibilityManager :=
  { newWithConfig { maxHistoryEntries } with
    committedTxn := 1
    activeTxns := AList.insert 2 { beginTs := 2 } ∅
    committedHistory := AList.insert 1 ⟨1000, 1000⟩ ∅
    committedTsShadow := AList.insert 1 1000 ∅
    commitSeq := 1
    lastTtlCheckSeq := 1
    lastTtlCheckMs := 1000 }

theorem oneCommitted_entered {maxHistoryEntries : Nat} {t : TxnId} {e : HistoryEntry}
    (h : AList.lookup t (oneCommitted maxHistoryEntries).committedHistory = some e) :
    e.insertedAt ≤ 1500 := by
  by_cases hFirst : t = 1
  · rw [hFirst, oneCommitted, AList.lookup_insert] at h
    rw [← Option.some.inj h]
    decide
  · rw [oneCommitted, AList.lookup_insert_ne hFirst] at h
    cases h

theorem oneCommitted_idle (maxHistoryEntries : Nat) :
    ((oneCommitted maxHistoryEntries).enterCommit 2 1500 1500).TtlIdle 1500 := by
  intro hDue
  simp [ttlCheckDue, enterCommit, oneCommitted] at hDue

/-- With room for one entry four fifths are none, and the second commit evicts itself. -/
theorem second_commit_evicted :
    ¬ ∀ (m : VisibilityManager) (order : HashOrder) (txnId : TxnId) (insertedAt ts nowMs : Nat) snap
        after, 1 ≤ m.config.maxHistoryEntries →
      (∀ t e, AList.lookup t m.committedHistory = some e → e.insertedAt ≤ insertedAt) →
      (m.enterCommit txnId ts insertedAt).TtlIdle nowMs →
      m.commitTxn order txnId insertedAt ts nowMs = (.ok snap, after) →
        KeepsNewest (m.enterCommit txnId ts insertedAt) after txnId := by
  intro h
  have hKeeps := h (oneCommitted 1) .listed 2 1500 1500 1500 _ _ le_rfl
    (fun _ _ h => oneCommitted_entered h) (oneCommitted_idle 1) rfl
  have hEmpty : ((oneCommitted 1).commitTxn .listed 2 1500 1500 1500).2.committedHistory.keys = [] := by
    decide +kernel
  have hMem := AList.mem_keys.mp hKeeps.kept
  exact absurd (hEmpty ▸ hMem) List.not_mem_nil

/-- A multiplication of `u64` values with an overflow check. -/
def checkedMul (a b : Nat) : Option Nat := if a * b < 2 ^ 64 then some (a * b) else none

/-- `pruneByCount` with an overflow check on its multiplication. -/
def pruneByCountChecked (m : VisibilityManager) (order : HashOrder) : Option VisibilityManager :=
  if m.committedHistory.keys.length > m.config.maxHistoryEntries then
    (checkedMul m.config.maxHistoryEntries 4).map fun product =>
      let evictCount := m.committedHistory.keys.length - product / 5
      let evicted := ((m.evictionOrder order).take evictCount).map Prod.snd
      let history := m.committedHistory.eraseAll evicted
      { m with
        committedHistory := history
        committedTsShadow := m.committedTsShadow.retain fun txnId _ => txnId ∈ history }
  else some m

/-- `pruneByTime` with an overflow check on its multiplication. The subtractions of the
source saturate or wrap as they are meant to. -/
def pruneByTimeChecked (m : VisibilityManager) (nowMs : Nat) : Option VisibilityManager :=
  if m.ttlCheckDue nowMs then
    (checkedMul m.config.historyTtlSecs 1000).map fun ttlMs =>
      let cutoff := max (nowMs - ttlMs) m.replayWatermark
      let history := m.committedHistory.retain fun _ e => e.insertedAt ≥ cutoff
      { m with
        lastTtlCheckSeq := m.commitSeq
        lastTtlCheckMs := nowMs
        committedHistory := history
        committedTsShadow := m.committedTsShadow.retain fun txnId _ => txnId ∈ history }
  else some m

def pruneHistoryChecked (m : VisibilityManager) (order : HashOrder) (nowMs : Nat) :
    Option VisibilityManager :=
  (m.pruneByCountChecked order).bind fun m => m.pruneByTimeChecked nowMs

/-- `commitTxn` with overflow checks: `none` where a multiplication overflows. -/
def commitTxnChecked (m : VisibilityManager) (order : HashOrder) (txnId : TxnId)
    (insertedAt ts nowMs : Nat) : Option (Except MvccConflict TxnSnapshot × VisibilityManager) :=
  match AList.lookup txnId m.activeTxns with
  | none => some (.error (.notActive txnId), m)
  | some txn =>
      match m.ssiConflict order txnId txn with
      | some conflict => some (.error conflict, m.abortTxn txnId)
      | none =>
          ((m.enterCommit txnId ts insertedAt).pruneHistoryChecked order nowMs).map fun m =>
            (.ok (m.abortTxn txnId).snapshot, m.abortTxn txnId)

/-- The products that a prune forms fit into 64 bits. -/
structure InRange (m : VisibilityManager) (nowMs : Nat) : Prop where
  count : m.committedHistory.keys.length > m.config.maxHistoryEntries →
    m.config.maxHistoryEntries * 4 < 2 ^ 64
  time : m.ttlCheckDue nowMs = true → m.config.historyTtlSecs * 1000 < 2 ^ 64

theorem pruneByCountChecked_eq (h : m.committedHistory.keys.length > m.config.maxHistoryEntries →
    m.config.maxHistoryEntries * 4 < 2 ^ 64) :
    m.pruneByCountChecked order = some (m.pruneByCount order) := by
  unfold pruneByCountChecked pruneByCount
  split
  · next hOver =>
    rw [checkedMul, if_pos (h hOver)]
    simp only [evictCount, Nat.mod_eq_of_lt (h hOver), Option.map_some]
  · rfl

theorem pruneByTimeChecked_eq (h : m.ttlCheckDue nowMs = true →
    m.config.historyTtlSecs * 1000 < 2 ^ 64) :
    m.pruneByTimeChecked nowMs = some (m.pruneByTime nowMs) := by
  unfold pruneByTimeChecked pruneByTime
  split
  · next hDue =>
    rw [checkedMul, if_pos (h hDue)]
    simp only [ttlMs_eq (h hDue), Option.map_some]
  · rfl

/-- Within the range the checked prune is the prune; outside it overflows. -/
theorem pruneHistoryChecked_eq (h : m.InRange nowMs) :
    m.pruneHistoryChecked order nowMs = some (m.pruneHistory order nowMs) := by
  rw [pruneHistoryChecked, pruneByCountChecked_eq h.count, Option.bind_some, pruneByTimeChecked_eq]
  · rfl
  · rw [pruneByCount_ttlCheckDue, pruneByCount_config]
    exact h.time

theorem InRange.of_checked {after : VisibilityManager}
    (h : m.pruneHistoryChecked order nowMs = some after) : m.InRange nowMs := by
  obtain ⟨counted, hCounted, hTimed⟩ := Option.bind_eq_some_iff.mp h
  have hCount : m.committedHistory.keys.length > m.config.maxHistoryEntries →
      m.config.maxHistoryEntries * 4 < 2 ^ 64 := by
    intro hOver
    by_contra hLarge
    rw [pruneByCountChecked, if_pos hOver, checkedMul, if_neg hLarge] at hCounted
    cases hCounted
  rw [pruneByCountChecked_eq hCount] at hCounted
  obtain rfl := Option.some.inj hCounted
  refine ⟨hCount, fun hDue => ?_⟩
  by_contra hLarge
  rw [pruneByTimeChecked, pruneByCount_ttlCheckDue, if_pos hDue, pruneByCount_config, checkedMul,
    if_neg hLarge] at hTimed
  cases hTimed

theorem commitTxnChecked_isSome {txnId : TxnId} {insertedAt ts : Nat} :
    (m.commitTxnChecked order txnId insertedAt ts nowMs).isSome = true ↔
      (m.Prunes txnId → (m.enterCommit txnId ts insertedAt).InRange nowMs) := by
  cases hActive : AList.lookup txnId m.activeTxns with
  | none =>
      have hNot : ¬ m.Prunes txnId := by
        rintro ⟨txn, hTxn, -⟩
        rw [hActive] at hTxn
        cases hTxn
      simp [commitTxnChecked, hActive, hNot]
  | some txn =>
      cases hSsi : m.ssiConflict order txnId txn with
      | some conflict =>
          have hNot : ¬ m.Prunes txnId := by
            rintro ⟨txn', hTxn, hApart⟩
            obtain rfl := Option.some.inj (hActive.symm.trans hTxn)
            rw [ssiConflict_eq_none.mpr hApart] at hSsi
            cases hSsi
          simp [commitTxnChecked, hActive, hSsi, hNot]
      | none =>
          have hPrunes : m.Prunes txnId := ⟨txn, hActive, ssiConflict_eq_none.mp hSsi⟩
          simp only [commitTxnChecked, hActive, hSsi, Option.isSome_map, hPrunes, forall_const]
          constructor
          · intro h
            obtain ⟨after, hAfter⟩ := Option.isSome_iff_exists.mp h
            exact InRange.of_checked hAfter
          · intro h
            rw [pruneHistoryChecked_eq h]
            rfl

/-- The same manager with another TTL. -/
def withTtl (m : VisibilityManager) (historyTtlSecs : Nat) : VisibilityManager :=
  { m with config := { m.config with historyTtlSecs } }

@[simp] theorem withTtl_ttlCheckDue (m : VisibilityManager) (ttl nowMs : Nat) :
    (m.withTtl ttl).ttlCheckDue nowMs = m.ttlCheckDue nowMs := by
  simp only [ttlCheckDue, withTtl]
  rfl

@[simp] theorem withTtl_evicted (m : VisibilityManager) (ttl : Nat) (order : HashOrder) :
    (m.withTtl ttl).evicted order = m.evicted order := by
  simp only [evicted, evictionOrder, evictCount, withTtl]
  rfl

theorem enterCommit_withTtl (m : VisibilityManager) (ttl : Nat) (txnId : TxnId) (ts insertedAt : Nat) :
    (m.withTtl ttl).enterCommit txnId ts insertedAt = (m.enterCommit txnId ts insertedAt).withTtl ttl := by
  simp only [enterCommit, withTtl]

theorem withTtl_ttlMs_le (m : VisibilityManager) (ttl : Nat) : (m.withTtl ttl).ttlMs ≤ ttl * 1000 := by
  simp only [ttlMs, withTtl]
  exact Nat.mod_le _ _

/-- No entry goes at the TTL of the manager that would stay at a smaller one. -/
def LongerKeeps (m : VisibilityManager) (order : HashOrder) (txnId : TxnId)
    (insertedAt ts nowMs : Nat) : Prop :=
  ∀ ttl ≤ m.config.historyTtlSecs, ∀ t e,
    AList.lookup t ((m.withTtl ttl).commitTxn order txnId insertedAt ts nowMs).2.committedHistory =
        some e →
      AList.lookup t (m.commitTxn order txnId insertedAt ts nowMs).2.committedHistory = some e

theorem InRange.longer (h : m.InRange nowMs) {ttl : Nat} (hTtl : ttl ≤ m.config.historyTtlSecs)
    {t : TxnId} {e : HistoryEntry}
    (hLookup : AList.lookup t ((m.withTtl ttl).pruneHistory order nowMs).committedHistory = some e) :
    AList.lookup t (m.pruneHistory order nowMs).committedHistory = some e := by
  obtain ⟨hEntry, hKept, hTime⟩ := lookup_pruneHistory_iff.mp hLookup
  rw [withTtl_evicted] at hKept
  rw [withTtl_ttlCheckDue] at hTime
  refine lookup_pruneHistory_iff.mpr ⟨hEntry, hKept, fun hDue => le_trans ?_ (hTime hDue)⟩
  have hShorter : (m.withTtl ttl).ttlMs ≤ m.ttlMs := by
    calc (m.withTtl ttl).ttlMs ≤ ttl * 1000 := m.withTtl_ttlMs_le ttl
      _ ≤ m.config.historyTtlSecs * 1000 := Nat.mul_le_mul_right 1000 hTtl
      _ = m.ttlMs := (ttlMs_eq (h.time hDue)).symm
  unfold cutoff
  exact max_le_max (Nat.sub_le_sub_left hShorter nowMs) le_rfl

theorem longerKeeps {txnId : TxnId} {insertedAt ts : Nat}
    (h : m.Prunes txnId → (m.enterCommit txnId ts insertedAt).InRange nowMs) :
    m.LongerKeeps order txnId insertedAt ts nowMs := by
  intro ttl hTtl t e hLookup
  have hSame : (m.withTtl ttl).Prunes txnId ↔ m.Prunes txnId := Iff.rfl
  by_cases hPrunes : m.Prunes txnId
  · rw [(hSame.mpr hPrunes).commitTxn, committed_committedHistory, enterCommit_withTtl] at hLookup
    rw [hPrunes.commitTxn, committed_committedHistory]
    exact (h hPrunes).longer hTtl hLookup
  · rw [(commitTxn_of_not_prunes (hPrunes ∘ hSame.mp) order insertedAt ts nowMs).2.1] at hLookup
    rw [(commitTxn_of_not_prunes hPrunes order insertedAt ts nowMs).2.1]
    exact hLookup

/-- The prune of a commit overflows nowhere, and a longer TTL keeps what a shorter one
keeps, exactly if the products it forms fit into 64 bits. -/
theorem prune_arithmetic_safe_iff (m : VisibilityManager) (order : HashOrder) (txnId : TxnId)
    (insertedAt ts nowMs : Nat) :
    ((m.commitTxnChecked order txnId insertedAt ts nowMs).isSome = true ∧
        m.LongerKeeps order txnId insertedAt ts nowMs) ↔
      (m.Prunes txnId → (m.enterCommit txnId ts insertedAt).InRange nowMs) := by
  constructor
  · exact fun h => commitTxnChecked_isSome.mp h.1
  · exact fun h => ⟨commitTxnChecked_isSome.mpr h, longerKeeps h⟩

/-- A TTL of 18446744073709552 seconds comes to 384 milliseconds: the multiplication
overflows, and an entry goes that stays at 3600 seconds. -/
theorem huge_ttl_evicts :
    let m := (oneCommitted 100000).withTtl 18446744073709552
    m.commitTxnChecked .listed 2 2500 2500 2500 = none ∧
      ¬ m.LongerKeeps .listed 2 2500 2500 2500 := by
  intro m
  have hLong : AList.lookup 1 (m.commitTxn .listed 2 2500 2500 2500).2.committedHistory = none := by
    decide +kernel
  have hShort : AList.lookup 1 ((m.withTtl 3600).commitTxn .listed 2 2500 2500 2500).2.committedHistory =
      some ⟨1000, 1000⟩ := by decide +kernel
  have hOverflow : (m.commitTxnChecked .listed 2 2500 2500 2500).isSome = false := by decide +kernel
  refine ⟨Option.not_isSome_iff_eq_none.mp (by simp [hOverflow]), fun hKeeps => ?_⟩
  have hKept := hKeeps 3600 (by decide) 1 _ hShort
  rw [hLong] at hKept
  cases hKept

end VisibilityManager
end Z1Kv
