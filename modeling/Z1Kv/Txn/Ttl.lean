import Z1Kv.Txn.Snapshots

/-! Time-based eviction of the committed history. The cutoff is the larger of the
TTL bound and the replay watermark, so after a reopen the watermark takes
recovered entries away long before their TTL is over. -/
namespace Z1Kv

namespace VisibilityManager
variable {m : VisibilityManager} {nowMs : Nat}

/-- More than the TTL lies between the insertion and this clock reading. -/
def Expired (m : VisibilityManager) (nowMs insertedAt : Nat) : Prop :=
  insertedAt + m.config.historyTtlSecs * 1000 < nowMs

/-- The time-based step removes expired entries only. -/
def KeepsUnexpired (m : VisibilityManager) (nowMs : Nat) : Prop :=
  ∀ t entry, AList.lookup t m.committedHistory = some entry → ¬ m.Expired nowMs entry.insertedAt →
    AList.lookup t (m.pruneByTime nowMs).committedHistory = some entry

/-- If the time-based step is due, everything entered before the replay watermark
has expired. -/
def WatermarkExpired (m : VisibilityManager) (nowMs : Nat) : Prop :=
  m.ttlCheckDue nowMs = true → ∀ t entry, AList.lookup t m.committedHistory = some entry →
    entry.insertedAt < m.replayWatermark → m.Expired nowMs entry.insertedAt

instance (m : VisibilityManager) (nowMs insertedAt : Nat) : Decidable (m.Expired nowMs insertedAt) :=
  inferInstanceAs (Decidable (_ < _))

instance (m : VisibilityManager) (nowMs : Nat) : Decidable (m.WatermarkExpired nowMs) :=
  decidable_of_iff (m.ttlCheckDue nowMs = true → ∀ pair ∈ m.committedHistory.entries,
      pair.2.insertedAt < m.replayWatermark → m.Expired nowMs pair.2.insertedAt)
    ⟨fun h hDue t entry hLookup => h hDue ⟨t, entry⟩ (FinMap.mem_entries.mpr hLookup),
      fun h hDue pair hPair => h hDue pair.1 pair.2 (FinMap.mem_entries.mp hPair)⟩

theorem ttlMs_eq (h : m.config.historyTtlSecs * 1000 < 2 ^ 64) :
    m.ttlMs = m.config.historyTtlSecs * 1000 := Nat.mod_eq_of_lt h

theorem keepsUnexpired_iff (h : m.config.historyTtlSecs * 1000 < 2 ^ 64) :
    m.KeepsUnexpired nowMs ↔ m.WatermarkExpired nowMs := by
  constructor
  · intro hKeeps hDue t entry hLookup hBefore
    by_contra hFresh
    have hCutoff := (lookup_pruneByTime.mp (hKeeps t entry hLookup hFresh)).2 hDue
    have hWatermark := (le_max_right _ _).trans hCutoff
    omega
  · intro hWatermark t entry hLookup hFresh
    refine lookup_pruneByTime.mpr ⟨hLookup, fun hDue => max_le ?_ ?_⟩
    · rw [ttlMs_eq h]
      unfold Expired at hFresh
      omega
    · by_contra hBefore
      exact hFresh (hWatermark hDue t entry hLookup (Nat.lt_of_not_le hBefore))

/-- A prune without count-based eviction is the time-based step. -/
theorem pruneHistory_of_le {order : HashOrder}
    (h : m.committedHistory.keys.length ≤ m.config.maxHistoryEntries) :
    m.pruneHistory order nowMs = m.pruneByTime nowMs := by
  rw [pruneHistory, pruneByCount, if_neg (Nat.not_lt.mpr h)]

@[simp] theorem abortTxn_config (m : VisibilityManager) (txnId : TxnId) :
    (m.abortTxn txnId).config = m.config := rfl

@[simp] theorem committed_config (m : VisibilityManager) (order : HashOrder) (txnId : TxnId)
    (insertedAt ts nowMs : Nat) :
    (m.committed order txnId insertedAt ts nowMs).config = m.config := by
  rw [committed, abortTxn_config, pruneHistory_config, enterCommit_config]

@[simp] theorem modifyActive_config (m : VisibilityManager) (txnId : TxnId)
    (f : TxnMeta → TxnMeta) : (m.modifyActive txnId f).config = m.config := by
  unfold modifyActive
  split <;> rfl

/-- A successful commit keeps an unexpired entry of another transaction, if
nothing goes by count and the watermark does no harm. -/
theorem lookup_committed_of_fresh {order : HashOrder} {txnId t : TxnId} {insertedAt ts : Nat}
    {entry : HistoryEntry} (hTtl : m.config.historyTtlSecs * 1000 < 2 ^ 64) (hNe : t ≠ txnId)
    (hLookup : AList.lookup t m.committedHistory = some entry)
    (hCount : (m.enterCommit txnId ts insertedAt).committedHistory.keys.length ≤
      m.config.maxHistoryEntries)
    (hWatermark : (m.enterCommit txnId ts insertedAt).WatermarkExpired nowMs)
    (hFresh : ¬ m.Expired nowMs entry.insertedAt) :
    AList.lookup t (m.committed order txnId insertedAt ts nowMs).committedHistory = some entry := by
  rw [committed, abortTxn_committedHistory, pruneHistory_of_le hCount]
  have hEntered : (m.enterCommit txnId ts insertedAt).config.historyTtlSecs * 1000 < 2 ^ 64 := by
    rw [enterCommit_config]
    exact hTtl
  have hKeeps := (keepsUnexpired_iff hEntered).mpr hWatermark
  apply hKeeps t entry
  · rw [enterCommit_committedHistory, AList.lookup_insert_ne hNe]
    exact hLookup
  · exact hFresh

end VisibilityManager

namespace Engine
variable {codec : Codec} {db : Engine} {op : Op}

theorem MvccEffect.config {reply : Reply} {mvcc : VisibilityManager}
    (h : db.MvccEffect op reply mvcc) : mvcc.config = db.mvcc.config := by
  cases h with
  | begun h =>
      obtain ⟨-, -, rfl⟩ := VisibilityManager.beginTxn_eq_ok h
      rfl
  | wrote => exact VisibilityManager.modifyActive_config _ _ _
  | read => exact VisibilityManager.modifyActive_config _ _ _
  | committed => exact VisibilityManager.committed_config _ _ _ _ _ _
  | conflicted => rfl
  | rolledBack => rfl
  | failed => rfl
  | idle => rfl

/-- A call under which this version and its history entry should stay: a commit
evicts nothing by count, the insertion is within the TTL, the replay watermark does
no harm, and a compaction does not give the version up. -/
structure Keeps (codec : Codec) (db : Engine) (op : Op) (e : Z1Entry) (insertedAt : Nat) :
    Prop where
  commits : ∀ txnId env, op = .commit txnId env →
    (db.mvcc.enterCommit txnId env.ts env.insertedAt).committedHistory.keys.length ≤
      db.mvcc.config.maxHistoryEntries ∧
    (db.mvcc.enterCommit txnId env.ts env.insertedAt).WatermarkExpired env.nowMs ∧
    ¬ db.mvcc.Expired env.nowMs insertedAt
  compactions : ∀ s watermark, db.compaction? codec op = some (s, watermark) → s.Survives watermark e

theorem Keeps.later {e : Z1Entry} {insertedAt later : Nat} (h : db.Keeps codec op e insertedAt)
    (hLe : insertedAt ≤ later) : db.Keeps codec op e later := by
  refine ⟨fun txnId env hOp => ?_, h.compactions⟩
  obtain ⟨hCount, hWatermark, hFresh⟩ := h.commits txnId env hOp
  refine ⟨hCount, hWatermark, fun hExpired => hFresh ?_⟩
  exact (Nat.add_le_add_right hLe _).trans_lt hExpired

/-- A committed version that is in the layers and in the history. -/
structure Readable (db : Engine) (e : Z1Entry) (entry : HistoryEntry) : Prop where
  inHistory : AList.lookup e.txnId db.mvcc.committedHistory = some entry
  retained : db.store.Retains e

theorem Readable.ended {e : Z1Entry} {entry : HistoryEntry} (h : db.Readable e entry)
    (hSound : db.Sound) : e.txnId ∉ db.mvcc.activeTxns :=
  hSound.coherent.ended _ (FinMap.mem_iff_lookup.mpr ⟨entry, h.inHistory⟩)

theorem Readable.step {e : Z1Entry} {entry : HistoryEntry} (h : db.Readable e entry)
    (hSound : db.Sound) (hTtl : db.mvcc.config.historyTtlSecs * 1000 < 2 ^ 64)
    (hKeeps : db.Keeps codec op e entry.insertedAt) : (db.step codec op).2.Readable e entry := by
  have hEnded := h.ended hSound
  constructor
  · have hEffect := db.step_mvcc codec op
    generalize (db.step codec op).1 = reply at hEffect
    generalize (db.step codec op).2.mvcc = mvcc at hEffect
    cases hEffect with
    | begun hBegin =>
        obtain ⟨-, -, rfl⟩ := VisibilityManager.beginTxn_eq_ok hBegin
        exact h.inHistory
    | wrote =>
        rw [VisibilityManager.recordWrite, VisibilityManager.modifyActive_committedHistory]
        exact h.inHistory
    | read =>
        rw [VisibilityManager.recordRead, VisibilityManager.modifyActive_committedHistory]
        exact h.inHistory
    | @committed txnId env txn hLookup hSsi =>
        obtain ⟨hCount, hWatermark, hFresh⟩ := hKeeps.commits txnId env rfl
        have hNe : e.txnId ≠ txnId := by
          intro hEq
          exact hEnded (FinMap.mem_iff_lookup.mpr ⟨txn, hEq ▸ hLookup⟩)
        exact VisibilityManager.lookup_committed_of_fresh hTtl hNe h.inHistory hCount hWatermark hFresh
    | conflicted => exact h.inHistory
    | rolledBack => exact h.inHistory
    | failed => exact h.inHistory
    | idle => exact h.inHistory
  · refine @step_store codec db op (fun s => s.Retains e) h.retained ?_ ?_ ?_
    · intro new _ hActive
      refine h.retained.write fun hId => hEnded ?_
      rw [(Prod.mk.inj hId).2]
      exact hActive
    · exact fun s writes hRetains => hRetains.flush writes
    · exact fun s watermark s' hRetains hPoint hCompacted =>
        hRetains.compacted hCompacted (hKeeps.compactions s watermark hPoint)

/-- A get of the key finds this version or a newer committed one. -/
theorem Readable.get {e : Z1Entry} {entry : HistoryEntry} (h : db.Readable e entry)
    (hSound : db.Sound) :
    (db.get e.key.cf e.key.key).1 = e.value ∨
      ∃ newer ∈ db.store.held, newer.key = e.key ∧ e.txnId < newer.txnId ∧
        newer.txnId ∈ db.mvcc.committedHistory ∧ (db.get e.key.cf e.key.key).1 = newer.value := by
  have hHeld : e ∈ db.store.held := Store.mem_held.mpr (Or.inl h.retained.isSettled)
  have hSeen : db.snapshot.1.sees e.txnId = true :=
    (hSound.snapshot_sees _).mpr (FinMap.mem_iff_lookup.mpr ⟨entry, h.inHistory⟩)
  obtain ⟨found, hFinds, hGet⟩ := db.store.getAt_finds db.snapshot.1 e.key.cf e.key.key
  have hGet' : (db.get e.key.cf e.key.key).1 = found.bind Z1Entry.value := hGet
  cases found with
  | none => exact absurd hSeen (hFinds e hHeld rfl)
  | some top =>
      rw [hGet']
      rcases Nat.lt_or_eq_of_le (hFinds.newest e hHeld rfl hSeen) with hLt | hEq
      · exact Or.inr ⟨top, hFinds.isHeld, hFinds.hasKey, hLt,
          (hSound.snapshot_sees _).mp hFinds.isVisible, rfl⟩
      · have hId : top.id = e.id := Prod.ext hFinds.hasKey hEq.symm
        rw [h.retained.only top hFinds.isHeld hId]
        exact Or.inl rfl

theorem Readable.run {e : Z1Entry} {entry : HistoryEntry} (h : db.Readable e entry) (hSound : db.Sound)
    (hTtl : db.mvcc.config.historyTtlSecs * 1000 < 2 ^ 64) {later : List Op}
    (hMeets : EachMeets (Engine.step codec) (fun _ db op => db.Keeps codec op e entry.insertedAt) [] db
      later) : (db.run codec later).2.Sound ∧ (db.run codec later).2.Readable e entry := by
  have hRun := runs_invariant (fun _ (db : Engine) =>
    db.Sound ∧ db.mvcc.config.historyTtlSecs * 1000 < 2 ^ 64 ∧ db.Readable e entry)
    (fun _ db op => db.Keeps codec op e entry.insertedAt) ?_ ⟨hSound, hTtl, h⟩ hMeets
  · exact ⟨hRun.1, hRun.2.2⟩
  · rintro - db op ⟨hSound, hTtl, hReadable⟩ hKeeps
    refine ⟨hSound.step op, ?_, hReadable.step hSound hTtl hKeeps⟩
    rw [(db.step_mvcc codec op).config]
    exact hTtl

end Engine
end Z1Kv
