import Z1Kv.Txn.Snapshots
import Z1Kv.Wal.Postcard

/-! Eviction from the committed history and reads. Versions are ordered by
transaction id but evicted by insertion time; where the two orders disagree, a
prune takes the newer version of a key away and leaves the older one. -/
namespace Z1Kv

namespace VisibilityManager
variable {m : VisibilityManager} {order : HashOrder} {nowMs : Nat}

/-- Entries that the count-based step is to remove. -/
def overflow (m : VisibilityManager) : Nat :=
  if m.committedHistory.keys.length > m.config.maxHistoryEntries then m.evictCount else 0

/-- Bound of the time-based step. -/
def cutoff (m : VisibilityManager) (nowMs : Nat) : Nat := max (nowMs - m.ttlMs) m.replayWatermark

/-- Entries made before this time, and entries made up to it. -/
def enteredBefore (m : VisibilityManager) (time : Nat) : Nat :=
  m.committedHistory.entries.countP (·.2.insertedAt < time)

def enteredBy (m : VisibilityManager) (time : Nat) : Nat :=
  m.committedHistory.entries.countP (·.2.insertedAt ≤ time)

/-- In some iteration order of the history a prune evicts the first entry and
keeps the second. -/
structure MayPart (m : VisibilityManager) (nowMs : Nat) (a b : HistoryEntry) : Prop where
  before : a.insertedAt ≤ b.insertedAt
  reaches : m.enteredBefore a.insertedAt < m.overflow ∨
    m.ttlCheckDue nowMs = true ∧ a.insertedAt < m.cutoff nowMs
  countKeeps : m.overflow < m.enteredBy b.insertedAt
  timeKeeps : m.ttlCheckDue nowMs = true → m.cutoff nowMs ≤ b.insertedAt

theorem evicted_eq (m : VisibilityManager) (order : HashOrder) :
    m.evicted order = ((m.evictionOrder order).take m.overflow).map Prod.snd := by
  unfold evicted overflow
  split
  · rfl
  · simp

theorem evictionOrder_perm (m : VisibilityManager) (order : HashOrder) :
    (m.evictionOrder order).Perm
      (m.committedHistory.entries.map fun e => (e.2.insertedAt, e.1)) := by
  have hListed : (m.committedHistory.keys.filterMap fun txnId =>
      (AList.lookup txnId m.committedHistory).map fun e => (e.insertedAt, txnId)) =
        m.committedHistory.entries.map fun e => (e.2.insertedAt, e.1) := by
    rw [AList.keys, List.keys, List.filterMap_map, ← List.filterMap_eq_map]
    apply List.filterMap_congr
    intro e he
    have hLookup : AList.lookup e.1 m.committedHistory = some e.2 := FinMap.mem_entries.mp he
    simp [hLookup]
  rw [← hListed]
  exact (List.perm_insertionSort _ _).trans ((order.txns_perm _).filterMap _)

theorem evictionOrder_pairwise (m : VisibilityManager) (order : HashOrder) :
    (m.evictionOrder order).Pairwise (·.1 ≤ ·.1) :=
  List.pairwise_insertionSort (fun a b : Nat × TxnId => a.1 ≤ b.1) _

theorem mem_evictionOrder {t : TxnId} {e : HistoryEntry}
    (h : AList.lookup t m.committedHistory = some e) : (e.insertedAt, t) ∈ m.evictionOrder order := by
  rw [(m.evictionOrder_perm order).mem_iff]
  exact List.mem_map.mpr ⟨⟨t, e⟩, FinMap.mem_entries.mpr h, rfl⟩

theorem countP_evictionOrder (p : Nat → Bool) :
    (m.evictionOrder order).countP (fun pair => p pair.1) =
      m.committedHistory.entries.countP fun e => p e.2.insertedAt := by
  rw [(m.evictionOrder_perm order).countP_eq, List.countP_map]
  rfl

/-- An entry that is evicted by count has fewer than the overflow before it. -/
theorem enteredBefore_lt {t : TxnId} {e : HistoryEntry}
    (h : AList.lookup t m.committedHistory = some e) (hEvicted : t ∈ m.evicted order) :
    m.enteredBefore e.insertedAt < m.overflow := by
  rw [evicted_eq] at hEvicted
  obtain ⟨⟨time, t'⟩, hPair, rfl⟩ := List.mem_map.mp hEvicted
  have hTime : time = e.insertedAt := by
    have hMem := (m.evictionOrder_perm order).mem_iff.mp (List.mem_of_mem_take hPair)
    obtain ⟨e', he', hEq⟩ := List.mem_map.mp hMem
    obtain ⟨rfl, rfl⟩ := Prod.mk.inj hEq
    rw [Option.some.inj ((FinMap.mem_entries.mp he').symm.trans h)]
  have hCount := countP_lt_of_mem_take (m.evictionOrder_pairwise order) hPair
  rw [countP_evictionOrder (fun time' => time' < time), hTime] at hCount
  exact hCount

/-- An entry that the count-based step keeps has more than the overflow up to
it. -/
theorem lt_enteredBy {t : TxnId} {e : HistoryEntry}
    (h : AList.lookup t m.committedHistory = some e) (hKept : t ∉ m.evicted order) :
    m.overflow < m.enteredBy e.insertedAt := by
  have hMem : (e.insertedAt, t) ∈ m.evictionOrder order := mem_evictionOrder h
  rw [← List.take_append_drop m.overflow (m.evictionOrder order), List.mem_append] at hMem
  rcases hMem with hTake | hDrop
  · rw [evicted_eq] at hKept
    exact absurd (List.mem_map.mpr ⟨_, hTake, rfl⟩) hKept
  · have hCount := lt_countP_of_mem_drop (m.evictionOrder_pairwise order) hDrop
    rw [countP_evictionOrder (fun time => time ≤ e.insertedAt)] at hCount
    exact hCount

/-- What goes by count was entered no later than what stays. -/
theorem insertedAt_le {s t : TxnId} {a b : HistoryEntry}
    (ha : AList.lookup s m.committedHistory = some a)
    (hb : AList.lookup t m.committedHistory = some b) (hEvicted : s ∈ m.evicted order)
    (hKept : t ∉ m.evicted order) : a.insertedAt ≤ b.insertedAt := by
  have hBefore := enteredBefore_lt ha hEvicted
  have hUpTo := lt_enteredBy hb hKept
  by_contra hLt
  have hMono : m.enteredBy b.insertedAt ≤ m.enteredBefore a.insertedAt := by
    apply List.countP_mono_left
    intro e _ hLe
    simp only [decide_eq_true_eq] at hLe ⊢
    omega
  omega

@[simp] theorem pruneByCount_ttlCheckDue :
    (m.pruneByCount order).ttlCheckDue nowMs = m.ttlCheckDue nowMs := by
  unfold pruneByCount
  split <;> rfl

@[simp] theorem pruneByCount_ttlMs : (m.pruneByCount order).ttlMs = m.ttlMs := by
  unfold ttlMs
  rw [pruneByCount_config]

/-- What a prune lets stay. -/
theorem lookup_pruneHistory_iff {t : TxnId} {e : HistoryEntry} :
    AList.lookup t (m.pruneHistory order nowMs).committedHistory = some e ↔
      AList.lookup t m.committedHistory = some e ∧ t ∉ m.evicted order ∧
        (m.ttlCheckDue nowMs = true → m.cutoff nowMs ≤ e.insertedAt) := by
  rw [pruneHistory, lookup_pruneByTime, lookup_pruneByCount, pruneByCount_ttlCheckDue,
    pruneByCount_ttlMs, pruneByCount_replayWatermark]
  by_cases h : t ∈ m.evicted order
  · simp [h]
  · simp [h, cutoff]

/-- Two entries that a prune parted could part. -/
theorem mayPart_of_pruned {s t : TxnId} {a b : HistoryEntry}
    (ha : AList.lookup s m.committedHistory = some a)
    (hGone : s ∉ (m.pruneHistory order nowMs).committedHistory)
    (hb : AList.lookup t (m.pruneHistory order nowMs).committedHistory = some b) :
    m.MayPart nowMs a b := by
  obtain ⟨hb, hKept, hTime⟩ := lookup_pruneHistory_iff.mp hb
  have hUpTo := lt_enteredBy hb hKept
  by_cases hEvicted : s ∈ m.evicted order
  · exact ⟨insertedAt_le ha hb hEvicted hKept, Or.inl (enteredBefore_lt ha hEvicted), hUpTo, hTime⟩
  · have hDue : m.ttlCheckDue nowMs = true ∧ a.insertedAt < m.cutoff nowMs := by
      by_contra hNot
      apply hGone
      refine FinMap.mem_iff_lookup.mpr ⟨a, lookup_pruneHistory_iff.mpr ⟨ha, hEvicted, fun hDue => ?_⟩⟩
      by_contra hLt
      exact hNot ⟨hDue, Nat.lt_of_not_le hLt⟩
    exact ⟨(hDue.2.trans_le (hTime hDue.1)).le, Or.inr hDue, hUpTo, hTime⟩

/-- The manager after a commit that does not prune. -/
def unpruned (m : VisibilityManager) (txnId : TxnId) (insertedAt ts : Nat) : VisibilityManager :=
  (m.enterCommit txnId ts insertedAt).abortTxn txnId

theorem unpruned_committedHistory (m : VisibilityManager) (txnId : TxnId) (insertedAt ts : Nat) :
    (m.unpruned txnId insertedAt ts).committedHistory =
      (m.enterCommit txnId ts insertedAt).committedHistory := by
  rw [unpruned, abortTxn_committedHistory]

theorem committed_committedHistory (m : VisibilityManager) (order : HashOrder) (txnId : TxnId)
    (insertedAt ts nowMs : Nat) :
    (m.committed order txnId insertedAt ts nowMs).committedHistory =
      ((m.enterCommit txnId ts insertedAt).pruneHistory order nowMs).committedHistory := by
  rw [committed, abortTxn_committedHistory]

/-- The prune of a commit keeps an entry if those that go by count are among the older ones,
and a time step that is due has its bound no later than the entry. -/
theorem mem_committed_of_lookup {t txnId : TxnId} {e : HistoryEntry} {insertedAt ts : Nat}
    (hLookup : AList.lookup t (m.enterCommit txnId ts insertedAt).committedHistory = some e)
    (hCount : (m.enterCommit txnId ts insertedAt).overflow ≤
      (m.enterCommit txnId ts insertedAt).enteredBefore e.insertedAt)
    (hTime : (m.enterCommit txnId ts insertedAt).ttlCheckDue nowMs = true →
      (m.enterCommit txnId ts insertedAt).cutoff nowMs ≤ e.insertedAt) :
    t ∈ (m.committed order txnId insertedAt ts nowMs).committedHistory := by
  rw [committed_committedHistory]
  refine FinMap.mem_iff_lookup.mpr ⟨e, lookup_pruneHistory_iff.mpr ⟨hLookup, fun hEvicted => ?_, hTime⟩⟩
  exact absurd (enteredBefore_lt hLookup hEvicted) (Nat.not_lt.mpr hCount)

theorem Coherent.unpruned (h : m.Coherent) (txnId : TxnId) (insertedAt ts : Nat) :
    (m.unpruned txnId insertedAt ts).Coherent := by
  constructor
  · intro t ht
    rw [VisibilityManager.unpruned, abortTxn_committedHistory, enterCommit_committedHistory,
      AList.mem_insert] at ht
    rw [VisibilityManager.unpruned, abortTxn_committedTxn, enterCommit_committedTxn]
    rcases ht with rfl | ht
    · exact le_max_right _ _
    · exact le_max_of_le_left (h.below t ht)
  · intro t ht hActive
    rw [VisibilityManager.unpruned, abortTxn_committedHistory, enterCommit_committedHistory,
      AList.mem_insert] at ht
    rw [VisibilityManager.unpruned, abortTxn_activeTxns, enterCommit_activeTxns,
      AList.mem_erase] at hActive
    rcases ht with rfl | ht
    · exact hActive.1 rfl
    · exact h.ended t ht hActive.2

end VisibilityManager

namespace Engine
variable {db after : Engine} {env : CommitEnv} {txnId : TxnId}

theorem applyCommit_ok (h : db.applyCommit env txnId = (.ok (), after)) :
    after =
      { db with
        mvcc := db.mvcc.committed env.order txnId env.insertedAt env.ts env.nowMs
        snapshotCache := db.snapshotCache.invalidate
        txnSnapshots := AList.erase txnId db.txnSnapshots } := by
  unfold applyCommit at h
  rcases db.mvcc.commitTxn_cases env.order txnId env.insertedAt env.ts env.nowMs with
    ⟨-, hEq⟩ | ⟨txn, conflict, -, -, hEq⟩ | ⟨txn, -, -, hEq⟩
  · rw [hEq] at h
    cases (Prod.mk.inj h).1
  · rw [hEq] at h
    cases (Prod.mk.inj h).1
  · rw [hEq] at h
    exact (Prod.mk.inj h).2.symm

theorem get_of_none (h : db.snapshotCache.fullCache = none) (cf : UInt16) (key : Bytes) :
    (db.get cf key).1 = db.store.getAt db.mvcc.snapshot cf key := by
  unfold get Engine.snapshot SnapshotCache.snapshot
  rw [h]
  rfl

/-- In the history that a commit leaves to its prune, the newest committed version
of a key cannot be evicted while an older one stays. -/
def NewestOutlasts (db : Engine) (txnId : TxnId) (env : CommitEnv) : Prop :=
  let m := db.mvcc.enterCommit txnId env.ts env.insertedAt
  ∀ a ∈ db.store.held, ∀ b ∈ db.store.held, b.key = a.key → b.txnId < a.txnId →
    (∀ w ∈ db.store.held, w.key = a.key → w.txnId ∈ m.committedHistory → w.txnId ≤ a.txnId) →
    ∀ ea eb, AList.lookup a.txnId m.committedHistory = some ea →
      AList.lookup b.txnId m.committedHistory = some eb → ¬ m.MayPart env.nowMs ea eb

/-- A read that sees part of what another one sees, and not the newest version of
it, finds a version that the other one finds or hides. -/
theorem getAt_eq_of_sees {s : Store} {snap snap' : TxnSnapshot} {cf : UInt16} {key : Bytes}
    (hLess : ∀ t, snap.sees t = true → snap'.sees t = true)
    (hNewest : ∀ a b, IsNewest Z1Entry.key Z1Entry.txnId {e | e ∈ s.held} (snap'.sees · = true)
        ⟨cf, key⟩ a → b ∈ s.held → b.key = a.key → b.txnId < a.txnId → snap.sees b.txnId = true →
      snap.sees a.txnId = true) :
    s.getAt snap cf key = s.getAt snap' cf key ∨ s.getAt snap cf key = none := by
  obtain ⟨found, hFinds, hTop, hGet⟩ := s.getAt_top snap cf key
  obtain ⟨found', hFinds', hTop', hGet'⟩ := s.getAt_top snap' cf key
  cases found with
  | none => exact Or.inr hGet
  | some b =>
      cases found' with
      | none => exact absurd (hLess _ hFinds.isVisible) (hFinds' b hFinds.isHeld hFinds.hasKey)
      | some a =>
          have hLe := hFinds'.newest b hFinds.isHeld hFinds.hasKey (hLess _ hFinds.isVisible)
          have hTxn : b.txnId = a.txnId := by
            refine le_antisymm hLe (Nat.le_of_not_lt fun hLt => ?_)
            have hSeen := hNewest a b hFinds' hFinds.isHeld
              (hFinds.hasKey.trans hFinds'.hasKey.symm) hLt hFinds.isVisible
            exact absurd (hFinds.newest a hFinds'.isHeld hFinds'.hasKey hSeen) (Nat.not_le.mpr hLt)
          have hSame : some b = some a := by
            rw [← hTop b rfl, ← hTop' a rfl, hTxn]
          rw [hGet, hGet', hSame]
          exact Or.inl rfl

end Engine

/-- After a commit with its prune a get returns what it would return without the
prune, or nothing. -/
theorem prune_never_resurrects {codec : Codec} {maxFileSize : Nat} {openEnv : OpenEnv}
    {config : Z1Config} {ops : List LifeOp} {db after : Engine} {wal : WalWriter} {txnId : TxnId}
    {env : CommitEnv} (hLife : (life codec maxFileSize openEnv config ops).2 = some db)
    (hCommit : Engine.applyCommit { db with wal } env txnId = (.ok (), after))
    (hOutlasts : db.NewestOutlasts txnId env) (cf : UInt16) (key : Bytes) :
    (after.get cf key).1 =
        db.store.getAt (db.mvcc.unpruned txnId env.insertedAt env.ts).snapshot cf key ∨
      (after.get cf key).1 = none := by
  have hSound := life_sound hLife
  have hUnpruned := hSound.coherent.unpruned txnId env.insertedAt env.ts
  have hPruned := hSound.coherent.committed env.order txnId env.insertedAt env.ts env.nowMs
  have hMvcc : after.mvcc = db.mvcc.committed env.order txnId env.insertedAt env.ts env.nowMs := by
    rw [Engine.applyCommit_ok hCommit]
  have hStore : after.store = db.store := by rw [Engine.applyCommit_ok hCommit]
  have hCache : after.snapshotCache.fullCache = none := by
    rw [Engine.applyCommit_ok hCommit]
    rfl
  rw [Engine.get_of_none hCache, hMvcc, hStore]
  apply Engine.getAt_eq_of_sees
  · intro t ht
    rw [hPruned.snapshot_sees, VisibilityManager.committed_committedHistory] at ht
    rw [hUnpruned.snapshot_sees, VisibilityManager.unpruned_committedHistory]
    exact VisibilityManager.mem_pruneHistory ht
  · intro a b hNewest hHeld hKey hLt hSeen
    rw [hPruned.snapshot_sees, VisibilityManager.committed_committedHistory] at hSeen ⊢
    have hIn := (hUnpruned.snapshot_sees _).mp hNewest.isVisible
    rw [VisibilityManager.unpruned_committedHistory] at hIn
    obtain ⟨ea, hea⟩ := FinMap.mem_iff_lookup.mp hIn
    obtain ⟨eb, heb⟩ := FinMap.mem_iff_lookup.mp hSeen
    by_contra hGone
    refine hOutlasts a hNewest.isHeld b hHeld hKey hLt ?_ ea eb hea
      (VisibilityManager.lookup_pruneHistory heb)
      (VisibilityManager.mayPart_of_pruned hea hGone heb)
    intro w hw hwKey hwIn
    refine hNewest.newest w hw (hwKey.trans hNewest.hasKey) ?_
    rw [hUnpruned.snapshot_sees, VisibilityManager.unpruned_committedHistory]
    exact hwIn

/-- Two commits to one key at these times and a third transaction about to
commit, with room for two history entries. -/
def twoVersionsRun (first second : Nat) : List LifeOp :=
  [.call .begin, .call (.put 0 [107] [1] 1),
    .call (.commit 1 ⟨first, first, first, .listed, .succeed⟩), .call .begin,
    .call (.put 0 [107] [2] 2), .call (.commit 2 ⟨second, second, second, .listed, .succeed⟩),
    .call .begin]

def smallHistory : Z1Config := { visibility := { maxHistoryEntries := 2 } }

theorem prune_in_order_hides_key :
    ∃ db after, (life Postcard.codec engineSegmentSize (.listed 0) smallHistory
        (twoVersionsRun 1000 2000)).2 = some db ∧
      Engine.applyCommit { db with wal := db.wal } ⟨3000, 3000, 3000, .listed, .succeed⟩ 3 =
        (.ok (), after) ∧
      ((after.get 0 [107]).1 = db.store.getAt (db.mvcc.unpruned 3 3000 3000).snapshot 0 [107] ∨
        (after.get 0 [107]).1 = none) := by
  have hRun : (life Postcard.codec engineSegmentSize (.listed 0) smallHistory
      (twoVersionsRun 1000 2000)).2.map (fun db => (db.store.held,
        (db.mvcc.enterCommit 3 3000 3000).committedEntry 1,
        (db.mvcc.enterCommit 3 3000 3000).committedEntry 2,
        (db.applyCommit ⟨3000, 3000, 3000, .listed, .succeed⟩ 3).1)) =
        some ([⟨⟨0, [107]⟩, 2, some [2]⟩, ⟨⟨0, [107]⟩, 1, some [1]⟩], some (1000, 1000),
          some (2000, 2000), .ok ()) := by decide +kernel
  obtain ⟨db, hDb, hState⟩ := Option.map_eq_some_iff.mp hRun
  simp only [Prod.mk.injEq] at hState
  obtain ⟨hHeld, hFirst, hSecond, hOk⟩ := hState
  obtain ⟨first, hFirstAt, hFirstPair⟩ := Option.map_eq_some_iff.mp hFirst
  obtain ⟨second, hSecondAt, hSecondPair⟩ := Option.map_eq_some_iff.mp hSecond
  have hCommit : Engine.applyCommit { db with wal := db.wal } ⟨3000, 3000, 3000, .listed, .succeed⟩
      3 = (.ok (), (db.applyCommit ⟨3000, 3000, 3000, .listed, .succeed⟩ 3).2) := Prod.ext hOk rfl
  refine ⟨db, _, hDb, hCommit, prune_never_resurrects hDb hCommit ?_ 0 [107]⟩
  intro a ha b hb _ hLt _ ea eb hea heb hPart
  rw [hHeld] at ha hb
  simp only [List.mem_cons, List.not_mem_nil, or_false] at ha hb
  rcases ha with rfl | rfl <;> rcases hb with rfl | rfl
  · exact absurd hLt (by decide)
  · have hTimes := hPart.before
    rw [Option.some.inj (hea.symm.trans hSecondAt), Option.some.inj (heb.symm.trans hFirstAt)] at hTimes
    have hFirstTime : first.insertedAt = 1000 := congrArg Prod.snd hFirstPair
    have hSecondTime : second.insertedAt = 2000 := congrArg Prod.snd hSecondPair
    omega
  · exact absurd hLt (by decide)
  · exact absurd hLt (by decide)

/-- Both versions entered within one millisecond: the iteration order decides, and
the older version comes back. -/
theorem prune_resurrects_old_version :
    ¬ ∀ ops db, (life Postcard.codec engineSegmentSize (.listed 0) smallHistory ops).2 = some db →
      ∀ wal txnId env after, Engine.applyCommit { db with wal } env txnId = (.ok (), after) →
        ∀ cf key, (after.get cf key).1 =
            db.store.getAt (db.mvcc.unpruned txnId env.insertedAt env.ts).snapshot cf key ∨
          (after.get cf key).1 = none := by
  intro h
  have hRun : (life Postcard.codec engineSegmentSize (.listed 0) smallHistory
      (twoVersionsRun 1000 1000)).2.map (fun db =>
        ((db.applyCommit ⟨1000, 1000, 1000, .listed, .succeed⟩ 3).1,
        ((db.applyCommit ⟨1000, 1000, 1000, .listed, .succeed⟩ 3).2.get 0 [107]).1,
        db.store.getAt (db.mvcc.unpruned 3 1000 1000).snapshot 0 [107])) =
        some (.ok (), some [1], some [2]) := by decide +kernel
  obtain ⟨db, hDb, hState⟩ := Option.map_eq_some_iff.mp hRun
  simp only [Prod.mk.injEq] at hState
  obtain ⟨hOk, hAfter, hBefore⟩ := hState
  have hSame := h (twoVersionsRun 1000 1000) db hDb db.wal 3 ⟨1000, 1000, 1000, .listed, .succeed⟩ _
    (Prod.ext hOk rfl) 0 [107]
  rw [hAfter, hBefore] at hSame
  revert hSame
  decide

end Z1Kv
