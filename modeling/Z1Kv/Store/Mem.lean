import Z1Kv.Store.Types

/-! L1: the in-memory store. New writes go to `hot`; a flush takes the whole hot
buffer and leaves it readable as `snapshot`. Nothing ever fills `cold`. -/
namespace Z1Kv

structure MemStore where
  hot : VersionMap
  cold : VersionMap
  snapshot : VersionMap
  hotSizeBytes : Nat
  flushThreshold : Nat

/-- A key of this column family within `[start, end)`. -/
def inRange (cf : UInt16) (start : Bytes) (endKey : Option Bytes) (key : Z1Key) : Bool :=
  key.cf = cf && start ≤ key.key && endKey.all fun bound => key.key < bound

namespace MemStore

def new (flushThreshold : Nat) : MemStore := ⟨∅, ∅, ∅, 0, flushThreshold⟩

def estimateSize (e : Z1Entry) : Nat :=
  (e.key.key.length + 2) + (e.value.elim 0 List.length) + 32

/-- The memory insert shared by `put` and `replay_put`. -/
def replayPut (l1 : MemStore) (e : Z1Entry) : MemStore :=
  { l1 with hot := l1.hot.put e, hotSizeBytes := l1.hotSizeBytes + estimateSize e }

def shouldFlush (l1 : MemStore) : Bool := l1.hotSizeBytes > l1.flushThreshold

def swapAndDrain (l1 : MemStore) : List Z1Entry × MemStore :=
  (l1.hot.values, { l1 with hot := ∅, snapshot := l1.hot, hotSizeBytes := 0 })

/-- The three buffers in reading order. -/
def sources (l1 : MemStore) : List Z1Entry := l1.hot.values ++ l1.cold.values ++ l1.snapshot.values

/-- Visible versions of a key, by transaction. -/
def getVersions (l1 : MemStore) (snap : TxnSnapshot) (cf : UInt16) (key : Bytes) : List Z1Entry :=
  ((l1.sources.filter fun e => e.key = ⟨cf, key⟩).filter (·.isVisibleAtCommit snap)).insertionSort
    (·.txnId ≤ ·.txnId)

/-- For each key in the range the visible version of the highest transaction. -/
def rangeVisible (l1 : MemStore) (snap : TxnSnapshot) (cf : UInt16) (start : Bytes)
    (endKey : Option Bytes) : List (Bytes × Z1Entry) :=
  let visible := l1.sources.filter fun e => inRange cf start endKey e.key && e.isVisibleAtCommit snap
  (FinMap.keepMaxAll Z1Entry.txnId ∅ (visible.map fun e => (e.key.key, e))).ascending

theorem mem_getVersions {l1 : MemStore} {snap : TxnSnapshot} {cf : UInt16} {key : Bytes}
    {e : Z1Entry} :
    e ∈ l1.getVersions snap cf key ↔
      e ∈ l1.sources ∧ e.key = ⟨cf, key⟩ ∧ snap.sees e.txnId = true := by
  simp only [getVersions, List.mem_insertionSort, List.mem_filter, decide_eq_true_eq,
    Z1Entry.isVisibleAtCommit, and_assoc]

/-- The offered version of a key is a visible one in the range, and the highest. -/
theorem rangeVisible_sound {l1 : MemStore} {snap : TxnSnapshot} {cf : UInt16} {start : Bytes}
    {endKey : Option Bytes} {k : Bytes} {e : Z1Entry}
    (h : (k, e) ∈ l1.rangeVisible snap cf start endKey) :
    e ∈ l1.sources ∧ inRange cf start endKey ⟨cf, k⟩ = true ∧ e.key = ⟨cf, k⟩ ∧
      snap.sees e.txnId = true := by
  obtain ⟨hFrom, -⟩ := FinMap.keepMaxAll_sound _ (FinMap.mem_ascending.mp h)
  obtain ⟨e', he', hPair⟩ := List.mem_map.mp (hFrom.resolve_left (by simp))
  obtain ⟨rfl, rfl⟩ : e'.key.key = k ∧ e' = e := by simpa using hPair
  obtain ⟨hSource, hVisible⟩ := List.mem_filter.mp he'
  rw [Bool.and_eq_true] at hVisible
  have hCf : e'.key.cf = cf := by
    have := hVisible.1
    simp only [inRange, Bool.and_eq_true, decide_eq_true_eq] at this
    exact this.1.1
  have hKey : e'.key = ⟨cf, e'.key.key⟩ := by rw [← hCf]
  exact ⟨hSource, hKey ▸ hVisible.1, hKey, hVisible.2⟩

theorem rangeVisible_complete {l1 : MemStore} {snap : TxnSnapshot} {cf : UInt16} {start : Bytes}
    {endKey : Option Bytes} {k : Bytes} {e : Z1Entry} (he : e ∈ l1.sources) (hKey : e.key = ⟨cf, k⟩)
    (hRange : inRange cf start endKey ⟨cf, k⟩ = true) (hSeen : snap.sees e.txnId = true) :
    ∃ top, (k, top) ∈ l1.rangeVisible snap cf start endKey ∧ e.txnId ≤ top.txnId := by
  have hPair : (k, e) ∈ (l1.sources.filter fun e =>
      inRange cf start endKey e.key && e.isVisibleAtCommit snap).map fun e => (e.key.key, e) := by
    refine List.mem_map.mpr ⟨e, List.mem_filter.mpr ⟨he, ?_⟩, by rw [hKey]⟩
    rw [hKey, hRange]
    exact hSeen
  obtain ⟨top, hTop⟩ := FinMap.mem_iff_lookup.mp
    (FinMap.keepMaxAll_complete Z1Entry.txnId (Or.inr ⟨e, hPair⟩))
  exact ⟨top, FinMap.mem_ascending.mpr hTop, (FinMap.keepMaxAll_sound _ hTop).2.2 e hPair⟩

end MemStore
end Z1Kv
