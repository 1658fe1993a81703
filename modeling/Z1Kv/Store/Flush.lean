import Z1Kv.Library.Newest
import Z1Kv.Store.Gc

/-! The three layers together: flush from L1 to L2, compaction from L2 to L3,
and the two read paths over all of them. Writing a patch file may fail; the
outcomes of the writes are an argument, by patch id. -/
namespace Z1Kv

structure Store where
  l1 : MemStore
  recentFlush : VersionMap
  l2 : DiskLayer
  l3 : DiskLayer
  /-- The source's counter is an `AtomicU64`, so this is it for the first `2 ^ 64` ids. -/
  nextPatchId : Nat

/-- Entries by column family, ascending. -/
def cfGroups (entries : List Z1Entry) : List (UInt16 × List PatchEntry) :=
  ((entries.map (·.key.cf)).dedup.insertionSort fun a b => a.toNat ≤ b.toNat).map fun cf =>
    (cf, (entries.filter (·.key.cf = cf)).map PatchEntry.ofZ1Entry)

namespace Store

/-- Write one L2 patch for each group; the first failure ends the loop. -/
def appendGroups (writes : Nat → PatchOutcome) (s : Store) :
    List (UInt16 × List PatchEntry) → Except Z1Error Unit × Store
  | [] => (.ok (), s)
  | (cf, entries) :: rest =>
      let patchId := s.nextPatchId
      match s.l2.appendPatch (writes patchId) cf entries patchId with
      | (.error e, l2) => (.error e, { s with l2, nextPatchId := patchId + 1 })
      | (.ok (), l2) => appendGroups writes { s with l2, nextPatchId := patchId + 1 } rest

/-- The hot buffer moves to the cache of entries in flight. -/
def stage (s : Store) : Store :=
  let (swapped, l1) := s.l1.swapAndDrain
  { s with l1, recentFlush := s.recentFlush.putAll swapped }

/-- Flush L1 to L2. The cache takes the drained buffer, is written as patches, and
is cleared only when every patch was written. -/
def flushL1ToL2 (writes : Nat → PatchOutcome) (s : Store) : Except Z1Error Nat × Store :=
  let s := s.stage
  let groups := cfGroups s.recentFlush.values
  match appendGroups writes s groups with
  | (.error e, s) => (.error e, s)
  | (.ok (), s) => (.ok groups.length, { s with recentFlush := ∅ })

def tryFlush (writes : Nat → PatchOutcome) (s : Store) : Except Z1Error (Option Nat) × Store :=
  if s.l1.shouldFlush then
    match s.flushL1ToL2 writes with
    | (.error e, s) => (.error e, s)
    | (.ok groups, s) => (.ok (some groups), s)
  else (.ok none, s)

/-- Compaction of one column family: merge, write the L3 patch, drop L2. Counts
the family and the reclaimed entries. -/
def compactCf (writes : Nat → PatchOutcome) (watermark : TxnId) (s : Store) (cf : UInt16) :
    Except Z1Error (Nat × Nat) × Store :=
  let versions := s.l2.allVersions cf
  if versions = [] then (.ok (0, 0), s)
  else
    let (retained, stats) := gcEntries (versions.map PatchEntry.ofZ1Entry) watermark
    if retained = [] then (.ok (1, stats.reclaimed), { s with l2 := s.l2.dropCf cf })
    else
      let patchId := s.nextPatchId
      match s.l3.appendPatch (writes patchId) cf retained patchId with
      | (.error e, l3) => (.error e, { s with l3, nextPatchId := patchId + 1 })
      | (.ok (), l3) =>
          (.ok (1, stats.reclaimed),
            { s with l2 := s.l2.dropCf cf, l3, nextPatchId := patchId + 1 })

def compactCfs (writes : Nat → PatchOutcome) (watermark : TxnId) (s : Store) :
    List UInt16 → Except Z1Error (Nat × Nat) × Store
  | [] => (.ok (0, 0), s)
  | cf :: rest =>
      match s.compactCf writes watermark cf with
      | (.error e, s) => (.error e, s)
      | (.ok (cfs, reclaimed), s) =>
          match s.compactCfs writes watermark rest with
          | (.error e, s) => (.error e, s)
          | (.ok (cfs', reclaimed'), s) => (.ok (cfs + cfs', reclaimed + reclaimed'), s)

def compactL2ToL3 (writes : Nat → PatchOutcome) (minActiveBeginTs : TxnId) (s : Store) :
    Except Z1Error (Nat × Nat) × Store :=
  s.compactCfs writes minActiveBeginTs s.l2.listCfs

/-- Compaction when the number of `.zpatch` files of the column families of L2 reaches the
threshold. -/
def tryCompact (writes : Nat → PatchOutcome) (minActiveBeginTs : TxnId) (threshold : Nat) (s : Store) :
    Except Z1Error (Option (Nat × Nat)) × Store :=
  if s.l2.patchCount ≥ threshold then
    match s.compactL2ToL3 writes minActiveBeginTs with
    | (.error e, s) => (.error e, s)
    | (.ok counts, s) => (.ok (some counts), s)
  else (.ok none, s)

/-- The versions of a key that a snapshot sees, layer by layer. -/
def candidates (s : Store) (snap : TxnSnapshot) (cf : UInt16) (key : Bytes) : List Z1Entry :=
  s.l1.getVersions snap cf key ++
    (s.recentFlush.values.filter fun e => e.key = ⟨cf, key⟩).filter (·.isVisibleAtCommit snap) ++
    (s.l2.getVersions cf key).filter (·.isVisibleAtCommit snap) ++
    (s.l3.getVersions cf key).filter (·.isVisibleAtCommit snap)

/-- Point get: the last candidate of the highest transaction; a tombstone reads
as absent. -/
def getAt (s : Store) (snap : TxnSnapshot) (cf : UInt16) (key : Bytes) : Option Bytes :=
  (maxByKey Z1Entry.txnId (s.candidates snap cf key)).bind Z1Entry.value

/-- Range scan: the first highest version among the four sources, where the disk
layers offer one version for each key. -/
def scanAt (s : Store) (snap : TxnSnapshot) (cf : UInt16) (start : Bytes) (endKey : Option Bytes) :
    List (Bytes × Bytes) :=
  let l1 := s.l1.rangeVisible snap cf start endKey
  let cached := (s.recentFlush.values.filter fun e =>
    inRange cf start endKey e.key && e.isVisibleAtCommit snap).map fun e => (e.key.key, e)
  let l2 := (s.l2.rangeVisible cf start endKey).filter (·.2.isVisibleAtCommit snap)
  let l3 := (s.l3.rangeVisible cf start endKey).filter (·.2.isVisibleAtCommit snap)
  let best := FinMap.keepMaxAll Z1Entry.txnId ∅ (l1 ++ cached ++ l2 ++ l3)
  best.ascending.filterMap fun pair => pair.2.value.map fun v => (pair.1, v)

/-- Everything outside the L1 snapshot buffer, which the next flush replaces. -/
def settled (s : Store) : List Z1Entry :=
  s.l1.hot.values ++ s.l1.cold.values ++ s.recentFlush.values ++ s.l2.versions ++ s.l3.versions

/-- Everything a read looks at. -/
def held (s : Store) : List Z1Entry := s.settled ++ s.l1.snapshot.values

/-- What failed writes left beside the indexes. -/
def leftover (s : Store) : List Z1Entry := s.l2.imageVersions ++ s.l3.imageVersions

/-- Everything this session or the next one may read. -/
def stored (s : Store) : List Z1Entry := s.held ++ s.leftover

theorem mem_candidates {s : Store} {snap : TxnSnapshot} {cf : UInt16} {key : Bytes} {e : Z1Entry} :
    e ∈ s.candidates snap cf key ↔ e ∈ s.held ∧ e.key = ⟨cf, key⟩ ∧ snap.sees e.txnId = true := by
  simp only [candidates, DiskLayer.getVersions_eq, List.mem_append, List.mem_filter,
    MemStore.mem_getVersions, MemStore.sources, held, settled, Z1Entry.isVisibleAtCommit,
    decide_eq_true_eq]
  grind

theorem candidates_finds (s : Store) (snap : TxnSnapshot) (cf : UInt16) (key : Bytes) :
    Finds Z1Entry.key Z1Entry.txnId {e | e ∈ s.held} (snap.sees · = true) ⟨cf, key⟩
      (maxByKey Z1Entry.txnId (s.candidates snap cf key)) := by
  cases h : maxByKey Z1Entry.txnId (s.candidates snap cf key) with
  | none =>
      intro w hw hKey hSeen
      have hMem := mem_candidates.mpr ⟨hw, hKey, hSeen⟩
      rw [maxByKey_eq_none.mp h] at hMem
      simp at hMem
  | some e =>
      obtain ⟨hHeld, hKey, hSeen⟩ := mem_candidates.mp (maxByKey_mem h)
      exact ⟨hHeld, hKey, hSeen, fun w hw hKey hSeen =>
        le_maxByKey h (mem_candidates.mpr ⟨hw, hKey, hSeen⟩)⟩

/-- A point get finds the newest visible version, whatever the layers hold. -/
theorem getAt_finds (s : Store) (snap : TxnSnapshot) (cf : UInt16) (key : Bytes) :
    ∃ found, Finds Z1Entry.key Z1Entry.txnId {e | e ∈ s.held} (snap.sees · = true) ⟨cf, key⟩ found ∧
      s.getAt snap cf key = found.bind Z1Entry.value :=
  ⟨_, s.candidates_finds snap cf key, rfl⟩

/-- Where the visible copies agree, a point get is what any reading of the held versions
finds. -/
theorem getAt_eq {s : Store} {snap : TxnSnapshot} {cf : UInt16} {key : Bytes} {found : Option Z1Entry}
    (hConsistent : Consistent Z1Entry.key Z1Entry.txnId
      {e | e ∈ s.held ∧ e.key = ⟨cf, key⟩ ∧ snap.sees e.txnId = true})
    (h : Finds Z1Entry.key Z1Entry.txnId {e | e ∈ s.held} (snap.sees · = true) ⟨cf, key⟩ found) :
    s.getAt snap cf key = found.bind Z1Entry.value := by
  obtain ⟨found', h', hGet⟩ := s.getAt_finds snap cf key
  rw [hGet, h'.unique hConsistent h]

/-- The copies of a version in the order a point get goes through them. -/
def copies (s : Store) (cf : UInt16) (key : Bytes) (txnId : TxnId) : List Z1Entry :=
  (s.l1.sources ++ s.recentFlush.values ++ s.l2.versions ++ s.l3.versions).filter fun e =>
    e.key = ⟨cf, key⟩ ∧ e.txnId = txnId

/-- Which copy a point get takes does not depend on what else is visible. -/
theorem candidates_filter {s : Store} {snap : TxnSnapshot} {cf : UInt16} {key : Bytes} {t : TxnId}
    (h : snap.sees t = true) :
    (s.candidates snap cf key).filter (·.txnId = t) = s.copies cf key t := by
  have hLayer : ∀ l : List Z1Entry,
      ((l.filter fun e => e.key = ⟨cf, key⟩).filter (·.isVisibleAtCommit snap)).filter (·.txnId = t) =
        l.filter fun e => e.key = ⟨cf, key⟩ ∧ e.txnId = t := by
    intro l
    rw [List.filter_filter, List.filter_filter]
    apply List.filter_congr
    intro e _
    by_cases ht : e.txnId = t
    · simp [ht, Z1Entry.isVisibleAtCommit, h]
    · simp [ht]
  have hL1 : (s.l1.getVersions snap cf key).filter (·.txnId = t) =
      s.l1.sources.filter fun e => e.key = ⟨cf, key⟩ ∧ e.txnId = t := by
    rw [MemStore.getVersions, filter_insertionSort, hLayer]
  simp only [candidates, DiskLayer.getVersions_eq, copies, List.filter_append, hL1, hLayer]

/-- A point get reads the last copy of the newest visible version. -/
theorem getAt_top (s : Store) (snap : TxnSnapshot) (cf : UInt16) (key : Bytes) :
    ∃ found, Finds Z1Entry.key Z1Entry.txnId {e | e ∈ s.held} (snap.sees · = true) ⟨cf, key⟩ found ∧
      (∀ e, found = some e → (s.copies cf key e.txnId).getLast? = some e) ∧
      s.getAt snap cf key = found.bind Z1Entry.value := by
  refine ⟨_, s.candidates_finds snap cf key, fun e he => ?_, rfl⟩
  have hSeen := (mem_candidates.mp (maxByKey_mem he)).2.2
  rw [← candidates_filter hSeen]
  exact maxByKey_getLast he

end Store
end Z1Kv
