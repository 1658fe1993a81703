import Z1Kv.Txn.Open
import Z1Kv.Wal.Postcard

/-! Range scans against point gets. A disk layer offers a scan only its highest
version of a key, before anybody asks whether that one is visible; a point get
looks at all versions. -/
namespace Z1Kv

/-- A scan may take this version: it is in memory, or on top of its key in one
of the disk layers. -/
def Store.Offers (s : Store) (e : Z1Entry) : Prop :=
  e ∈ s.l1.sources ∨ e ∈ s.recentFlush.values ∨ s.l2.IsTop e ∨ s.l3.IsTop e

/-- The newest visible version of a key, as point gets see it. -/
abbrev Store.Wins (s : Store) (snap : TxnSnapshot) (key : Z1Key) (e : Z1Entry) : Prop :=
  IsNewest Z1Entry.key Z1Entry.txnId {e | e ∈ s.held} (snap.sees · = true) key e

/-- The winner of a key is offered to scans, or it is a tombstone and so is
every visible version that is offered. -/
def Store.WinnerOffered (s : Store) (snap : TxnSnapshot) (key : Z1Key) : Prop :=
  ∀ e, s.Wins snap key e → s.Offers e ∨
    e.value = none ∧ ∀ b, s.Offers b → b.key = key → snap.sees b.txnId = true → b.value = none

/-- The scan is the strictly ascending list of exactly what point gets in the
range return. -/
def Engine.ScanAgrees (db : Engine) (snap : TxnSnapshot) (cf : UInt16) (start : Bytes)
    (endKey : Option Bytes) : Prop :=
  (db.scanAt snap cf start endKey).Pairwise (·.1 < ·.1) ∧
    ∀ k v, (k, v) ∈ db.scanAt snap cf start endKey ↔
      inRange cf start endKey ⟨cf, k⟩ = true ∧ db.getAt snap cf k = some v

namespace Store
variable {s : Store} {snap : TxnSnapshot} {cf : UInt16} {start : Bytes} {endKey : Option Bytes}

theorem Offers.held {e : Z1Entry} (h : s.Offers e) : e ∈ s.held := by
  simp only [Store.held, settled, List.mem_append]
  rcases h with h | h | h | h
  · simp only [MemStore.sources, List.mem_append] at h
    tauto
  · tauto
  · have := h.1
    tauto
  · have := h.1
    tauto

/-- The four lists a scan merges. -/
private def scanPairs (s : Store) (snap : TxnSnapshot) (cf : UInt16) (start : Bytes)
    (endKey : Option Bytes) : List (Bytes × Z1Entry) :=
  s.l1.rangeVisible snap cf start endKey ++
    (s.recentFlush.values.filter fun e =>
      inRange cf start endKey e.key && e.isVisibleAtCommit snap).map (fun e => (e.key.key, e)) ++
    (s.l2.rangeVisible cf start endKey).filter (·.2.isVisibleAtCommit snap) ++
    (s.l3.rangeVisible cf start endKey).filter (·.2.isVisibleAtCommit snap)

private theorem scanPairs_sound {k : Bytes} {e : Z1Entry}
    (h : (k, e) ∈ scanPairs s snap cf start endKey) :
    s.Offers e ∧ inRange cf start endKey ⟨cf, k⟩ = true ∧ e.key = ⟨cf, k⟩ ∧
      snap.sees e.txnId = true := by
  simp only [scanPairs, List.mem_append, List.mem_filter] at h
  rcases h with ((h | h) | ⟨h, hSeen⟩) | ⟨h, hSeen⟩
  · obtain ⟨hSource, hRange, hKey, hSeen⟩ := MemStore.rangeVisible_sound h
    exact ⟨Or.inl hSource, hRange, hKey, hSeen⟩
  · obtain ⟨e', he', hPair⟩ := List.mem_map.mp h
    obtain ⟨rfl, rfl⟩ : e'.key.key = k ∧ e' = e := by simpa using hPair
    obtain ⟨hCached, hVisible⟩ := List.mem_filter.mp he'
    rw [Bool.and_eq_true] at hVisible
    have hCf : e'.key.cf = cf := by
      have := hVisible.1
      simp only [inRange, Bool.and_eq_true, decide_eq_true_eq] at this
      exact this.1.1
    have hKey : e'.key = ⟨cf, e'.key.key⟩ := by rw [← hCf]
    exact ⟨Or.inr (Or.inl hCached), hKey ▸ hVisible.1, hKey, hVisible.2⟩
  · obtain ⟨hTop, hRange, hKey⟩ := DiskLayer.rangeVisible_sound h
    exact ⟨Or.inr (Or.inr (Or.inl hTop)), hRange, hKey, hSeen⟩
  · obtain ⟨hTop, hRange, hKey⟩ := DiskLayer.rangeVisible_sound h
    exact ⟨Or.inr (Or.inr (Or.inr hTop)), hRange, hKey, hSeen⟩

/-- A disk layer hands the scan a copy of a visible version on top of its key. -/
private theorem exists_rangeVisible_top {layer : DiskLayer} {k : Bytes} {e : Z1Entry}
    (hTop : layer.IsTop e) (hKey : e.key = ⟨cf, k⟩)
    (hRange : inRange cf start endKey ⟨cf, k⟩ = true) (hSeen : snap.sees e.txnId = true) :
    ∃ b, (k, b) ∈ (layer.rangeVisible cf start endKey).filter (·.2.isVisibleAtCommit snap) ∧
      e.txnId ≤ b.txnId := by
  obtain ⟨b, hb, hLe⟩ := DiskLayer.rangeVisible_complete hTop.1 hKey hRange
  obtain ⟨hTop', -, hKey'⟩ := DiskLayer.rangeVisible_sound hb
  have hSame : b.txnId = e.txnId :=
    le_antisymm (hTop.2 b hTop'.1 (hKey'.trans hKey.symm)) hLe
  refine ⟨b, List.mem_filter.mpr ⟨hb, ?_⟩, hLe⟩
  simpa [Z1Entry.isVisibleAtCommit, hSame] using hSeen

private theorem scanPairs_complete {k : Bytes} {e : Z1Entry} (hOffers : s.Offers e)
    (hKey : e.key = ⟨cf, k⟩) (hRange : inRange cf start endKey ⟨cf, k⟩ = true)
    (hSeen : snap.sees e.txnId = true) :
    ∃ b, (k, b) ∈ scanPairs s snap cf start endKey ∧ e.txnId ≤ b.txnId := by
  simp only [scanPairs, List.mem_append]
  rcases hOffers with h | h | h | h
  · obtain ⟨b, hb, hLe⟩ := MemStore.rangeVisible_complete h hKey hRange hSeen
    exact ⟨b, Or.inl (Or.inl (Or.inl hb)), hLe⟩
  · refine ⟨e, Or.inl (Or.inl (Or.inr ?_)), le_rfl⟩
    refine List.mem_map.mpr ⟨e, List.mem_filter.mpr ⟨h, ?_⟩, by rw [hKey]⟩
    rw [hKey, hRange]
    exact hSeen
  · obtain ⟨b, hb, hLe⟩ := exists_rangeVisible_top h hKey hRange hSeen
    exact ⟨b, Or.inl (Or.inr hb), hLe⟩
  · obtain ⟨b, hb, hLe⟩ := exists_rangeVisible_top h hKey hRange hSeen
    exact ⟨b, Or.inr hb, hLe⟩

/-- The version behind a row: offered, visible, and the highest such version. -/
private theorem scanAt_row {k v : Bytes} :
    (k, v) ∈ s.scanAt snap cf start endKey ↔ ∃ b, b.value = some v ∧
      AList.lookup k (FinMap.keepMaxAll Z1Entry.txnId ∅ (scanPairs s snap cf start endKey)) = some b := by
  simp only [scanAt, List.mem_filterMap]
  constructor
  · rintro ⟨⟨k', b⟩, hb, hValue⟩
    obtain ⟨v', hv', hPair⟩ := Option.map_eq_some_iff.mp hValue
    obtain ⟨rfl, rfl⟩ : k' = k ∧ v' = v := by simpa using hPair
    exact ⟨b, hv', FinMap.mem_ascending.mp hb⟩
  · rintro ⟨b, hv, hb⟩
    exact ⟨(k, b), FinMap.mem_ascending.mpr hb, by simp [hv]⟩

theorem scanAt_pairwise (s : Store) (snap : TxnSnapshot) (cf : UInt16) (start : Bytes)
    (endKey : Option Bytes) : (s.scanAt snap cf start endKey).Pairwise (·.1 < ·.1) := by
  refine List.pairwise_filterMap.mpr ((FinMap.ascending_pairwise _).imp ?_)
  intro a b hLt x hx y hy
  obtain ⟨v, -, rfl⟩ := Option.map_eq_some_iff.mp hx
  obtain ⟨w, -, rfl⟩ := Option.map_eq_some_iff.mp hy
  exact hLt

/-- A point get returns the value of a held version that the snapshot sees. -/
theorem getAt_source {k v : Bytes} (h : s.getAt snap cf k = some v) :
    ∃ e ∈ s.held, e.key = ⟨cf, k⟩ ∧ e.value = some v ∧ snap.sees e.txnId = true := by
  obtain ⟨found, hFinds, hGet⟩ := s.getAt_finds snap cf k
  rw [hGet] at h
  cases found with
  | none => cases h
  | some e => exact ⟨e, hFinds.isHeld, hFinds.hasKey, h, hFinds.isVisible⟩

/-- What the scan finds at a key: the highest of the visible offered versions. -/
private theorem exists_best {k : Bytes} {e : Z1Entry} (hOffers : s.Offers e)
    (hKey : e.key = ⟨cf, k⟩) (hRange : inRange cf start endKey ⟨cf, k⟩ = true)
    (hSeen : snap.sees e.txnId = true) :
    ∃ b, AList.lookup k (FinMap.keepMaxAll Z1Entry.txnId ∅ (scanPairs s snap cf start endKey)) =
      some b ∧ e.txnId ≤ b.txnId := by
  obtain ⟨c, hc, hLe⟩ := scanPairs_complete hOffers hKey hRange hSeen
  obtain ⟨b, hb⟩ := FinMap.mem_iff_lookup.mp
    (FinMap.keepMaxAll_complete Z1Entry.txnId (Or.inr ⟨c, hc⟩))
  exact ⟨b, hb, hLe.trans ((FinMap.keepMaxAll_sound _ hb).2.2 c hc)⟩

private theorem best_facts {k : Bytes} {b : Z1Entry}
    (hb : AList.lookup k (FinMap.keepMaxAll Z1Entry.txnId ∅ (scanPairs s snap cf start endKey)) =
      some b) :
    s.Offers b ∧ inRange cf start endKey ⟨cf, k⟩ = true ∧ b.key = ⟨cf, k⟩ ∧
      snap.sees b.txnId = true :=
  scanPairs_sound ((FinMap.keepMaxAll_sound _ hb).1.resolve_left (by simp))

/-- So does every row of a scan. -/
theorem scanAt_source {k v : Bytes} (h : (k, v) ∈ s.scanAt snap cf start endKey) :
    ∃ e ∈ s.held, e.key = ⟨cf, k⟩ ∧ e.value = some v ∧ snap.sees e.txnId = true := by
  obtain ⟨b, hValue, hb⟩ := scanAt_row.mp h
  obtain ⟨hOffers, -, hKey, hSeen⟩ := best_facts hb
  exact ⟨b, hOffers.held, hKey, hValue, hSeen⟩

section
variable {k : Bytes} (hConsistent : Consistent Z1Entry.key Z1Entry.txnId
  {e | e ∈ s.held ∧ e.key = ⟨cf, k⟩ ∧ snap.sees e.txnId = true})
include hConsistent

/-- Where the visible copies of a key agree, a point get returns the winner's value. -/
theorem getAt_of_wins {e : Z1Entry} (h : s.Wins snap ⟨cf, k⟩ e) :
    s.getAt snap cf k = e.value := by
  have hFinds : Finds Z1Entry.key Z1Entry.txnId {e | e ∈ s.held} (snap.sees · = true) ⟨cf, k⟩
    (some e) := h
  exact getAt_eq hConsistent hFinds

theorem wins_of_best {b e : Z1Entry} (he : s.Wins snap ⟨cf, k⟩ e)
    (hb : AList.lookup k (FinMap.keepMaxAll Z1Entry.txnId ∅ (scanPairs s snap cf start endKey)) =
      some b) (hLe : e.txnId ≤ b.txnId) : b = e := by
  obtain ⟨hOffers, -, hKey, hSeen⟩ := best_facts hb
  have hSame := le_antisymm (he.newest b hOffers.held hKey hSeen) hLe
  exact hConsistent b ⟨hOffers.held, hKey, hSeen⟩ e ⟨he.isHeld, he.hasKey, he.isVisible⟩
    (hKey.trans he.hasKey.symm) hSame

/-- Under the condition a key in the range has the row its point get gives. -/
private theorem row_iff_of_winnerOffered {v : Bytes}
    (hRange : inRange cf start endKey ⟨cf, k⟩ = true) (hWinner : s.WinnerOffered snap ⟨cf, k⟩) :
    (k, v) ∈ s.scanAt snap cf start endKey ↔ s.getAt snap cf k = some v := by
  obtain ⟨found, hFinds, hGet⟩ := s.getAt_finds snap cf k
  rw [scanAt_row, hGet]
  cases found with
  | none =>
      simp only [Option.bind_none, reduceCtorEq, iff_false]
      rintro ⟨b, -, hb⟩
      obtain ⟨hOffers, -, hKey, hSeen⟩ := best_facts hb
      exact hFinds b hOffers.held hKey hSeen
  | some e =>
      have hWins : s.Wins snap ⟨cf, k⟩ e := hFinds
      rw [Option.bind_some]
      rcases hWinner e hWins with hOffers | ⟨hTombstone, hOthers⟩
      · obtain ⟨b, hb, hLe⟩ := exists_best hOffers hWins.hasKey hRange hWins.isVisible
        obtain rfl := wins_of_best hConsistent hWins hb hLe
        constructor
        · rintro ⟨b', hv, hb'⟩
          obtain rfl := Option.some.inj (hb.symm.trans hb')
          exact hv
        · exact fun hv => ⟨b, hv, hb⟩
      · rw [hTombstone]
        simp only [reduceCtorEq, iff_false]
        rintro ⟨b, hv, hb⟩
        obtain ⟨hOffers, -, hKey, hSeen⟩ := best_facts hb
        rw [hOthers b hOffers hKey hSeen] at hv
        cases hv

/-- Where the values of a key tell its visible versions apart, a key whose row
is what its point get gives has its winner offered. -/
private theorem winnerOffered_of_row_iff
    (hRange : inRange cf start endKey ⟨cf, k⟩ = true)
    (hApart : ∀ a ∈ s.held, ∀ b ∈ s.held, a.key = ⟨cf, k⟩ → b.key = ⟨cf, k⟩ →
      snap.sees a.txnId = true → snap.sees b.txnId = true → a.value = b.value → a.txnId = b.txnId)
    (hRow : ∀ v, (k, v) ∈ s.scanAt snap cf start endKey ↔ s.getAt snap cf k = some v) :
    s.WinnerOffered snap ⟨cf, k⟩ := by
  intro e hWins
  have hSame : ∀ b, s.Offers b → b.key = ⟨cf, k⟩ → snap.sees b.txnId = true →
      b.value = e.value → s.Offers e := by
    intro b hOffers hKey hSeen hValue
    have hTxn := hApart b hOffers.held e hWins.isHeld hKey hWins.hasKey hSeen hWins.isVisible hValue
    have hCopy := hConsistent b ⟨hOffers.held, hKey, hSeen⟩ e
      ⟨hWins.isHeld, hWins.hasKey, hWins.isVisible⟩ (hKey.trans hWins.hasKey.symm) hTxn
    rwa [← hCopy]
  cases hValue : e.value with
  | some v =>
      left
      have hIn := (hRow v).mpr (by rw [getAt_of_wins hConsistent hWins, hValue])
      obtain ⟨b, hv, hb⟩ := scanAt_row.mp hIn
      obtain ⟨hOffers, -, hKey, hSeen⟩ := best_facts hb
      exact hSame b hOffers hKey hSeen (hv.trans hValue.symm)
  | none =>
      by_cases hSome : ∃ b, s.Offers b ∧ b.key = ⟨cf, k⟩ ∧ snap.sees b.txnId = true
      · left
        obtain ⟨b, hOffers, hKey, hSeen⟩ := hSome
        obtain ⟨best, hBest, -⟩ := exists_best hOffers hKey hRange hSeen
        obtain ⟨hBestOffers, -, hBestKey, hBestSeen⟩ := best_facts hBest
        cases hBestValue : best.value with
        | none => exact hSame best hBestOffers hBestKey hBestSeen (hBestValue.trans hValue.symm)
        | some v =>
            have hGet := (hRow v).mp (scanAt_row.mpr ⟨best, hBestValue, hBest⟩)
            rw [getAt_of_wins hConsistent hWins, hValue] at hGet
            cases hGet
      · right
        exact ⟨rfl, fun b hOffers hKey hSeen => absurd ⟨b, hOffers, hKey, hSeen⟩ hSome⟩

end
end Store

/-- A scan agrees with the point gets when every winner in its range is offered,
and only then if values tell versions apart. -/
theorem scanAt_agrees (db : Engine) (snap : TxnSnapshot) (cf : UInt16) (start : Bytes)
    (endKey : Option Bytes)
    (hConsistent : Consistent Z1Entry.key Z1Entry.txnId
      {e | e ∈ db.store.held ∧ inRange cf start endKey e.key = true ∧ snap.sees e.txnId = true}) :
    ((∀ k, inRange cf start endKey ⟨cf, k⟩ = true → db.store.WinnerOffered snap ⟨cf, k⟩) →
      db.ScanAgrees snap cf start endKey) ∧
    ((∀ a ∈ db.store.held, ∀ b ∈ db.store.held, inRange cf start endKey a.key = true →
        a.key = b.key → snap.sees a.txnId = true → snap.sees b.txnId = true → a.value = b.value →
        a.txnId = b.txnId) →
      db.ScanAgrees snap cf start endKey →
        ∀ k, inRange cf start endKey ⟨cf, k⟩ = true → db.store.WinnerOffered snap ⟨cf, k⟩) := by
  have hCopies : ∀ k, inRange cf start endKey ⟨cf, k⟩ = true → Consistent Z1Entry.key Z1Entry.txnId
      {e | e ∈ db.store.held ∧ e.key = ⟨cf, k⟩ ∧ snap.sees e.txnId = true} := by
    refine fun k hRange => hConsistent.mono ?_
    rintro e ⟨hHeld, hKey, hSeen⟩
    exact ⟨hHeld, hKey ▸ hRange, hSeen⟩
  constructor
  · intro hWinners
    refine ⟨db.store.scanAt_pairwise snap cf start endKey, fun k v => ?_⟩
    by_cases hRange : inRange cf start endKey ⟨cf, k⟩ = true
    · rw [and_iff_right hRange]
      exact Store.row_iff_of_winnerOffered (hCopies k hRange) hRange (hWinners k hRange)
    · refine iff_of_false (fun hRow => ?_) (fun h => hRange h.1)
      obtain ⟨b, -, hb⟩ := Store.scanAt_row.mp hRow
      exact hRange (Store.best_facts hb).2.1
  · intro hApart hAgrees k hRange
    refine Store.winnerOffered_of_row_iff (hCopies k hRange) hRange ?_ fun v => ?_
    · intro a ha b hb hKey hKey'
      exact hApart a ha b hb (hKey ▸ hRange) (hKey.trans hKey'.symm)
    · exact (hAgrees.2 k v).trans (and_iff_right hRange)

/-- The first version of a key is in L3, the second one in L2. -/
def layeredRun : List LifeOp :=
  [.call .begin, .call (.put 0 [107] [1] 1), .call (.commit 1 ⟨0, 0, 0, .listed, .succeed⟩),
    .call (.flushNow .succeed), .call (.compact .succeed 2), .call .begin, .call (.put 0 [107] [2] 2),
    .call (.commit 2 ⟨0, 0, 0, .listed, .succeed⟩), .call (.flushNow .succeed), .call .begin,
    .call (.put 0 [108] [3] 3), .call (.commit 3 ⟨0, 0, 0, .listed, .succeed⟩),
    .call (.flushNow .succeed)]

theorem scanAt_agrees_layered :
    ∃ db, (life Postcard.codec engineSegmentSize (.listed 0) {} layeredRun).2 = some db ∧
      db.store.l2.versions = [⟨⟨0, [107]⟩, 2, some [2]⟩, ⟨⟨0, [108]⟩, 3, some [3]⟩] ∧
      db.store.l3.versions = [⟨⟨0, [107]⟩, 1, some [1]⟩] ∧
      db.scanAt db.snapshot.1 0 [] none = [([107], [2]), ([108], [3])] ∧
      db.ScanAgrees db.snapshot.1 0 [] none := by
  have hRun : (life Postcard.codec engineSegmentSize (.listed 0) {} layeredRun).2.map
      (fun db => (db.store.l2.versions, db.store.l3.versions, db.scanAt db.snapshot.1 0 [] none)) =
        some ([⟨⟨0, [107]⟩, 2, some [2]⟩, ⟨⟨0, [108]⟩, 3, some [3]⟩], [⟨⟨0, [107]⟩, 1, some [1]⟩],
          [([107], [2]), ([108], [3])]) := by decide +kernel
  have hHeld : (life Postcard.codec engineSegmentSize (.listed 0) {} layeredRun).2.map
      (fun db => db.store.held) =
        some [⟨⟨0, [107]⟩, 2, some [2]⟩, ⟨⟨0, [108]⟩, 3, some [3]⟩, ⟨⟨0, [107]⟩, 1, some [1]⟩,
          ⟨⟨0, [108]⟩, 3, some [3]⟩] := by decide +kernel
  obtain ⟨db, hDb, hStore⟩ := Option.map_eq_some_iff.mp hRun
  rw [hDb, Option.map_some, Option.some.injEq] at hHeld
  simp only [Prod.mk.injEq] at hStore
  obtain ⟨hL2, hL3, hScan⟩ := hStore
  refine ⟨db, hDb, hL2, hL3, hScan, (scanAt_agrees db db.snapshot.1 0 [] none ?_).1 ?_⟩
  · rintro a ⟨ha, -⟩ b ⟨hb, -⟩
    rw [hHeld] at ha hb
    revert a b
    decide
  · intro k _ e hWins
    have hMem : e ∈ db.store.held := hWins.isHeld
    rw [hHeld] at hMem
    -- each of them is on top of its key in its layer
    refine Or.inl (Or.inr (Or.inr ?_))
    rw [DiskLayer.IsTop, DiskLayer.IsTop, hL2, hL3]
    clear hWins
    revert e
    decide

/-- A committed version below an uncommitted one in L2. The second flush takes
it out of the L1 snapshot buffer. -/
def hiddenVersionRun : List LifeOp :=
  [.call .begin, .call (.put 0 [107] [1] 1),
    .call (.commit 1 ⟨0, 0, 0, .listed, .succeed⟩), .call .begin, .call (.put 0 [107] [2] 2),
    .call (.flushNow .succeed), .call (.flushNow .succeed)]

/-- There the point get returns the committed value and the scan returns
nothing. -/
theorem scan_misses_version_below_uncommitted :
    ¬ ∀ ops db, (life Postcard.codec engineSegmentSize (.listed 0) {} ops).2 = some db →
      ∀ snap cf start endKey, db.ScanAgrees snap cf start endKey := by
  intro h
  have hRun : (life Postcard.codec engineSegmentSize (.listed 0) {} hiddenVersionRun).2.map
      (fun db => (db.getAt db.snapshot.1 0 [107], db.scanAt db.snapshot.1 0 [] none)) =
        some (some [1], []) := by decide +kernel
  obtain ⟨db, hDb, hReads⟩ := Option.map_eq_some_iff.mp hRun
  obtain ⟨hGet, hScan⟩ := Prod.mk.inj hReads
  have hRow := (h hiddenVersionRun db hDb db.snapshot.1 0 [] none).2 [107] [1]
  rw [hScan, hGet] at hRow
  simp [inRange] at hRow

end Z1Kv
