import Z1Kv.Store.Flush

/-! What puts, flushes and compactions do to the versions a store holds,
whatever the outcome of the writes. -/
namespace Z1Kv

theorem DiskLayer.appendPatch_versions {layer : DiskLayer} {outcome : PatchOutcome} {cf : UInt16}
    {entries : List PatchEntry} {patchId : Nat} {e : Z1Entry} :
    e ∈ (layer.appendPatch outcome cf entries patchId).2.versions →
      e ∈ layer.versions ∨ ∃ pe ∈ entries, pe.toZ1Entry cf = e := by
  unfold appendPatch
  split
  · exact Or.inl
  · dsimp only
    split
    · rw [mem_versions]
      rintro ⟨p, hp, pe, hpe, rfl⟩
      rcases List.mem_append.mp hp with hp | hp
      · exact Or.inl (mem_versions.mpr ⟨p, hp, pe, hpe, rfl⟩)
      · obtain rfl := List.mem_singleton.mp hp
        exact Or.inr ⟨pe, (List.mem_insertionSort _).mp hpe, rfl⟩
    · exact Or.inl

theorem DiskLayer.mem_imageVersions {layer : DiskLayer} {e : Z1Entry} :
    e ∈ layer.imageVersions ↔ ∃ p ∈ layer.images, ∃ pe ∈ p.entries, pe.toZ1Entry p.cf = e := by
  simp [imageVersions, Patch.versions]

/-- What a write leaves beside the index is what it was to write. -/
theorem DiskLayer.appendPatch_imageVersions {layer : DiskLayer} {outcome : PatchOutcome} {cf : UInt16}
    {entries : List PatchEntry} {patchId : Nat} {e : Z1Entry}
    (h : e ∈ (layer.appendPatch outcome cf entries patchId).2.imageVersions) :
    e ∈ layer.imageVersions ∨ ∃ pe ∈ entries, pe.toZ1Entry cf = e := by
  have hSparse (name : Option Nat) {pe : PatchEntry} (hpe : pe ∈ (Patch.sparse cf entries name).entries) :
      ∃ pe' ∈ entries, pe'.toZ1Entry cf = pe.toZ1Entry cf :=
    ⟨pe, (List.mem_insertionSort _).mp hpe, rfl⟩
  have hTemps {p : Patch} (hp : p ∈ layer.images ++
      List.replicate outcome.temps (Patch.sparse cf entries none)) :
      p ∈ layer.images ∨ p = Patch.sparse cf entries none :=
    (List.mem_append.mp hp).imp_right List.eq_of_mem_replicate
  obtain ⟨p, hp, pe, hpe, rfl⟩ := mem_imageVersions.mp h
  have hFrom : p ∈ layer.images ∨ ∃ name, p = Patch.sparse cf entries name := by
    unfold appendPatch at hp
    split at hp
    · exact Or.inl hp
    · dsimp only at hp
      split at hp
      · exact (hTemps hp).imp_right fun hp => ⟨none, hp⟩
      · dsimp only at hp
        split at hp
        · rcases List.mem_append.mp hp with hp | hp
          · exact (hTemps hp).imp_right fun hp => ⟨none, hp⟩
          · exact Or.inr ⟨some patchId, List.mem_singleton.mp hp⟩
        · exact (hTemps hp).imp_right fun hp => ⟨none, hp⟩
  rcases hFrom with hp | ⟨name, rfl⟩
  · exact Or.inl (mem_imageVersions.mpr ⟨p, hp, pe, hpe, rfl⟩)
  · exact Or.inr (hSparse name hpe)

section Appended
variable {layer after : DiskLayer} {outcome : PatchOutcome} {cf : UInt16} {entries : List PatchEntry}
  {patchId : Nat} {e : Z1Entry}

theorem DiskLayer.subset_appendPatch {result : Except Z1Error Unit}
    (h : layer.appendPatch outcome cf entries patchId = (result, after)) (he : e ∈ layer.versions) :
    e ∈ after.versions := by
  unfold appendPatch at h
  split at h
  · obtain ⟨-, rfl⟩ := Prod.mk.inj h
    exact he
  · split at h
    · obtain ⟨-, rfl⟩ := Prod.mk.inj h
      obtain ⟨p, hp, hpe⟩ := mem_versions.mp he
      exact mem_versions.mpr ⟨p, by simp [hp], hpe⟩
    · obtain ⟨-, rfl⟩ := Prod.mk.inj h
      exact he

theorem DiskLayer.mem_appendPatch {pe : PatchEntry}
    (h : layer.appendPatch outcome cf entries patchId = (.ok (), after)) (hpe : pe ∈ entries) :
    pe.toZ1Entry cf ∈ after.versions := by
  unfold appendPatch at h
  rw [if_neg (List.ne_nil_of_mem hpe)] at h
  split at h
  · obtain ⟨-, rfl⟩ := Prod.mk.inj h
    exact mem_versions.mpr ⟨Patch.sparse cf entries (some patchId), by simp, pe,
      (List.mem_insertionSort _).mpr hpe, rfl⟩
  · cases (Prod.mk.inj h).1

/-- A written group leaves the list of those to be written. -/
theorem DiskLayer.appendPatch_groups {rest : List (UInt16 × List PatchEntry)}
    (h : layer.appendPatch outcome cf entries patchId = (.ok (), after))
    (he : e ∈ layer.versions ∨
      ∃ group ∈ (cf, entries) :: rest, ∃ pe ∈ group.2, pe.toZ1Entry group.1 = e) :
    e ∈ after.versions ∨ ∃ group ∈ rest, ∃ pe ∈ group.2, pe.toZ1Entry group.1 = e := by
  rcases he with hIn | ⟨group, hGroup, pe, hPe, rfl⟩
  · exact Or.inl (subset_appendPatch h hIn)
  · rcases List.mem_cons.mp hGroup with rfl | hGroup
    · exact Or.inl (mem_appendPatch h hPe)
    · exact Or.inr ⟨group, hGroup, pe, hPe, rfl⟩

end Appended

/-- The groups hold exactly the given entries. -/
theorem mem_cfGroups {entries : List Z1Entry} {e : Z1Entry} :
    e ∈ entries ↔ ∃ group ∈ cfGroups entries, ∃ pe ∈ group.2, pe.toZ1Entry group.1 = e := by
  simp only [cfGroups, List.mem_map, List.mem_insertionSort, List.mem_dedup]
  constructor
  · intro he
    refine ⟨_, ⟨e.key.cf, ⟨e, he, rfl⟩, rfl⟩, PatchEntry.ofZ1Entry e, ?_, rfl⟩
    exact List.mem_map.mpr ⟨e, List.mem_filter.mpr ⟨he, by simp⟩, rfl⟩
  · rintro ⟨_, ⟨cf, -, rfl⟩, pe, hpe, rfl⟩
    obtain ⟨e, he, rfl⟩ := List.mem_map.mp hpe
    obtain ⟨hMem, hCf⟩ := List.mem_filter.mp he
    obtain rfl : e.key.cf = cf := by simpa using hCf
    exact hMem

theorem DiskLayer.mem_allVersions {layer : DiskLayer} {cf : UInt16} {e : Z1Entry} :
    e ∈ layer.allVersions cf ↔ e ∈ layer.versions ∧ e.key.cf = cf := by
  simp only [allVersions, List.mem_flatMap, List.mem_filter, decide_eq_true_eq, mem_versions,
    Patch.versions, List.mem_map]
  constructor
  · rintro ⟨p, ⟨hp, rfl⟩, pe, hpe, rfl⟩
    exact ⟨⟨p, hp, pe, hpe, rfl⟩, rfl⟩
  · rintro ⟨⟨p, hp, pe, hpe, rfl⟩, hCf⟩
    exact ⟨p, ⟨hp, hCf⟩, pe, hpe, rfl⟩

theorem DiskLayer.mem_dropCf {layer : DiskLayer} {cf : UInt16} {e : Z1Entry} :
    e ∈ (layer.dropCf cf).versions ↔ e ∈ layer.versions ∧ e.key.cf ≠ cf := by
  simp only [dropCf, mem_versions, List.mem_filter, ne_eq, decide_not, Bool.not_eq_true',
    decide_eq_false_iff_not]
  constructor
  · rintro ⟨p, ⟨hp, hCf⟩, pe, hpe, rfl⟩
    exact ⟨⟨p, hp, pe, hpe, rfl⟩, hCf⟩
  · rintro ⟨⟨p, hp, pe, hpe, rfl⟩, hCf⟩
    exact ⟨p, ⟨hp, hCf⟩, pe, hpe, rfl⟩

namespace Store

/-- Only L2 and the patch counter change, and L2 only grows. -/
theorem appendGroups_spec (writes : Nat → PatchOutcome) (s : Store)
    (groups : List (UInt16 × List PatchEntry)) :
    let s' := (s.appendGroups writes groups).2
    s'.l1 = s.l1 ∧ s'.recentFlush = s.recentFlush ∧ s'.l3 = s.l3 ∧
      (∀ e ∈ s.l2.versions, e ∈ s'.l2.versions) ∧
      (∀ e ∈ s'.l2.versions, e ∈ s.l2.versions ∨
        ∃ group ∈ groups, ∃ pe ∈ group.2, pe.toZ1Entry group.1 = e) ∧
      ((s.appendGroups writes groups).1 = .ok () →
        ∀ group ∈ groups, ∀ pe ∈ group.2, pe.toZ1Entry group.1 ∈ s'.l2.versions) := by
  induction groups generalizing s with
  | nil => exact ⟨rfl, rfl, rfl, fun _ h => h, fun _ h => Or.inl h, by simp⟩
  | cons group rest ih =>
      obtain ⟨cf, entries⟩ := group
      have hFrom := @DiskLayer.appendPatch_versions s.l2 (writes s.nextPatchId) cf entries
        s.nextPatchId
      rw [appendGroups]
      generalize hAppend : s.l2.appendPatch (writes s.nextPatchId) cf entries s.nextPatchId = outcome at *
      obtain ⟨result, l2⟩ := outcome
      cases result with
      | error e =>
          refine ⟨rfl, rfl, rfl, fun _ => DiskLayer.subset_appendPatch hAppend, fun x hx => ?_, by simp⟩
          exact (hFrom hx).imp id fun h => ⟨(cf, entries), by simp, h⟩
      | ok _ =>
          obtain ⟨hL1, hCache, hL3, hGrow, hNew, hAll⟩ :=
            ih { s with l2, nextPatchId := s.nextPatchId + 1 }
          refine ⟨hL1, hCache, hL3,
            fun x hx => hGrow x (DiskLayer.subset_appendPatch hAppend hx), ?_, ?_⟩
          · intro x hx
            rcases hNew x hx with hx | ⟨group, hGroup, h⟩
            · exact (hFrom hx).imp id fun h => ⟨(cf, entries), by simp, h⟩
            · exact Or.inr ⟨group, by simp [hGroup], h⟩
          · intro hOk group hGroup pe hpe
            rcases List.mem_cons.mp hGroup with rfl | hGroup
            · exact hGrow _ (DiskLayer.mem_appendPatch hAppend hpe)
            · exact hAll hOk group hGroup pe hpe

theorem mem_leftover {s : Store} {e : Z1Entry} :
    e ∈ s.leftover ↔ e ∈ s.l2.imageVersions ∨ e ∈ s.l3.imageVersions := List.mem_append

theorem mem_stored {s : Store} {e : Z1Entry} : e ∈ s.stored ↔ e ∈ s.held ∨ e ∈ s.leftover :=
  List.mem_append

/-- Whatever the writes leave beside the index belongs to the groups. -/
theorem appendGroups_leftover (writes : Nat → PatchOutcome) (s : Store)
    (groups : List (UInt16 × List PatchEntry)) {e : Z1Entry}
    (h : e ∈ (s.appendGroups writes groups).2.leftover) :
    e ∈ s.leftover ∨ ∃ group ∈ groups, ∃ pe ∈ group.2, pe.toZ1Entry group.1 = e := by
  induction groups generalizing s with
  | nil => exact Or.inl h
  | cons group rest ih =>
      obtain ⟨cf, entries⟩ := group
      have hNew := @DiskLayer.appendPatch_imageVersions s.l2 (writes s.nextPatchId) cf entries
        s.nextPatchId e
      have hHere : (e ∈ (s.l2.appendPatch (writes s.nextPatchId) cf entries s.nextPatchId).2.imageVersions ∨
          e ∈ s.l3.imageVersions) →
          e ∈ s.leftover ∨ ∃ group ∈ (cf, entries) :: rest, ∃ pe ∈ group.2, pe.toZ1Entry group.1 = e := by
        rintro (hL2 | hL3)
        · rcases hNew hL2 with hOld | hEntry
          · exact Or.inl (mem_leftover.mpr (Or.inl hOld))
          · exact Or.inr ⟨(cf, entries), by simp, hEntry⟩
        · exact Or.inl (mem_leftover.mpr (Or.inr hL3))
      rw [appendGroups] at h
      generalize s.l2.appendPatch (writes s.nextPatchId) cf entries s.nextPatchId = appended at *
      obtain ⟨result, l2⟩ := appended
      cases result with
      | error _ => exact hHere (mem_leftover.mp h)
      | ok _ =>
          rcases ih { s with l2, nextPatchId := s.nextPatchId + 1 } h with h | ⟨group, hGroup, hEntry⟩
          · exact hHere (mem_leftover.mp h)
          · exact Or.inr ⟨group, List.mem_cons_of_mem _ hGroup, hEntry⟩

theorem mem_settled {s : Store} {e : Z1Entry} :
    e ∈ s.settled ↔ e ∈ s.l1.hot.values ∨ e ∈ s.l1.cold.values ∨ e ∈ s.recentFlush.values ∨
      e ∈ s.l2.versions ∨ e ∈ s.l3.versions := by
  simp only [settled, List.mem_append, or_assoc]

theorem mem_held {s : Store} {e : Z1Entry} :
    e ∈ s.held ↔ e ∈ s.settled ∨ e ∈ s.l1.snapshot.values := by
  simp only [held, List.mem_append]

theorem stage_spec (s : Store) :
    (∀ e ∈ s.stage.settled, e ∈ s.settled) ∧
      (∀ e ∈ s.settled, ∃ e' ∈ s.stage.settled, e'.id = e.id) := by
  constructor
  · intro e he
    rw [mem_settled] at he ⊢
    rcases he with he | he | he | he | he
    · cases he
    · exact Or.inr (Or.inl he)
    · rcases VersionMap.mem_values_putAll he with he | ⟨he, -⟩
      · exact Or.inl he
      · exact Or.inr (Or.inr (Or.inl he))
    · exact Or.inr (Or.inr (Or.inr (Or.inl he)))
    · exact Or.inr (Or.inr (Or.inr (Or.inr he)))
  · intro e he
    have hMoved : e ∈ s.l1.hot.values ∨ e ∈ s.recentFlush.values →
        ∃ e' ∈ s.stage.settled, e'.id = e.id := by
      intro h
      obtain ⟨e', he', hId⟩ := VersionMap.exists_putAll h
      exact ⟨e', mem_settled.mpr (Or.inr (Or.inr (Or.inl he'))), hId⟩
    rcases mem_settled.mp he with he | he | he | he | he
    · exact hMoved (Or.inl he)
    · exact ⟨e, mem_settled.mpr (Or.inr (Or.inl he)), rfl⟩
    · exact hMoved (Or.inr he)
    · exact ⟨e, mem_settled.mpr (Or.inr (Or.inr (Or.inr (Or.inl he)))), rfl⟩
    · exact ⟨e, mem_settled.mpr (Or.inr (Or.inr (Or.inr (Or.inr he)))), rfl⟩

/-- Writing the cached versions as patches, and forgetting the cache afterwards,
changes nothing. -/
theorem appendCached_spec (writes : Nat → PatchOutcome) (s : Store) :
    let after := s.appendGroups writes (cfGroups s.recentFlush.values)
    after.2.l1 = s.l1 ∧ (∀ e, e ∈ after.2.settled ↔ e ∈ s.settled) ∧
      (after.1 = .ok () → ∀ e, e ∈ settled { after.2 with recentFlush := ∅ } ↔ e ∈ s.settled) := by
  obtain ⟨hL1, hCache, hL3, hGrow, hNew, hAll⟩ :=
    appendGroups_spec writes s (cfGroups s.recentFlush.values)
  generalize s.appendGroups writes (cfGroups s.recentFlush.values) = after at *
  have hL2 : ∀ e ∈ after.2.l2.versions, e ∈ s.recentFlush.values ∨ e ∈ s.l2.versions := by
    intro e he
    rcases hNew e he with he | hGroup
    · exact Or.inr he
    · exact Or.inl (mem_cfGroups.mpr hGroup)
  refine ⟨hL1, fun e => ?_, fun hOk e => ?_⟩
  · have hFrom := hL2 e
    have hKeep := hGrow e
    rw [mem_settled, mem_settled, hL1, hCache, hL3]
    grind
  · have hFrom := hL2 e
    have hKeep := hGrow e
    have hWritten : e ∈ s.recentFlush.values → e ∈ after.2.l2.versions := by
      intro he
      obtain ⟨group, hGroup, pe, hpe, rfl⟩ := mem_cfGroups.mp he
      exact hAll hOk group hGroup pe hpe
    rw [mem_settled, mem_settled]
    simp only [hL1, hL3, VersionMap.values_empty, List.not_mem_nil, false_or]
    grind

/-- A flush moves versions: nothing new appears, every version stays under its
id, and the L1 snapshot buffer is the old hot buffer. -/
theorem flush_spec (writes : Nat → PatchOutcome) (s : Store) :
    let s' := (s.flushL1ToL2 writes).2
    (∀ e ∈ s'.settled, e ∈ s.settled) ∧ (∀ e ∈ s.settled, ∃ e' ∈ s'.settled, e'.id = e.id) ∧
      s'.l1.snapshot = s.l1.hot := by
  obtain ⟨hFrom, hStay⟩ := s.stage_spec
  obtain ⟨hL1, hWritten, hCleared⟩ := appendCached_spec writes s.stage
  have hBuffer : s.stage.l1.snapshot = s.l1.hot := rfl
  simp only [flushL1ToL2]
  generalize s.stage.appendGroups writes (cfGroups s.stage.recentFlush.values) = after at *
  obtain ⟨result, after⟩ := after
  simp only at hL1 hWritten hCleared
  cases result with
  | error err =>
      refine ⟨fun e he => hFrom e ((hWritten e).mp he), fun e he => ?_, by rw [hL1, hBuffer]⟩
      obtain ⟨e', he', hId⟩ := hStay e he
      exact ⟨e', (hWritten e').mpr he', hId⟩
  | ok _ =>
      refine ⟨fun e he => hFrom e ((hCleared rfl e).mp he), fun e he => ?_, by simp only [hL1, hBuffer]⟩
      obtain ⟨e', he', hId⟩ := hStay e he
      exact ⟨e', (hCleared rfl e').mpr he', hId⟩

theorem tryFlush_spec (writes : Nat → PatchOutcome) (s : Store) :
    (s.tryFlush writes).2 = s ∨ (s.tryFlush writes).2 = (s.flushL1ToL2 writes).2 := by
  unfold tryFlush
  split
  · right
    rcases s.flushL1ToL2 writes with ⟨result, s'⟩
    cases result <;> rfl
  · exact Or.inl rfl

/-- What a compaction, complete or not, does to the layers: memory is untouched,
versions move from L2 to L3, and of the versions of a key below the watermark a
newest one stays. -/
structure Compacted (watermark : TxnId) (s s' : Store) : Prop where
  l1 : s'.l1 = s.l1
  cache : s'.recentFlush = s.recentFlush
  l2 : ∀ e ∈ s'.l2.versions, e ∈ s.l2.versions
  l3 : ∀ e ∈ s.l3.versions, e ∈ s'.l3.versions
  moved : ∀ e ∈ s'.l3.versions, e ∈ s.l3.versions ∨ e ∈ s.l2.versions
  l2Images : ∀ e ∈ s'.l2.imageVersions, e ∈ s.l2.imageVersions
  l3Images : ∀ e ∈ s'.l3.imageVersions, e ∈ s.l3.imageVersions ∨ e ∈ s.l2.versions
  kept : ∀ e ∈ s.l2.versions, e ∈ s'.l2.versions ∨ e ∈ s'.l3.versions ∨
    e.txnId < watermark ∧ ∃ newer ∈ s'.l3.versions, newer ∈ s.l2.versions ∧ newer.key = e.key ∧
      newer.txnId < watermark ∧ e.txnId ≤ newer.txnId

theorem Compacted.refl (watermark : TxnId) (s : Store) : s.Compacted watermark s :=
  ⟨rfl, rfl, fun _ h => h, fun _ h => h, fun _ h => Or.inl h, fun _ h => h, fun _ h => Or.inl h,
    fun _ h => Or.inl h⟩

theorem Compacted.trans {watermark : TxnId} {s t u : Store} (h : s.Compacted watermark t)
    (h' : t.Compacted watermark u) : s.Compacted watermark u := by
  refine ⟨h'.l1.trans h.l1, h'.cache.trans h.cache, fun e he => h.l2 e (h'.l2 e he),
    fun e he => h'.l3 e (h.l3 e he), ?_, fun e he => h.l2Images e (h'.l2Images e he), ?_, ?_⟩
  · intro e he
    rcases h'.moved e he with he | he
    · exact h.moved e he
    · exact Or.inr (h.l2 e he)
  · intro e he
    rcases h'.l3Images e he with he | he
    · exact h.l3Images e he
    · exact Or.inr (h.l2 e he)
  · intro e he
    rcases h.kept e he with he | he | ⟨hBelow, newer, hNewer, hFrom, hRest⟩
    · rcases h'.kept e he with he | he | ⟨hBelow, newer, hNewer, hFrom, hRest⟩
      · exact Or.inl he
      · exact Or.inr (Or.inl he)
      · exact Or.inr (Or.inr ⟨hBelow, newer, hNewer, h.l2 newer hFrom, hRest⟩)
    · exact Or.inr (Or.inl (h'.l3 e he))
    · exact Or.inr (Or.inr ⟨hBelow, newer, h'.l3 newer hNewer, hFrom, hRest⟩)

/-- The merge of one column family, seen on versions. -/
private theorem gc_versions {layer : DiskLayer} {cf : UInt16} {watermark : TxnId}
    {retained : List PatchEntry}
    (h : retained = (gcEntries ((layer.allVersions cf).map PatchEntry.ofZ1Entry) watermark).1) :
    (∀ pe ∈ retained, pe.toZ1Entry cf ∈ layer.versions) ∧
      ∀ e ∈ layer.versions, e.key.cf = cf →
        (∃ pe ∈ retained, pe.toZ1Entry cf = e) ∨
          e.txnId < watermark ∧ ∃ pe ∈ retained, (pe.toZ1Entry cf).key = e.key ∧
            pe.txnId < watermark ∧ e.txnId ≤ pe.txnId := by
  subst h
  constructor
  · intro pe hpe
    obtain ⟨e, he, rfl⟩ := List.mem_map.mp (mem_of_mem_gcEntries hpe)
    obtain ⟨hMem, rfl⟩ := DiskLayer.mem_allVersions.mp he
    exact hMem
  · rintro e he rfl
    have hEntry : PatchEntry.ofZ1Entry e ∈
        (layer.allVersions e.key.cf).map PatchEntry.ofZ1Entry :=
      List.mem_map_of_mem (DiskLayer.mem_allVersions.mpr ⟨he, rfl⟩)
    by_cases hBelow : e.txnId < watermark
    · obtain ⟨kept, hKept, hKey, hTxn⟩ := exists_gcEntries_of_lt hEntry hBelow
      refine Or.inr ⟨hBelow, kept, hKept, ?_, hTxn⟩
      rw [PatchEntry.toZ1Entry, hKey]
      rfl
    · exact Or.inl ⟨_, mem_gcEntries_of_ge hEntry (Nat.le_of_not_lt hBelow), rfl⟩

theorem mem_imageVersions_dropCf {layer : DiskLayer} {cf : UInt16} {e : Z1Entry}
    (h : e ∈ (layer.dropCf cf).imageVersions) : e ∈ layer.imageVersions := by
  obtain ⟨p, hp, hEntry⟩ := DiskLayer.mem_imageVersions.mp h
  exact DiskLayer.mem_imageVersions.mpr ⟨p, List.mem_of_mem_filter hp, hEntry⟩

theorem compactCf_spec (writes : Nat → PatchOutcome) (watermark : TxnId) (s : Store) (cf : UInt16) :
    s.Compacted watermark (s.compactCf writes watermark cf).2 := by
  simp only [compactCf]
  split
  · exact Compacted.refl watermark s
  · generalize hGc : gcEntries ((s.l2.allVersions cf).map PatchEntry.ofZ1Entry) watermark = gc
    obtain ⟨retained, stats⟩ := gc
    obtain ⟨hFrom, hKept⟩ := gc_versions (congrArg Prod.fst hGc).symm
    split
    · next hNone =>
      subst hNone
      refine ⟨rfl, rfl, fun e he => (DiskLayer.mem_dropCf.mp he).1, fun _ h => h,
        fun _ h => Or.inl h, fun e he => mem_imageVersions_dropCf he, fun _ h => Or.inl h,
        fun e he => ?_⟩
      by_cases hCf : e.key.cf = cf
      · simpa using hKept e he hCf
      · exact Or.inl (DiskLayer.mem_dropCf.mpr ⟨he, hCf⟩)
    · have hNew := @DiskLayer.appendPatch_versions s.l3 (writes s.nextPatchId) cf retained
        s.nextPatchId
      have hImages {e : Z1Entry} := @DiskLayer.appendPatch_imageVersions s.l3 (writes s.nextPatchId) cf
        retained s.nextPatchId e
      generalize hAppend : s.l3.appendPatch (writes s.nextPatchId) cf retained s.nextPatchId = outcome at *
      obtain ⟨result, l3⟩ := outcome
      have hOld : ∀ e ∈ s.l3.versions, e ∈ l3.versions :=
        fun _ => DiskLayer.subset_appendPatch hAppend
      have hMoved : ∀ e ∈ l3.versions, e ∈ s.l3.versions ∨ e ∈ s.l2.versions := by
        intro e he
        rcases hNew he with he | ⟨pe, hpe, rfl⟩
        · exact Or.inl he
        · exact Or.inr (hFrom pe hpe)
      have hLeft : ∀ e ∈ l3.imageVersions, e ∈ s.l3.imageVersions ∨ e ∈ s.l2.versions := by
        intro e he
        rcases hImages he with he | ⟨pe, hpe, rfl⟩
        · exact Or.inl he
        · exact Or.inr (hFrom pe hpe)
      cases result with
      | error err =>
          exact ⟨rfl, rfl, fun _ h => h, hOld, hMoved, fun _ h => h, hLeft, fun _ h => Or.inl h⟩
      | ok _ =>
          refine ⟨rfl, rfl, fun e he => (DiskLayer.mem_dropCf.mp he).1, hOld, hMoved,
            fun e he => mem_imageVersions_dropCf he, hLeft, fun e he => ?_⟩
          by_cases hCf : e.key.cf = cf
          · rcases hKept e he hCf with ⟨pe, hpe, rfl⟩ | ⟨hBelow, pe, hpe, hKey, hTxn⟩
            · exact Or.inr (Or.inl (DiskLayer.mem_appendPatch hAppend hpe))
            · exact Or.inr (Or.inr
                ⟨hBelow, _, DiskLayer.mem_appendPatch hAppend hpe, hFrom pe hpe, hKey, hTxn⟩)
          · exact Or.inl (DiskLayer.mem_dropCf.mpr ⟨he, hCf⟩)

theorem compactCfs_spec (writes : Nat → PatchOutcome) (watermark : TxnId) (s : Store) (cfs : List UInt16) :
    s.Compacted watermark (s.compactCfs writes watermark cfs).2 := by
  induction cfs generalizing s with
  | nil => exact Compacted.refl watermark s
  | cons cf rest ih =>
      have hFirst := compactCf_spec writes watermark s cf
      rw [compactCfs]
      generalize s.compactCf writes watermark cf = outcome at *
      obtain ⟨result, middle⟩ := outcome
      cases result with
      | error err => exact hFirst
      | ok counts =>
          have hRest := ih middle
          dsimp only
          generalize middle.compactCfs writes watermark rest = later at *
          obtain ⟨result', after⟩ := later
          cases result' <;> exact hFirst.trans hRest

theorem tryCompact_spec (writes : Nat → PatchOutcome) (watermark : TxnId) (threshold : Nat) (s : Store) :
    s.Compacted watermark (s.tryCompact writes watermark threshold).2 := by
  unfold tryCompact
  split
  · have h : s.Compacted watermark (s.compactL2ToL3 writes watermark).2 := compactCfs_spec _ _ _ _
    generalize s.compactL2ToL3 writes watermark = outcome at *
    obtain ⟨result, after⟩ := outcome
    cases result <;> exact h
  · exact Compacted.refl watermark s

/-- A version that this compaction does not give up: it is not only in L2, or at
or above the watermark, or the newest of its key below it. -/
def Survives (s : Store) (watermark : TxnId) (e : Z1Entry) : Prop :=
  e ∈ s.l1.hot.values ∨ e ∈ s.l1.cold.values ∨ e ∈ s.recentFlush.values ∨ e ∈ s.l3.versions ∨
    e ∈ s.l2.versions ∧ (watermark ≤ e.txnId ∨
      ∀ w ∈ s.l2.versions, w.key = e.key → w.txnId < watermark → w.txnId ≤ e.txnId)

theorem Compacted.settled_subset {watermark : TxnId} {s s' : Store} (h : s.Compacted watermark s')
    {e : Z1Entry} (he : e ∈ s'.settled) : e ∈ s.settled := by
  have hL2 := h.l2 e
  have hL3 := h.moved e
  rw [mem_settled, h.l1, h.cache] at he
  rw [mem_settled]
  grind

theorem Compacted.held_subset {watermark : TxnId} {s s' : Store} (h : s.Compacted watermark s')
    {e : Z1Entry} (he : e ∈ s'.held) : e ∈ s.held := by
  rw [mem_held, h.l1] at he
  exact mem_held.mpr (he.imp h.settled_subset id)

/-- A surviving version is there afterwards, in some copy. -/
theorem Compacted.survives {watermark : TxnId} {s s' : Store} (h : s.Compacted watermark s')
    {e : Z1Entry} (he : s.Survives watermark e) : ∃ e' ∈ s'.settled, e'.id = e.id := by
  have hStay : e ∈ s'.settled → ∃ e' ∈ s'.settled, e'.id = e.id := fun h => ⟨e, h, rfl⟩
  rcases he with he | he | he | he | ⟨he, hNewest⟩
  · exact hStay (mem_settled.mpr (Or.inl (by rw [h.l1]; exact he)))
  · exact hStay (mem_settled.mpr (Or.inr (Or.inl (by rw [h.l1]; exact he))))
  · exact hStay (mem_settled.mpr (Or.inr (Or.inr (Or.inl (by rw [h.cache]; exact he)))))
  · exact hStay (mem_settled.mpr (Or.inr (Or.inr (Or.inr (Or.inr (h.l3 e he))))))
  · rcases h.kept e he with hL2 | hL3 | ⟨hBelow, newer, hNewer, hFrom, hKey, hNewerBelow, hLe⟩
    · exact hStay (mem_settled.mpr (Or.inr (Or.inr (Or.inr (Or.inl hL2)))))
    · exact hStay (mem_settled.mpr (Or.inr (Or.inr (Or.inr (Or.inr hL3)))))
    · have hTxn : newer.txnId = e.txnId := by
        rcases hNewest with hAbove | hNewest
        · exact absurd hBelow (Nat.not_lt.mpr hAbove)
        · exact le_antisymm (hNewest newer hFrom hKey hNewerBelow) hLe
      refine ⟨newer, mem_settled.mpr (Or.inr (Or.inr (Or.inr (Or.inr hNewer)))), ?_⟩
      rw [Z1Entry.id, Z1Entry.id, hKey, hTxn]

/-- Everything a flush leaves to read was there to read before. -/
theorem flush_held_subset {writes : Nat → PatchOutcome} {s : Store} {e : Z1Entry}
    (he : e ∈ (s.flushL1ToL2 writes).2.held) : e ∈ s.held := by
  obtain ⟨hFrom, -, hBuffer⟩ := s.flush_spec writes
  rcases mem_held.mp he with he | he
  · exact mem_held.mpr (Or.inl (hFrom e he))
  · rw [hBuffer] at he
    exact mem_held.mpr (Or.inl (mem_settled.mpr (Or.inl he)))

/-- A flush writes what was held. -/
theorem flush_stored_subset {writes : Nat → PatchOutcome} {s : Store} {e : Z1Entry}
    (he : e ∈ (s.flushL1ToL2 writes).2.stored) : e ∈ s.stored := by
  rcases mem_stored.mp he with hHeld | hLeft
  · exact mem_stored.mpr (Or.inl (flush_held_subset hHeld))
  · have hStaged : e ∈ (s.stage.appendGroups writes (cfGroups s.stage.recentFlush.values)).2.leftover := by
      rw [flushL1ToL2] at hLeft
      generalize s.stage.appendGroups writes (cfGroups s.stage.recentFlush.values) = after at hLeft ⊢
      obtain ⟨result, after⟩ := after
      cases result <;> exact hLeft
    rcases appendGroups_leftover writes s.stage _ hStaged with hOld | hGroup
    · exact mem_stored.mpr (Or.inr hOld)
    · have hCached := mem_settled.mpr (Or.inr (Or.inr (Or.inl (mem_cfGroups.mpr hGroup))))
      exact mem_stored.mpr (Or.inl (mem_held.mpr (Or.inl (s.stage_spec.1 e hCached))))

theorem Compacted.stored_subset {watermark : TxnId} {s s' : Store} (h : s.Compacted watermark s')
    {e : Z1Entry} (he : e ∈ s'.stored) : e ∈ s.stored := by
  rcases mem_stored.mp he with hHeld | hLeft
  · exact mem_stored.mpr (Or.inl (h.held_subset hHeld))
  · rcases mem_leftover.mp hLeft with hL2 | hL3
    · exact mem_stored.mpr (Or.inr (mem_leftover.mpr (Or.inl (h.l2Images e hL2))))
    · rcases h.l3Images e hL3 with hOld | hL2
      · exact mem_stored.mpr (Or.inr (mem_leftover.mpr (Or.inr hOld)))
      · have hSettled := mem_settled.mpr (Or.inr (Or.inr (Or.inr (Or.inl hL2))))
        exact mem_stored.mpr (Or.inl (mem_held.mpr (Or.inl hSettled)))

theorem mem_settled_write {s : Store} {e new : Z1Entry} (hId : e.id ≠ new.id) (he : e ∈ s.settled) :
    e ∈ settled { s with l1 := s.l1.replayPut new } := by
  rw [mem_settled] at he ⊢
  exact he.imp_left fun h => VersionMap.mem_values_put.mpr (Or.inr ⟨h, hId⟩)

theorem mem_held_write {s : Store} {e new : Z1Entry}
    (he : e ∈ held { s with l1 := s.l1.replayPut new }) : e = new ∨ e ∈ s.held := by
  have hHot : e ∈ (s.l1.hot.put new).values → e = new ∨ e ∈ s.held := by
    intro h
    refine (VersionMap.mem_values_put.mp h).imp_right fun h => ?_
    exact mem_held.mpr (Or.inl (mem_settled.mpr (Or.inl h.1)))
  rcases mem_held.mp he with he | he
  · rcases mem_settled.mp he with he | he
    · exact hHot he
    · exact Or.inr (mem_held.mpr (Or.inl (mem_settled.mpr (Or.inr he))))
  · exact Or.inr (mem_held.mpr (Or.inr he))

theorem mem_stored_write {s : Store} {e new : Z1Entry}
    (he : e ∈ stored { s with l1 := s.l1.replayPut new }) : e = new ∨ e ∈ s.stored := by
  rcases mem_stored.mp he with hHeld | hLeft
  · exact (mem_held_write hHeld).imp_right fun h => mem_stored.mpr (Or.inl h)
  · exact Or.inr (mem_stored.mpr (Or.inr hLeft))

/-- A version that is in the layers, outside the L1 snapshot buffer, with the
same value in every copy. -/
structure Retains (s : Store) (e : Z1Entry) : Prop where
  isSettled : e ∈ s.settled
  only : ∀ copy ∈ s.held, copy.id = e.id → copy = e

namespace Retains
variable {s s' : Store} {e : Z1Entry} (h : s.Retains e)
include h

theorem of_subset (hSub : ∀ copy ∈ s'.held, copy ∈ s.held)
    (hStay : ∃ copy ∈ s'.settled, copy.id = e.id) : s'.Retains e := by
  obtain ⟨copy, hCopy, hId⟩ := hStay
  have hSame := h.only copy (hSub copy (mem_held.mpr (Or.inl hCopy))) hId
  exact ⟨hSame ▸ hCopy, fun other hOther => h.only other (hSub other hOther)⟩

theorem write {new : Z1Entry} (hId : e.id ≠ new.id) :
    Retains { s with l1 := s.l1.replayPut new } e := by
  refine ⟨mem_settled_write hId h.isSettled, fun copy hCopy hCopyId => ?_⟩
  rcases mem_held_write hCopy with rfl | hOld
  · exact absurd hCopyId.symm hId
  · exact h.only copy hOld hCopyId

theorem flush (writes : Nat → PatchOutcome) : (s.flushL1ToL2 writes).2.Retains e :=
  h.of_subset (fun _ => flush_held_subset) ((s.flush_spec writes).2.1 e h.isSettled)

theorem compacted {watermark : TxnId} (hCompacted : s.Compacted watermark s')
    (hSurvives : s.Survives watermark e) : s'.Retains e :=
  h.of_subset (fun _ => hCompacted.held_subset) (hCompacted.survives hSurvives)

end Retains

/-- Everything that is not in the hot buffer. -/
def beyondHot (s : Store) : List Z1Entry :=
  s.l1.cold.values ++ s.l1.snapshot.values ++ s.recentFlush.values ++ s.l2.versions ++ s.l3.versions

theorem mem_held_iff {s : Store} {e : Z1Entry} :
    e ∈ s.held ↔ e ∈ s.l1.hot.values ∨ e ∈ s.beyondHot := by
  simp only [held, settled, beyondHot, List.mem_append]
  grind

/-- A write that agrees with every copy outside the hot buffer. -/
theorem Retains.of_write {s : Store} {e : Z1Entry}
    (h : ∀ copy ∈ s.beyondHot, copy.id = e.id → copy = e) :
    Retains { s with l1 := s.l1.replayPut e } e := by
  have hHot : e ∈ (s.l1.hot.put e).values := VersionMap.mem_values_put.mpr (Or.inl rfl)
  refine ⟨mem_settled.mpr (Or.inl hHot), fun copy hCopy hId => ?_⟩
  rcases mem_held_iff.mp hCopy with hCopy | hCopy
  · exact (VersionMap.mem_values_put.mp hCopy).resolve_right fun hOld => hOld.2 hId
  · exact h copy hCopy hId

/-- Nothing at or above the watermark is given up. -/
theorem Survives.of_le {s : Store} {watermark : TxnId} {e : Z1Entry} (he : e ∈ s.settled)
    (hLe : watermark ≤ e.txnId) : s.Survives watermark e := by
  rcases mem_settled.mp he with he | he | he | he | he
  · exact Or.inl he
  · exact Or.inr (Or.inl he)
  · exact Or.inr (Or.inr (Or.inl he))
  · exact Or.inr (Or.inr (Or.inr (Or.inr ⟨he, Or.inl hLe⟩)))
  · exact Or.inr (Or.inr (Or.inr (Or.inl he)))

end Store
end Z1Kv
