import Z1Kv.Store.PatchFiles

/-! The reads of a layer over files are those of the layer of patches that the files hold,
however the index was built and whatever is in the content cache. -/
namespace Z1Kv

/-- The file of this path parses to these entries. -/
def PatchTree.Holds (codec : PatchCodec) (files : PatchTree) (path : PatchPath)
    (entries : List PatchEntry) : Prop :=
  ∃ bytes, files.read path = some bytes ∧ codec.readPatch bytes = .ok entries

/-- An index entry stands for a patch. -/
structure RangeIndexEntry.Stands (codec : PatchCodec) (files : PatchTree) (e : RangeIndexEntry)
    (p : Patch) : Prop where
  min : e.min = p.minKey
  max : e.max = p.maxKey
  cf : p.cf = e.path.cf
  name : p.patchId = e.path.file.patchId?
  holds : files.Holds codec e.path p.entries

namespace FileLayer

/-- Cached contents are those of the files. -/
def CacheHolds (codec : PatchCodec) (layer : FileLayer) : Prop :=
  ∀ path entries, AList.lookup path layer.content = some entries →
    layer.files.Holds codec path entries

/-- The index of each column family stands for these patches, in this order. -/
structure Mirrors (codec : PatchCodec) (layer : FileLayer) (patches : UInt16 → List Patch) : Prop where
  index : ∀ cf, List.Forall₂ (RangeIndexEntry.Stands codec layer.files) (layer.ranges cf) (patches cf)
  owned : ∀ cf, ∀ p ∈ patches cf, p.cf = cf
  cache : layer.CacheHolds codec

/-- What a read may change: only the cache, which still holds. -/
structure Reread (codec : PatchCodec) (layer after : FileLayer) : Prop where
  files : after.files = layer.files
  index : after.index = layer.index
  cache : after.CacheHolds codec

section
variable {codec : PatchCodec} {layer after : FileLayer} {patches : UInt16 → List Patch}

theorem Reread.trans {last : FileLayer} (h : layer.Reread codec after) (h' : after.Reread codec last) :
    layer.Reread codec last :=
  ⟨h'.files.trans h.files, h'.index.trans h.index, h'.cache⟩

theorem Mirrors.reread (h : layer.Mirrors codec patches) (hRead : layer.Reread codec after) :
    after.Mirrors codec patches := by
  refine ⟨fun cf => ?_, h.owned, hRead.cache⟩
  have hIndex := h.index cf
  rw [hRead.files, ranges, hRead.index]
  exact hIndex

theorem loadPatch_spec {path : PatchPath} {entries : List PatchEntry} (hCache : layer.CacheHolds codec)
    (hHolds : layer.files.Holds codec path entries) :
    ∃ after, layer.loadPatch codec path = (.ok entries, after) ∧ layer.Reread codec after := by
  obtain ⟨bytes, hRead, hParse⟩ := hHolds
  unfold loadPatch
  split
  · next hit hHit =>
    obtain ⟨bytes', hRead', hParse'⟩ := hCache path hit hHit
    obtain rfl : bytes' = bytes := Option.some.inj (hRead'.symm.trans hRead)
    obtain rfl : hit = entries := Except.ok.inj (hParse'.symm.trans hParse)
    exact ⟨layer, rfl, rfl, rfl, hCache⟩
  · rw [hRead]
    dsimp only
    rw [hParse]
    refine ⟨_, rfl, rfl, rfl, fun other cached hCached => ?_⟩
    by_cases hPath : other = path
    · subst hPath
      rw [AList.lookup_insert] at hCached
      obtain rfl := Option.some.inj hCached
      exact ⟨bytes, hRead, hParse⟩
    · rw [AList.lookup_insert_ne hPath] at hCached
      exact hCache other cached hCached

@[simp] theorem loadPatch_files (codec : PatchCodec) (layer : FileLayer) (path : PatchPath) :
    (layer.loadPatch codec path).2.files = layer.files := by
  unfold loadPatch
  split
  · rfl
  · split
    · rfl
    · split <;> rfl

/-- No read touches a file. -/
theorem collect_files {β : Type} (codec : PatchCodec) (taken : List PatchEntry → List β)
    (layer : FileLayer) (paths : List PatchPath) :
    (layer.collect codec taken paths).2.files = layer.files := by
  induction paths generalizing layer with
  | nil => rfl
  | cons path rest ih =>
      have hLoad := loadPatch_files codec layer path
      rw [collect]
      split
      · next loaded hEq =>
        rw [hEq] at hLoad
        exact (ih _).trans hLoad
      · next hEq =>
        rw [hEq] at hLoad
        exact hLoad
      · next entries loaded hEq =>
        rw [hEq] at hLoad
        have hRest := (ih loaded).trans hLoad
        split
        · next hMore =>
          rw [hMore] at hRest
          exact hRest
        · next hMore =>
          rw [hMore] at hRest
          exact hRest

theorem getVersions_files (codec : PatchCodec) (layer : FileLayer) (cf : UInt16) (key : Bytes) :
    (layer.getVersions codec cf key).2.files = layer.files := collect_files ..

theorem allVersions_files (codec : PatchCodec) (layer : FileLayer) (cf : UInt16) :
    (layer.allVersions codec cf).2.files = layer.files := collect_files ..

theorem rangeVisible_files (codec : PatchCodec) (layer : FileLayer) (cf : UInt16) (start : Bytes)
    (endKey : Option Bytes) : (layer.rangeVisible codec cf start endKey).2.files = layer.files := by
  have hCollect := collect_files codec (fun entries => (entries.filter fun pe =>
    inRange cf start endKey ⟨cf, pe.key⟩).map fun pe => (pe.key, pe.toZ1Entry cf)) layer
      (((layer.ranges cf).filter fun e => start ≤ e.max && endKey.all fun bound => e.min < bound).map
        RangeIndexEntry.path)
  unfold rangeVisible
  dsimp only
  split
  · next hEq =>
    rw [hEq] at hCollect
    exact hCollect
  · next hEq =>
    rw [hEq] at hCollect
    exact hCollect

/-- The loop over files that stand for patches goes through the patches. -/
theorem collect_spec {β : Type} (taken : List PatchEntry → List β) {es : List RangeIndexEntry}
    {ps : List Patch} (hStands : List.Forall₂ (RangeIndexEntry.Stands codec layer.files) es ps)
    (hCache : layer.CacheHolds codec) :
    ∃ after, layer.collect codec taken (es.map RangeIndexEntry.path) =
      (.ok (ps.flatMap fun p => taken p.entries), after) ∧ layer.Reread codec after := by
  induction es generalizing ps layer with
  | nil =>
      obtain rfl := List.forall₂_nil_left_iff.mp hStands
      exact ⟨layer, rfl, rfl, rfl, hCache⟩
  | cons e es ih =>
      obtain ⟨p, ps, hHead, hTail, rfl⟩ := List.forall₂_cons_left_iff.mp hStands
      obtain ⟨loaded, hLoad, hLoaded⟩ := loadPatch_spec hCache hHead.holds
      rw [← hLoaded.files] at hTail
      obtain ⟨after, hRest, hAfter⟩ := ih hTail hLoaded.cache
      refine ⟨after, ?_, hLoaded.trans hAfter⟩
      rw [List.map_cons, collect, hLoad]
      dsimp only
      rw [hRest]
      rfl

/-- The index prunes as the patches do. -/
theorem Mirrors.filter (h : layer.Mirrors codec patches) (cf : UInt16) (keep : Bytes → Bytes → Bool) :
    List.Forall₂ (RangeIndexEntry.Stands codec layer.files)
      ((layer.ranges cf).filter fun e => keep e.min e.max)
      ((patches cf).filter fun p => p.cf = cf && keep p.minKey p.maxKey) := by
  have hOwned : ((patches cf).filter fun p => p.cf = cf && keep p.minKey p.maxKey) =
      (patches cf).filter fun p => keep p.minKey p.maxKey := by
    apply List.filter_congr
    intro p hp
    rw [h.owned cf p hp, decide_eq_true rfl, Bool.true_and]
  rw [hOwned]
  apply List.rel_filter _ (h.index cf)
  intro e p hStands
  show keep e.min e.max = true ↔ keep p.minKey p.maxKey = true
  rw [hStands.min, hStands.max]

theorem Mirrors.getVersions (h : layer.Mirrors codec patches) (cf : UInt16) (key : Bytes) :
    ∃ after, layer.getVersions codec cf key = (.ok (DiskLayer.getVersions ⟨patches cf, []⟩ cf key), after) ∧
      layer.Reread codec after := by
  have hCovering := h.filter cf fun least greatest => least ≤ key && key ≤ greatest
  obtain ⟨after, hCollect, hAfter⟩ := collect_spec
    (fun entries => (entries.filter (·.key = key)).map (PatchEntry.toZ1Entry cf)) hCovering h.cache
  refine ⟨after, hCollect.trans ?_, hAfter⟩
  simp only [DiskLayer.getVersions, Bool.and_assoc]

theorem Mirrors.rangeVisible (h : layer.Mirrors codec patches) (cf : UInt16) (start : Bytes)
    (endKey : Option Bytes) :
    ∃ after, layer.rangeVisible codec cf start endKey =
        (.ok (DiskLayer.rangeVisible ⟨patches cf, []⟩ cf start endKey), after) ∧
      layer.Reread codec after := by
  have hMeeting := h.filter cf fun least greatest =>
    start ≤ greatest && endKey.all fun bound => least < bound
  obtain ⟨after, hCollect, hAfter⟩ := collect_spec
    (fun entries => (entries.filter fun pe => inRange cf start endKey ⟨cf, pe.key⟩).map fun pe =>
      (pe.key, pe.toZ1Entry cf)) hMeeting h.cache
  refine ⟨after, ?_, hAfter⟩
  rw [FileLayer.rangeVisible, hCollect]
  simp only [DiskLayer.rangeVisible, Bool.and_assoc]

theorem Mirrors.allVersions (h : layer.Mirrors codec patches) (cf : UInt16) :
    ∃ after, layer.allVersions codec cf = (.ok (DiskLayer.allVersions ⟨patches cf, []⟩ cf), after) ∧
      layer.Reread codec after := by
  obtain ⟨after, hCollect, hAfter⟩ := collect_spec
    (List.map (PatchEntry.toZ1Entry cf)) (h.index cf) h.cache
  refine ⟨after, hCollect.trans ?_, hAfter⟩
  have hAll : (patches cf).filter (fun p => decide (p.cf = cf)) = patches cf :=
    List.filter_eq_self.mpr fun p hp => decide_eq_true (h.owned cf p hp)
  rw [DiskLayer.allVersions, hAll]
  congr 2
  apply List.flatMap_congr
  intro p hp
  rw [Patch.versions, h.owned cf p hp]

/-- A layer reads back these entries of each column family. -/
structure ReadsBack (codec : PatchCodec) (layer : FileLayer) (entries : UInt16 → List PatchEntry) :
    Prop where
  getVersions : ∀ cf key, ∃ versions after, layer.getVersions codec cf key = (.ok versions, after) ∧
    versions.Perm (((entries cf).filter (·.key = key)).map (PatchEntry.toZ1Entry cf))
  allVersions : ∀ cf, ∃ versions after, layer.allVersions codec cf = (.ok versions, after) ∧
    versions.Perm ((entries cf).map (PatchEntry.toZ1Entry cf))
  rangeVisible : ∀ cf start endKey, ∃ pairs after,
    layer.rangeVisible codec cf start endKey = (.ok pairs, after) ∧ pairs.Pairwise (·.1 < ·.1) ∧
      (∀ pe ∈ entries cf, inRange cf start endKey ⟨cf, pe.key⟩ = true → ∃ e, (pe.key, e) ∈ pairs) ∧
      ∀ k e, (k, e) ∈ pairs → inRange cf start endKey ⟨cf, k⟩ = true ∧
        ∃ pe ∈ entries cf, pe.key = k ∧ e = pe.toZ1Entry cf ∧
          ∀ other ∈ entries cf, other.key = k → other.txnId ≤ pe.txnId

/-- The patches behind the index hold these entries. -/
def Serves (codec : PatchCodec) (layer : FileLayer) (entries : UInt16 → List PatchEntry) : Prop :=
  ∃ patches, layer.Mirrors codec patches ∧
    ∀ cf, ((patches cf).flatMap Patch.entries).Perm (entries cf)

variable {entries : UInt16 → List PatchEntry}

theorem Serves.reread (h : layer.Serves codec entries) (hRead : layer.Reread codec after) :
    after.Serves codec entries := by
  obtain ⟨patches, hMirrors, hEntries⟩ := h
  exact ⟨patches, hMirrors.reread hRead, hEntries⟩

theorem Mirrors.versions (h : layer.Mirrors codec patches) (cf : UInt16) :
    DiskLayer.versions ⟨patches cf, []⟩ =
      ((patches cf).flatMap Patch.entries).map (PatchEntry.toZ1Entry cf) := by
  rw [DiskLayer.versions, List.map_flatMap]
  apply List.flatMap_congr
  intro p hp
  rw [Patch.versions, h.owned cf p hp]

/-- What the index is for: reads return exactly the entries behind it. -/
theorem Serves.readsBack (h : layer.Serves codec entries) : layer.ReadsBack codec entries := by
  obtain ⟨patches, hMirrors, hEntries⟩ := h
  have hVersions (cf : UInt16) : (DiskLayer.versions ⟨patches cf, []⟩).Perm
      ((entries cf).map (PatchEntry.toZ1Entry cf)) := by
    rw [hMirrors.versions cf]
    exact (hEntries cf).map _
  refine ⟨fun cf key => ?_, fun cf => ?_, fun cf start endKey => ?_⟩
  · obtain ⟨after, hRead, -⟩ := hMirrors.getVersions cf key
    refine ⟨_, after, hRead, ?_⟩
    rw [DiskLayer.getVersions_eq]
    refine ((hVersions cf).filter _).trans ?_
    rw [List.filter_map]
    apply List.Perm.of_eq
    congr 1
    apply List.filter_congr
    intro pe _
    simp [PatchEntry.toZ1Entry]
  · obtain ⟨after, hRead, -⟩ := hMirrors.allVersions cf
    refine ⟨_, after, hRead, ?_⟩
    have hAll : (patches cf).filter (fun p => decide (p.cf = cf)) = patches cf :=
      List.filter_eq_self.mpr fun p hp => decide_eq_true (hMirrors.owned cf p hp)
    rw [DiskLayer.allVersions, hAll]
    exact hVersions cf
  · obtain ⟨after, hRead, -⟩ := hMirrors.rangeVisible cf start endKey
    refine ⟨_, after, hRead, FinMap.ascending_pairwise _, fun pe hpe hRange => ?_, fun k e he => ?_⟩
    · obtain ⟨top, hTop, -⟩ := DiskLayer.rangeVisible_complete
        ((hVersions cf).mem_iff.mpr (List.mem_map_of_mem hpe)) rfl hRange
      exact ⟨top, hTop⟩
    · obtain ⟨⟨hMem, hTop⟩, hRange, hKey⟩ := DiskLayer.rangeVisible_sound he
      refine ⟨hRange, ?_⟩
      obtain ⟨pe, hpe, rfl⟩ := List.mem_map.mp ((hVersions cf).mem_iff.mp hMem)
      obtain rfl : pe.key = k := congrArg Z1Key.key hKey
      refine ⟨pe, hpe, rfl, rfl, fun other hOther hSame => ?_⟩
      refine hTop (other.toZ1Entry cf) ((hVersions cf).mem_iff.mpr (List.mem_map_of_mem hOther)) ?_
      exact congrArg (Z1Key.mk cf) hSame

end
end FileLayer

theorem PatchDir.mem_listing {dir : PatchDir} {e : PatchFile × Bytes} :
    e ∈ dir.entries.map (fun e => (e.1, e.2)) ↔ AList.lookup e.1 dir = some e.2 := by
  rw [← FinMap.mem_entries]
  constructor
  · intro h
    obtain ⟨e, he, rfl⟩ := List.mem_map.mp h
    exact he
  · exact fun h => List.mem_map.mpr ⟨_, h, rfl⟩

/-- The contents of the files that parse. -/
def PatchDir.readable (codec : PatchCodec) (dir : PatchDir) : List (List PatchEntry) :=
  dir.entries.filterMap fun e => (codec.readPatch e.2).toOption

/-- The files below a root hold these entries, sorted in each file. -/
structure PatchTree.Stores (codec : PatchCodec) (files : PatchTree)
    (entries : UInt16 → List PatchEntry) : Prop where
  entries : ∀ cf, ((files.dir cf).readable codec).flatten.Perm (entries cf)
  sorted : ∀ cf, ∀ content ∈ (files.dir cf).readable codec, content.Pairwise PatchEntry.Le

namespace FileLayer
section
variable {codec : PatchCodec} {files : PatchTree} {entries : UInt16 → List PatchEntry}

/-- What the file of an index entry holds. -/
def held (codec : PatchCodec) (files : PatchTree) (e : RangeIndexEntry) : List PatchEntry :=
  ((files.read e.path).bind fun bytes => (codec.readPatch bytes).toOption).getD []

theorem ranges_new (listing : ReadDir) (files : PatchTree) (cf : UInt16) :
    (new codec listing files).ranges cf =
      ((listing.order ((files.dir cf).entries.map fun e => (e.1, e.2))).filterMap
        (indexEntry codec cf)).insertionSort (·.min ≤ ·.min) := by
  rw [ranges, new, rebuildIndex, FinMap.lookup_mapValues, PatchTree.dir]
  cases AList.lookup cf files with
  | some dir => rfl
  | none =>
      have hNone : listing.order [] = [] := (listing.perm []).eq_nil
      show [] = ((listing.order []).filterMap (indexEntry codec cf)).insertionSort (·.min ≤ ·.min)
      rw [hNone]
      rfl

/-- An entry of the rebuilt index is a file that parses. -/
theorem mem_ranges_new {listing : ReadDir} {cf : UInt16} {e : RangeIndexEntry} :
    e ∈ (new codec listing files).ranges cf ↔ ∃ file bytes content,
      AList.lookup file (files.dir cf) = some bytes ∧ codec.readPatch bytes = .ok content ∧
        e = ⟨(keyBounds content).1, (keyBounds content).2, ⟨cf, file⟩⟩ := by
  rw [ranges_new, List.mem_insertionSort, List.mem_filterMap]
  constructor
  · rintro ⟨⟨file, bytes⟩, hFile, hEntry⟩
    rw [(listing.perm _).mem_iff, PatchDir.mem_listing] at hFile
    unfold indexEntry at hEntry
    split at hEntry
    · cases hEntry
    · next content hParse => exact ⟨file, bytes, content, hFile, hParse, (Option.some.inj hEntry).symm⟩
  · rintro ⟨file, bytes, content, hFile, hParse, rfl⟩
    refine ⟨(file, bytes), (listing.perm _).mem_iff.mpr (PatchDir.mem_listing.mpr hFile), ?_⟩
    rw [indexEntry, hParse]

theorem held_eq {path : PatchPath} {content : List PatchEntry} (h : files.Holds codec path content)
    (least greatest : Bytes) : held codec files ⟨least, greatest, path⟩ = content := by
  obtain ⟨bytes, hRead, hParse⟩ := h
  rw [held, hRead, Option.bind_some, hParse]
  rfl

theorem map_held {cf : UInt16} {listed : List (PatchFile × Bytes)}
    (h : ∀ e ∈ listed, AList.lookup e.1 (files.dir cf) = some e.2) :
    (listed.filterMap (indexEntry codec cf)).map (held codec files) =
      listed.filterMap fun e => (codec.readPatch e.2).toOption := by
  induction listed with
  | nil => rfl
  | cons e rest ih =>
      have hRest := ih fun later hLater => h later (List.mem_cons_of_mem _ hLater)
      cases hParse : codec.readPatch e.2 with
      | error cause =>
          rw [List.filterMap_cons_none (by rw [indexEntry, hParse]),
            List.filterMap_cons_none (by rw [hParse]; rfl), hRest]
      | ok content =>
          rw [List.filterMap_cons_some (b := ⟨(keyBounds content).1, (keyBounds content).2, ⟨cf, e.1⟩⟩)
              (by rw [indexEntry, hParse]),
            List.filterMap_cons_some (b := content) (by rw [hParse]; rfl), List.map_cons, hRest,
            @held_eq codec files ⟨cf, e.1⟩ content ⟨e.2, h e List.mem_cons_self, hParse⟩]

/-- A layer opened on sorted files mirrors a patch for each file that parses. -/
theorem mirrors_new (h : ∀ cf, ∀ content ∈ (files.dir cf).readable codec, content.Pairwise PatchEntry.Le)
    (listing : ReadDir) : ∃ patches, (new codec listing files).Mirrors codec patches ∧
      ∀ cf, ((patches cf).map Patch.entries).Perm ((files.dir cf).readable codec) := by
  have hEntries {cf : UInt16} {e : RangeIndexEntry} (he : e ∈ (new codec listing files).ranges cf) :
      (Patch.sparse cf (held codec files e) e.path.file.patchId?).entries = held codec files e ∧
        e.path.cf = cf ∧ files.Holds codec e.path (held codec files e) ∧
        e = ⟨(keyBounds (held codec files e)).1, (keyBounds (held codec files e)).2, e.path⟩ := by
    obtain ⟨file, bytes, content, hFile, hParse, rfl⟩ := mem_ranges_new.mp he
    have hHolds : files.Holds codec ⟨cf, file⟩ content := ⟨bytes, hFile, hParse⟩
    rw [held_eq hHolds]
    refine ⟨List.Pairwise.insertionSort_eq (h cf content ?_), rfl, hHolds, rfl⟩
    exact List.mem_filterMap.mpr ⟨⟨file, bytes⟩, AList.mem_lookup_iff.mp hFile, by rw [hParse]; rfl⟩
  refine ⟨fun cf => ((new codec listing files).ranges cf).map fun e =>
    Patch.sparse cf (held codec files e) e.path.file.patchId?,
    ⟨fun cf => ?_, fun cf p hp => ?_, fun path cached hCached => ?_⟩, fun cf => ?_⟩
  · rw [List.forall₂_map_right_iff, List.forall₂_same]
    intro e he
    obtain ⟨hContent, hCf, hHolds, hBounds⟩ := hEntries he
    refine ⟨?_, ?_, hCf.symm, rfl, hContent.symm ▸ hHolds⟩
    · rw [Patch.minKey, hContent]
      exact congrArg RangeIndexEntry.min hBounds
    · rw [Patch.maxKey, hContent]
      exact congrArg RangeIndexEntry.max hBounds
  · obtain ⟨e, -, rfl⟩ := List.mem_map.mp hp
    rfl
  · cases hCached
  · rw [List.map_map]
    have hSame : ((new codec listing files).ranges cf).map (Patch.entries ∘ fun e =>
        Patch.sparse cf (held codec files e) e.path.file.patchId?) =
          ((new codec listing files).ranges cf).map (held codec files) :=
      List.map_congr_left fun e he => (hEntries he).1
    rw [hSame, ranges_new]
    refine ((List.perm_insertionSort _ _).map _).trans ?_
    refine (((listing.perm _).filterMap _).map _).trans ?_
    rw [map_held fun e he => PatchDir.mem_listing.mp he, List.filterMap_map]
    exact List.Perm.refl _

/-- A layer opened on files that store entries serves them. -/
theorem serves_new (h : files.Stores codec entries) (listing : ReadDir) :
    (new codec listing files).Serves codec entries := by
  obtain ⟨patches, hMirrors, hEntries⟩ := mirrors_new h.sorted listing
  refine ⟨patches, hMirrors, fun cf => ?_⟩
  rw [List.flatMap_def]
  exact (hEntries cf).flatten.trans (h.entries cf)

end
end FileLayer
end Z1Kv
