import Z1Kv.Store.PatchMoves

/-! Where the versions of a flush go. Once the flush has returned they are in patch files, and
compactions move them on, whatever writes fail, removals stop halfway or sessions end. -/
namespace Z1Kv

/-- A version that may stand in for this one when no reader is below the bound: itself, or a
version of its key that is no older and still below the bound. -/
def PatchEntry.StaysFor (bound : TxnId) (pe kept : PatchEntry) : Prop :=
  kept = pe ∨ kept.key = pe.key ∧ pe.txnId ≤ kept.txnId ∧ kept.txnId < bound

theorem PatchEntry.StaysFor.trans {bound : TxnId} {pe kept last : PatchEntry}
    (h : pe.StaysFor bound kept) (h' : kept.StaysFor bound last) : pe.StaysFor bound last := by
  rcases h with rfl | ⟨hKey, hLe, hBound⟩
  · exact h'
  · rcases h' with rfl | ⟨hKey', hLe', hBound'⟩
    · exact Or.inr ⟨hKey, hLe, hBound⟩
    · exact Or.inr ⟨hKey'.trans hKey, hLe.trans hLe', hBound'⟩

/-- What the merge keeps for a version. -/
theorem exists_gcEntries_staysFor {entries : List PatchEntry} {watermark bound : TxnId}
    (hBound : watermark ≤ bound) {pe : PatchEntry} (h : pe ∈ entries) :
    ∃ kept ∈ (gcEntries entries watermark).1, pe.StaysFor bound kept := by
  by_cases hAbove : watermark ≤ pe.txnId
  · exact ⟨pe, mem_gcEntries_of_ge h hAbove, Or.inl rfl⟩
  · obtain ⟨kept, hKept, hKey, hBelow, hNewer⟩ := exists_gcEntries_of_lt h (Nat.lt_of_not_le hAbove)
    exact ⟨kept, hKept, Or.inr ⟨hKey, hNewer, Nat.lt_of_lt_of_le hBelow hBound⟩⟩

/-- A patch file of the column family holds this entry. -/
def PatchTree.HasPatch (codec : PatchCodec) (files : PatchTree) (cf : UInt16) (pe : PatchEntry) : Prop :=
  ∃ patchId content, files.Holds codec ⟨cf, .final patchId⟩ content ∧ pe ∈ content

namespace FileLayer

/-- The same of a patch that is in the index. -/
def Publishes (codec : PatchCodec) (layer : FileLayer) (cf : UInt16) (pe : PatchEntry) : Prop :=
  ∃ e ∈ layer.ranges cf, ∃ patchId content, e.path = ⟨cf, .final patchId⟩ ∧
    layer.files.Holds codec e.path content ∧ pe ∈ content

/-- Cached contents of patches are those of the files, as far as these are still there, and
no id of the future is among them. -/
def CacheTrue (codec : PatchCodec) (layer : FileLayer) (next : Nat) : Prop :=
  ∀ path content patchId, AList.lookup path layer.content = some content → path.file = .final patchId →
    patchId < next ∧ ∀ bytes, layer.files.read path = some bytes → codec.readPatch bytes = .ok content

section
variable {codec : PatchCodec} {layer after : FileLayer} {next : Nat} {cf : UInt16} {pe : PatchEntry}

theorem Publishes.hasPatch (h : layer.Publishes codec cf pe) : layer.files.HasPatch codec cf pe := by
  obtain ⟨e, -, patchId, content, hPath, hHolds, hIn⟩ := h
  exact ⟨patchId, content, hPath ▸ hHolds, hIn⟩

/-- Patches survive what keeps the index entries of files and the files themselves. -/
theorem Publishes.keep (h : layer.Publishes codec cf pe)
    (hIndex : ∀ e ∈ layer.ranges cf, (layer.files.read e.path).isSome → e ∈ after.ranges cf)
    (hFiles : ∀ path bytes, path.cf = cf → layer.files.read path = some bytes →
      after.files.read path = some bytes) : after.Publishes codec cf pe := by
  obtain ⟨e, he, patchId, content, hPath, ⟨bytes, hRead, hParse⟩, hIn⟩ := h
  refine ⟨e, hIndex e he (by rw [hRead]; rfl), patchId, content, hPath, ⟨bytes, ?_, hParse⟩, hIn⟩
  exact hFiles e.path bytes (by rw [hPath]) hRead

/-- A patch file that is there at the opening gets into the index. -/
theorem publishes_new {files : PatchTree} (h : files.HasPatch codec cf pe) (listing : ReadDir) :
    (FileLayer.new codec listing files).Publishes codec cf pe := by
  obtain ⟨patchId, content, ⟨bytes, hRead, hParse⟩, hIn⟩ := h
  refine ⟨_, mem_ranges_new.mpr ⟨.final patchId, bytes, content, hRead, hParse, rfl⟩,
    patchId, content, rfl, ⟨bytes, hRead, hParse⟩, hIn⟩

/-- What a write of a patch keeps, and what it adds when it returns `Ok`. -/
theorem append_publishes (call : AppendCall) (hFresh : .final call.patchId ∉ layer.files.dir call.cf) :
    (∀ cf pe, layer.Publishes codec cf pe → (layer.append codec call).2.Publishes codec cf pe) ∧
      ((layer.append codec call).1 = .ok () →
        ∀ pe ∈ call.entries, (layer.append codec call).2.Publishes codec call.cf pe) := by
  have hSpec := append_spec codec layer call
  constructor
  · intro cf pe hOld
    refine hOld.keep (fun e he _ => ?_) fun path bytes _ hRead => hSpec.read_kept hFresh hRead
    rw [hSpec.ranges]
    exact List.mem_append_left _ he
  · intro hOk pe hpe
    have hDone := (hSpec.ok_iff.mp hOk).resolve_left (List.ne_nil_of_mem hpe)
    refine ⟨call.range, ?_, call.patchId, call.sorted, rfl, hSpec.published hDone, ?_⟩
    · rw [hSpec.ranges, if_pos ⟨rfl, hDone⟩]
      exact List.mem_append_right _ List.mem_cons_self
    · exact (List.mem_insertionSort _).mpr hpe

theorem CacheTrue.append (h : layer.CacheTrue codec next) (write : PatchWrite) (written : UInt16)
    (entries : List PatchEntry) :
    (layer.append codec ⟨write, written, entries, next⟩).2.CacheTrue codec (next + 1) := by
  have hSpec := append_spec codec layer ⟨write, written, entries, next⟩
  intro path content patchId hCached hFile
  rw [hSpec.content] at hCached
  obtain ⟨hBelow, hTrue⟩ := h path content patchId hCached hFile
  refine ⟨Nat.lt_succ_of_lt hBelow, fun bytes hRead => hTrue bytes ?_⟩
  rw [← hRead]
  unfold PatchTree.read
  by_cases hCf : path.cf = written
  · obtain ⟨data, hDir, -⟩ := hSpec.dir
    dsimp only at hDir
    rw [hCf, hDir, hFile]
    exact (NamedDir.lookup_afterAll_other _ (Nat.ne_of_lt hBelow)).symm
  · rw [hSpec.others path.cf hCf]

/-- What the loop over patch files leaves of the layer, and that it misses nothing of the
patches that are there. -/
structure Collected {β : Type} (codec : PatchCodec) (taken : List PatchEntry → List β) (layer : FileLayer)
    (next : Nat) (paths : List PatchPath) (result : Except PatchError (List β)) (after : FileLayer) :
    Prop where
  files : after.files = layer.files
  cache : after.CacheTrue codec next
  index : ∀ cf, ∀ e ∈ layer.ranges cf, (layer.files.read e.path).isSome → e ∈ after.ranges cf
  indexed : ∀ cf, after.ranges cf ⊆ layer.ranges cf
  found : ∀ all, result = .ok all → ∀ path ∈ paths, ∀ patchId content, path.file = .final patchId →
    layer.files.Holds codec path content → ∀ x ∈ taken content, x ∈ all

/-- One file: the content that is there, or an error and no content. -/
theorem loadPatch_true (hCache : layer.CacheTrue codec next) (hBelow : layer.files.IdsBelow next)
    (path : PatchPath) :
    (layer.loadPatch codec path).2.files = layer.files ∧
      (layer.loadPatch codec path).2.index = layer.index ∧
      (layer.loadPatch codec path).2.CacheTrue codec next ∧
      ∀ patchId content, path.file = .final patchId → layer.files.Holds codec path content →
        (layer.loadPatch codec path).1 = .ok content := by
  unfold loadPatch
  split
  · next hit hHit =>
    refine ⟨rfl, rfl, hCache, fun patchId content hFile hHolds => ?_⟩
    obtain ⟨bytes, hRead, hParse⟩ := hHolds
    have hTrue := (hCache path hit patchId hHit hFile).2 bytes hRead
    show Except.ok hit = Except.ok content
    rw [← Except.ok.inj (hTrue.symm.trans hParse)]
  · split
    · next hNone =>
      refine ⟨rfl, rfl, hCache, fun patchId content _ hHolds => ?_⟩
      obtain ⟨bytes, hRead, -⟩ := hHolds
      rw [hNone] at hRead
      cases hRead
    · next bytes hRead =>
      split
      · next e hBad =>
        refine ⟨rfl, rfl, hCache, fun patchId content _ hHolds => ?_⟩
        obtain ⟨bytes', hRead', hParse⟩ := hHolds
        obtain rfl := Option.some.inj (hRead.symm.trans hRead')
        rw [hBad] at hParse
        cases hParse
      · next entries hParse =>
        refine ⟨rfl, rfl, fun other content patchId hCached hFile => ?_, fun patchId content _ hHolds => ?_⟩
        · by_cases hPath : other = path
          · subst hPath
            rw [AList.lookup_insert] at hCached
            obtain rfl := Option.some.inj hCached
            refine ⟨hBelow other.cf patchId ?_, fun bytes' hRead' => ?_⟩
            · rw [← hFile]
              exact FinMap.mem_iff_lookup.mpr ⟨bytes, hRead⟩
            · obtain rfl := Option.some.inj (hRead.symm.trans hRead')
              exact hParse
          · rw [AList.lookup_insert_ne hPath] at hCached
            exact hCache other content patchId hCached hFile
        · obtain ⟨bytes', hRead', hParse'⟩ := hHolds
          obtain rfl := Option.some.inj (hRead.symm.trans hRead')
          show Except.ok entries = Except.ok content
          rw [← Except.ok.inj (hParse.symm.trans hParse')]

theorem loadPatch_notFound {path : PatchPath} {loaded : FileLayer}
    (h : layer.loadPatch codec path = (.error (.io .notFound), loaded)) : layer.files.read path = none := by
  unfold loadPatch at h
  split at h
  · cases h
  · split at h
    · assumption
    · split at h
      · cases h
      · cases h

/-- A vanished file leaves index and cache. -/
theorem CacheTrue.evict (h : layer.CacheTrue codec next) (path : PatchPath) :
    ((layer.removeFromIndex path).evictPatch path).CacheTrue codec next := by
  intro other content patchId hCached hFile
  by_cases hPath : other = path
  · subst hPath
    rw [evictPatch, AList.lookup_erase] at hCached
    cases hCached
  · rw [evictPatch, AList.lookup_erase_ne hPath] at hCached
    exact h other content patchId hCached hFile

theorem ranges_removeFromIndex (layer : FileLayer) (path : PatchPath) (cf : UInt16) :
    (layer.removeFromIndex path).ranges cf = (layer.ranges cf).filter (·.path ≠ path) := by
  rw [ranges, removeFromIndex, FinMap.lookup_mapValues, ranges]
  cases AList.lookup cf layer.index with
  | none => rfl
  | some entries => rfl

theorem collect_true {β : Type} (taken : List PatchEntry → List β) (hCache : layer.CacheTrue codec next)
    (hBelow : layer.files.IdsBelow next) (paths : List PatchPath) :
    Collected codec taken layer next paths (layer.collect codec taken paths).1
      (layer.collect codec taken paths).2 := by
  induction paths generalizing layer with
  | nil =>
      exact ⟨rfl, hCache, fun _ _ he _ => he, fun _ => List.Subset.refl _,
        fun _ _ path hPath => absurd hPath List.not_mem_nil⟩
  | cons path rest ih =>
      obtain ⟨hFiles, hIndex, hCacheAfter, hFound⟩ := loadPatch_true hCache hBelow path
      rw [collect]
      generalize hLoad : layer.loadPatch codec path = outcome at hFiles hIndex hCacheAfter hFound ⊢
      obtain ⟨result, loaded⟩ := outcome
      dsimp only at hFiles hIndex hCacheAfter hFound
      have hBelowAfter : loaded.files.IdsBelow next := hFiles ▸ hBelow
      have hRanges (cf : UInt16) : loaded.ranges cf = layer.ranges cf := by rw [ranges, hIndex, ranges]
      have hStop (e : PatchError) : Collected codec taken layer next (path :: rest) (.error e) loaded := by
        refine ⟨hFiles, hCacheAfter, fun cf e he _ => ?_, fun cf => ?_, fun _ hAll => by cases hAll⟩
        · rw [hRanges]
          exact he
        · rw [hRanges]
          exact List.Subset.refl _
      cases result with
      | ok entries =>
          have hRest := ih hCacheAfter hBelowAfter
          dsimp only
          generalize loaded.collect codec taken rest = outcome at hRest ⊢
          obtain ⟨result, after⟩ := outcome
          have hIndexAfter (cf : UInt16) (e : RangeIndexEntry) (he : e ∈ layer.ranges cf)
              (hThere : (layer.files.read e.path).isSome) : e ∈ after.ranges cf :=
            hRest.index cf e ((hRanges cf).symm ▸ he) (hFiles.symm ▸ hThere)
          have hIndexed (cf : UInt16) : after.ranges cf ⊆ layer.ranges cf := hRanges cf ▸ hRest.indexed cf
          cases result with
          | error e =>
              exact ⟨hRest.files.trans hFiles, hRest.cache, hIndexAfter, hIndexed,
                fun _ hAll => by cases hAll⟩
          | ok more =>
              refine ⟨hRest.files.trans hFiles, hRest.cache, hIndexAfter, hIndexed, ?_⟩
              intro all hAll other hOther patchId content hFile hHolds x hx
              obtain rfl := Except.ok.inj hAll
              rcases List.mem_cons.mp hOther with rfl | hLater
              · obtain rfl := Except.ok.inj (hFound patchId content hFile hHolds)
                exact List.mem_append_left _ hx
              · exact List.mem_append_right _
                  (hRest.found more rfl other hLater patchId content hFile (hFiles.symm ▸ hHolds) x hx)
      | error e =>
          -- only for a file that is not there the loop goes on
          cases e with
          | format cause => exact hStop _
          | io kind =>
              cases kind with
              | notFound =>
                  have hGone := loadPatch_notFound hLoad
                  have hRest := ih (hCacheAfter.evict path) hBelowAfter
                  refine ⟨hRest.files.trans hFiles, hRest.cache, fun cf e he hThere => ?_,
                    fun cf e he => ?_, ?_⟩
                  · apply hRest.index cf e _ (hFiles.symm ▸ hThere)
                    show e ∈ (loaded.removeFromIndex path).ranges cf
                    rw [ranges_removeFromIndex, hRanges, List.mem_filter, decide_eq_true_eq]
                    refine ⟨he, fun hPath => ?_⟩
                    rw [hPath, hGone] at hThere
                    cases hThere
                  · have hKept : e ∈ (loaded.removeFromIndex path).ranges cf := hRest.indexed cf he
                    rw [ranges_removeFromIndex, hRanges] at hKept
                    exact List.mem_of_mem_filter hKept
                  · intro all hAll other hOther patchId content hFile hHolds x hx
                    rcases List.mem_cons.mp hOther with rfl | hLater
                    · obtain ⟨bytes, hRead, -⟩ := hHolds
                      rw [hGone] at hRead
                      cases hRead
                    · exact hRest.found all hAll other hLater patchId content hFile
                        (hFiles.symm ▸ hHolds) x hx
              | _ => exact hStop _

/-- A removal leaves the other column families alone. -/
theorem dropCf_others (layer : FileLayer) (removal : Removal) {dropped cf : UInt16} (hCf : cf ≠ dropped) :
    (layer.dropCf removal dropped).2.files.dir cf = layer.files.dir cf ∧
      (layer.dropCf removal dropped).2.ranges cf = layer.ranges cf := by
  have hErase : PatchTree.dir (AList.erase dropped layer.files) cf = layer.files.dir cf := by
    rw [PatchTree.dir_erase, if_neg hCf]
  have hRanges : (AList.lookup cf (AList.erase dropped layer.index)).getD [] = layer.ranges cf := by
    rw [AList.lookup_erase_ne hCf, ranges]
  unfold dropCf
  split
  · exact ⟨rfl, hRanges⟩
  · split
    · exact ⟨hErase, hRanges⟩
    · refine ⟨?_, rfl⟩
      dsimp only
      rw [PatchTree.dir_insert, if_neg hCf]
    · exact ⟨hErase, rfl⟩

theorem Publishes.dropCf (h : layer.Publishes codec cf pe) (removal : Removal) {dropped : UInt16}
    (hCf : cf ≠ dropped) : (layer.dropCf removal dropped).2.Publishes codec cf pe := by
  obtain ⟨hDir, hRanges⟩ := layer.dropCf_others removal hCf
  refine h.keep (fun e he _ => hRanges ▸ he) fun path bytes hPath hRead => ?_
  rw [PatchTree.read, hPath, hDir]
  rw [PatchTree.read, hPath] at hRead
  exact hRead

theorem CacheTrue.dropCf (h : layer.CacheTrue codec next) (removal : Removal) (dropped : UInt16) :
    (layer.dropCf removal dropped).2.CacheTrue codec next := by
  have hContent : ∀ path content,
      AList.lookup path (layer.dropCf removal dropped).2.content = some content →
        AList.lookup path layer.content = some content := by
    intro path content hCached
    unfold FileLayer.dropCf at hCached
    split at hCached
    · exact (FinMap.mem_lookup_retain.mp hCached).1
    · split at hCached
      · exact (FinMap.mem_lookup_retain.mp hCached).1
      · exact hCached
      · exact hCached
  intro path content patchId hCached hFile
  obtain ⟨hBelow, hTrue⟩ := h path content patchId (hContent path content hCached) hFile
  exact ⟨hBelow, fun bytes hRead => hTrue bytes (dropCf_lookup removal dropped hRead)⟩

end
end FileLayer

namespace FileStore
variable {codec : PatchCodec} {s s' : FileStore}

/-- A session whose patches are numbered and whose L2 cache can be trusted. -/
structure Tracked (codec : PatchCodec) (s : FileStore) : Prop where
  numbered : s.Numbered codec
  cache2 : s.l2.CacheTrue codec s.nextPatchId

theorem Tracked.readL2 (h : s.Tracked codec) (cf : UInt16) :
    FileLayer.Collected codec (List.map (PatchEntry.toZ1Entry cf)) s.l2 s.nextPatchId
      ((s.l2.ranges cf).map RangeIndexEntry.path) (s.l2.allVersions codec cf).1
      (s.l2.allVersions codec cf).2 :=
  FileLayer.collect_true _ h.cache2 h.numbered.below2 _

theorem Tracked.move (h : s.Tracked codec) (hMove : Move codec s s') : s'.Tracked codec := by
  have hNumbered := h.numbered.move hMove
  cases hMove with
  | memory l1 recentFlush => exact ⟨hNumbered, h.cache2⟩
  | appendL2 write cf entries => exact ⟨hNumbered, h.cache2.append write cf entries⟩
  | appendL3 write cf entries =>
      refine ⟨hNumbered, fun path content patchId hCached hFile => ?_⟩
      obtain ⟨hBelow, hTrue⟩ := h.cache2 path content patchId hCached hFile
      exact ⟨Nat.lt_succ_of_lt hBelow, hTrue⟩
  | readL2 cf => exact ⟨hNumbered, (h.readL2 cf).cache⟩
  | dropL2 removal cf => exact ⟨hNumbered, h.cache2.dropCf removal cf⟩

/-- Some version that may stand in for this one is in a patch of L2 or L3. -/
def Lasts (codec : PatchCodec) (bound : TxnId) (s : FileStore) (cf : UInt16) (pe : PatchEntry) : Prop :=
  ∃ kept, pe.StaysFor bound kept ∧ (s.l2.Publishes codec cf kept ∨ s.l3.Publishes codec cf kept)

variable {bound : TxnId} {cf : UInt16} {pe : PatchEntry}

/-- What both layers keep lasts. -/
theorem Lasts.keep (h : s.Lasts codec bound cf pe)
    (h2 : ∀ kept, s.l2.Publishes codec cf kept → s'.l2.Publishes codec cf kept)
    (h3 : ∀ kept, s.l3.Publishes codec cf kept → s'.l3.Publishes codec cf kept) :
    s'.Lasts codec bound cf pe := by
  obtain ⟨kept, hStays, hThere⟩ := h
  exact ⟨kept, hStays, hThere.imp (h2 kept) (h3 kept)⟩

theorem Lasts.appendL2 (h : s.Lasts codec bound cf pe) (hNumbered : s.Numbered codec)
    (write : PatchWrite) (written : UInt16) (entries : List PatchEntry) :
    { (s.takeId .l2 written).2 with
        l2 := (s.l2.append codec ⟨write, written, entries, s.nextPatchId⟩).2 }.Lasts codec bound cf pe :=
  h.keep ((FileLayer.append_publishes ⟨write, written, entries, s.nextPatchId⟩
    (hNumbered.fresh2 written)).1 cf) fun _ => id

theorem Lasts.appendL3 (h : s.Lasts codec bound cf pe) (hNumbered : s.Numbered codec)
    (write : PatchWrite) (written : UInt16) (entries : List PatchEntry) :
    { (s.takeId .l3 written).2 with
        l3 := (s.l3.append codec ⟨write, written, entries, s.nextPatchId⟩).2 }.Lasts codec bound cf pe :=
  h.keep (fun _ => id) ((FileLayer.append_publishes ⟨write, written, entries, s.nextPatchId⟩
    (hNumbered.fresh3 written)).1 cf)

theorem Lasts.readL2 (h : s.Lasts codec bound cf pe) (hTracked : s.Tracked codec) (read : UInt16) :
    { s with l2 := (s.l2.allVersions codec read).2 }.Lasts codec bound cf pe := by
  have hCollected := hTracked.readL2 read
  refine h.keep (fun kept hHere => hHere.keep (hCollected.index cf) fun path bytes _ hRead => ?_)
    fun _ => id
  rw [hCollected.files]
  exact hRead

theorem Lasts.appendGroups (h : s.Lasts codec bound cf pe) (hNumbered : s.Numbered codec)
    (writes : Nat → PatchWrite) (groups : List (UInt16 × List PatchEntry)) :
    (s.appendGroups codec writes groups).2.Lasts codec bound cf pe := by
  induction groups generalizing s with
  | nil => exact h
  | cons group rest ih =>
      obtain ⟨written, entries⟩ := group
      have hAfter := h.appendL2 hNumbered (writes s.nextPatchId) written entries
      have hNext := hNumbered.move (.appendL2 s (writes s.nextPatchId) written entries)
      rw [FileStore.appendGroups]
      dsimp only [takeId, FileLayer.append] at hAfter hNext ⊢
      split
      · next halt l2 hEq =>
        rw [hEq] at hAfter
        exact hAfter
      · next l2 hEq =>
        rw [hEq] at hAfter hNext
        exact ih hAfter hNext

theorem Lasts.flushL1ToL2 (h : s.Lasts codec bound cf pe) (hNumbered : s.Numbered codec)
    (writes : Nat → PatchWrite) : (s.flushL1ToL2 codec writes).2.Lasts codec bound cf pe := by
  have hStage : s.stage.Lasts codec bound cf pe := h.keep (fun _ => id) fun _ => id
  have hAfter := hStage.appendGroups (hNumbered.move (.memory s _ _)) writes
    (cfGroups s.stage.recentFlush.values)
  rw [FileStore.flushL1ToL2]
  split
  · next halt after hEq =>
    rw [hEq] at hAfter
    exact hAfter
  · next after hEq =>
    rw [hEq] at hAfter
    exact hAfter.keep (fun _ => id) fun _ => id

/-- The removal of a column family from L2 when what it holds of it is in L3. -/
theorem Lasts.dropL2 (h : s.Lasts codec bound cf pe) (removals : UInt16 → Removal) (counts : Nat × Nat)
    (dropped : UInt16)
    (hMoved : cf = dropped → ∀ kept, s.l2.Publishes codec cf kept →
      ∃ last, kept.StaysFor bound last ∧ s.l3.Publishes codec cf last) :
    (s.dropL2 removals counts dropped).2.Lasts codec bound cf pe := by
  have hDropped : { s with l2 := (s.l2.dropCf (removals dropped) dropped).2 }.Lasts codec bound cf pe := by
    obtain ⟨kept, hStays, hL2 | hL3⟩ := h
    · by_cases hCf : cf = dropped
      · obtain ⟨last, hLast, hThere⟩ := hMoved hCf kept hL2
        exact ⟨last, hStays.trans hLast, Or.inr hThere⟩
      · exact ⟨kept, hStays, Or.inl (hL2.dropCf (removals dropped) hCf)⟩
    · exact ⟨kept, hStays, Or.inr hL3⟩
  rw [FileStore.dropL2]
  split
  · next halt l2 hEq =>
    rw [hEq] at hDropped
    exact hDropped
  · next l2 hEq =>
    rw [hEq] at hDropped
    exact hDropped

theorem Lasts.compactCf (h : s.Lasts codec bound cf pe) (hTracked : s.Tracked codec)
    (writes : Nat → PatchWrite) (removals : UInt16 → Removal) {watermark : TxnId}
    (hBound : watermark ≤ bound) (compacted : UInt16) :
    (s.compactCf codec writes removals watermark compacted).2.Lasts codec bound cf pe := by
  have hCollected := hTracked.readL2 compacted
  have hRead := h.readL2 hTracked compacted
  have hTrackedRead := hTracked.move (.readL2 s compacted)
  rw [FileStore.compactCf]
  generalize s.l2.allVersions codec compacted = outcome at hCollected hRead hTrackedRead ⊢
  obtain ⟨result, l2⟩ := outcome
  dsimp only at hCollected hRead hTrackedRead
  cases result with
  | error e => exact hRead
  | ok versions =>
      -- whatever L2 has of the column family has been read
      have hMerged (kept : PatchEntry) (hKept : l2.Publishes codec compacted kept) :
          kept ∈ versions.map PatchEntry.ofZ1Entry := by
        obtain ⟨e, he, patchId, content, hPath, hHolds, hIn⟩ := hKept
        rw [hCollected.files] at hHolds
        have hVersion := hCollected.found versions rfl e.path
          (List.mem_map_of_mem (hCollected.indexed compacted he)) patchId content (by rw [hPath]) hHolds
          (kept.toZ1Entry compacted) (List.mem_map_of_mem hIn)
        exact List.mem_map.mpr ⟨_, hVersion, rfl⟩
      dsimp only
      split
      · exact hRead
      · split
        · next hNone =>
          apply hRead.dropL2
          rintro rfl kept hKept
          obtain ⟨last, hLast, -⟩ := exists_gcEntries_staysFor hBound (hMerged kept hKept)
          rw [hNone] at hLast
          cases hLast
        · have hFresh := hTrackedRead.numbered.fresh3 compacted
          have hAppend := @FileLayer.append_publishes codec s.l3
            ⟨writes s.nextPatchId, compacted,
              (gcEntries (versions.map PatchEntry.ofZ1Entry) watermark).1, s.nextPatchId⟩ hFresh
          have hWritten := hRead.appendL3 hTrackedRead.numbered (writes s.nextPatchId) compacted
            (gcEntries (versions.map PatchEntry.ofZ1Entry) watermark).1
          dsimp only [takeId, FileLayer.append] at hAppend hWritten ⊢
          split
          · next halt l3 hEq =>
            rw [hEq] at hWritten
            exact hWritten
          · next l3 hEq =>
            rw [hEq] at hWritten hAppend
            apply hWritten.dropL2
            rintro rfl kept hKept
            obtain ⟨last, hLast, hStays⟩ := exists_gcEntries_staysFor hBound (hMerged kept hKept)
            exact ⟨last, hStays, hAppend.2 rfl last hLast⟩

theorem Lasts.compactCfs (h : s.Lasts codec bound cf pe) (hTracked : s.Tracked codec)
    (writes : Nat → PatchWrite) (removals : UInt16 → Removal) {watermark : TxnId}
    (hBound : watermark ≤ bound) (cfs : List UInt16) :
    (s.compactCfs codec writes removals watermark cfs).2.Lasts codec bound cf pe := by
  induction cfs generalizing s with
  | nil => exact h
  | cons compacted rest ih =>
      have hHere := h.compactCf hTracked writes removals hBound compacted
      have hNext := (compactCf_moves writes removals watermark s compacted).keep
        (fun _ _ hBefore hMove => Tracked.move hBefore hMove) hTracked
      rw [FileStore.compactCfs]
      split
      · next hEq =>
        rw [hEq] at hHere
        exact hHere
      · next hEq =>
        rw [hEq] at hHere hNext
        have hRest := ih hHere hNext
        split
        · next hMore =>
          rw [hMore] at hRest
          exact hRest
        · next hMore =>
          rw [hMore] at hRest
          exact hRest

/-- A group that was written is in L2. -/
theorem appendGroups_lasts (hNumbered : s.Numbered codec) (writes : Nat → PatchWrite)
    {groups : List (UInt16 × List PatchEntry)} (hOk : (s.appendGroups codec writes groups).1 = .ok ())
    {group : UInt16 × List PatchEntry} (hGroup : group ∈ groups) (hEntry : pe ∈ group.2) :
    (s.appendGroups codec writes groups).2.Lasts codec bound group.1 pe := by
  induction groups generalizing s with
  | nil => cases hGroup
  | cons first rest ih =>
      obtain ⟨written, entries⟩ := first
      have hAppend := @FileLayer.append_publishes codec s.l2 ⟨writes s.nextPatchId, written, entries,
        s.nextPatchId⟩ (hNumbered.fresh2 written)
      have hNext := hNumbered.move (.appendL2 s (writes s.nextPatchId) written entries)
      rw [FileStore.appendGroups] at hOk ⊢
      dsimp only [takeId, FileLayer.append] at hAppend hNext hOk ⊢
      generalize s.l2.appendPatch codec (writes s.nextPatchId) written entries s.nextPatchId = outcome
        at hAppend hNext hOk ⊢
      obtain ⟨result, l2⟩ := outcome
      cases result with
      | error halt => cases hOk
      | ok _ =>
          rcases List.mem_cons.mp hGroup with rfl | hLater
          · apply Lasts.appendGroups _ hNext
            exact ⟨pe, Or.inl rfl, Or.inl (hAppend.2 rfl pe hEntry)⟩
          · exact ih hNext hOk hLater

/-- A flush that returns has put everything that was in memory into patches. -/
theorem flushL1ToL2_lasts (hNumbered : s.Numbered codec) (writes : Nat → PatchWrite) {groups : Nat}
    (hOk : (s.flushL1ToL2 codec writes).1 = .ok groups) {e : Z1Entry}
    (he : e ∈ s.stage.recentFlush.values) :
    (s.flushL1ToL2 codec writes).2.Lasts codec bound e.key.cf (PatchEntry.ofZ1Entry e) := by
  have hGroup : (e.key.cf, (s.stage.recentFlush.values.filter (·.key.cf = e.key.cf)).map
      PatchEntry.ofZ1Entry) ∈ cfGroups s.stage.recentFlush.values := by
    refine List.mem_map.mpr ⟨e.key.cf, ?_, rfl⟩
    rw [List.mem_insertionSort, List.mem_dedup]
    exact List.mem_map_of_mem he
  have hEntry : PatchEntry.ofZ1Entry e ∈ (s.stage.recentFlush.values.filter
      (·.key.cf = e.key.cf)).map PatchEntry.ofZ1Entry :=
    List.mem_map_of_mem (List.mem_filter.mpr ⟨he, decide_eq_true rfl⟩)
  have hStage := hNumbered.move (.memory s s.stage.l1 s.stage.recentFlush)
  have hLasts := @appendGroups_lasts codec s.stage bound (PatchEntry.ofZ1Entry e) hStage writes
    (cfGroups s.stage.recentFlush.values)
  rw [FileStore.flushL1ToL2] at hOk ⊢
  generalize s.stage.appendGroups codec writes (cfGroups s.stage.recentFlush.values) = outcome
    at hLasts hOk ⊢
  obtain ⟨result, after⟩ := outcome
  cases result with
  | error halt => cases hOk
  | ok _ => exact (hLasts rfl hGroup hEntry).keep (fun _ => id) fun _ => id

end FileStore

/-- Compactions do not go above the bound. -/
def StoreCall.Bounded (bound : TxnId) : StoreCall → Prop
  | .compactL2ToL3 _ _ minActiveBeginTs => minActiveBeginTs ≤ bound
  | _ => True

instance (bound : TxnId) : DecidablePred (StoreCall.Bounded bound)
  | .fill _ => isTrue trivial
  | .flushL1ToL2 _ => isTrue trivial
  | .compactL2ToL3 _ _ minActiveBeginTs => inferInstanceAs (Decidable (minActiveBeginTs ≤ bound))
  | .kill => isTrue trivial
  | .openStore _ _ => isTrue trivial

namespace StoreState
variable {codec : PatchCodec} {state : StoreState} {bound : TxnId} {cf : UInt16} {pe : PatchEntry}

/-- The patches of a session are ordered, and its L2 cache can be trusted. -/
structure Tracked (codec : PatchCodec) (state : StoreState) : Prop where
  ordered : state.Ordered codec
  cache2 : ∀ s, state = .running s → s.l2.CacheTrue codec s.nextPatchId

/-- Some version that may stand in for this one is in a patch file, and in a running session
the index has it. -/
structure Lasts (codec : PatchCodec) (bound : TxnId) (state : StoreState) (cf : UInt16)
    (pe : PatchEntry) : Prop where
  files : ∃ kept, pe.StaysFor bound kept ∧ ∃ layer, (state.files layer).HasPatch codec cf kept
  session : ∀ s, state = .running s → s.Lasts codec bound cf pe

theorem Tracked.session {s : FileStore} (h : (running s).Tracked codec) : s.Tracked codec :=
  ⟨h.ordered.session.numbered, h.cache2 s rfl⟩

theorem Tracked.ofSession {s : FileStore} (h : s.Ordered codec) (hTracked : s.Tracked codec) :
    (running s).Tracked codec := by
  refine ⟨h.inSession, fun s' hSame => ?_⟩
  obtain rfl := running.inj hSame
  exact hTracked.cache2

theorem Tracked.stop (h : state.Tracked codec) : state.stop.Tracked codec := by
  refine ⟨h.ordered.stop, fun s hRunning => ?_⟩
  cases hRunning

theorem Tracked.moves {s s' : FileStore} (h : (running s).Tracked codec)
    (hMoves : FileStore.Moves codec s s') : (running s').Tracked codec :=
  Tracked.ofSession
    (hMoves.keep (fun _ _ hHere hMove => FileStore.Ordered.move hHere hMove) h.ordered.session)
    (hMoves.keep (fun _ _ hHere hMove => FileStore.Tracked.move hHere hMove) h.session)

theorem Tracked.ofResult {α : Type} {s : FileStore} (h : (running s).Tracked codec)
    (result : Except Halt α) : (StoreState.ofResult result s).Tracked codec := by
  unfold StoreState.ofResult
  split
  · exact h.stop
  · exact h

theorem Tracked.openStore (h : state.Tracked codec) (listing : ReadDir) (l1 : MemStore) :
    (running (FileStore.openStore codec listing l1 (state.files .l2) (state.files .l3)
      state.targets)).Tracked codec := by
  have hOrdered := h.ordered.openStore listing l1
  refine Tracked.ofSession hOrdered ⟨hOrdered.numbered, fun path content patchId hCached => ?_⟩
  cases hCached

theorem Tracked.step (h : state.Tracked codec) (call : StoreCall) :
    (state.step codec call).Tracked codec := by
  cases call with
  | kill => cases state <;> exact h.stop
  | openStore listing l1 => cases state <;> exact h.openStore listing l1
  | fill l1 =>
      cases state with
      | stopped l2 l3 targets => exact h
      | running s => exact h.moves (.single (.memory s l1 s.recentFlush))
  | flushL1ToL2 writes =>
      cases state with
      | stopped l2 l3 targets => exact h
      | running s => exact (h.moves (FileStore.flushL1ToL2_moves writes s)).ofResult _
  | compactL2ToL3 writes removals minActiveBeginTs =>
      cases state with
      | stopped l2 l3 targets => exact h
      | running s =>
          exact (h.moves (FileStore.compactCfs_moves writes removals minActiveBeginTs s.l2.listCfs
            s)).ofResult _

theorem tracked_after (codec : PatchCodec) (calls : List StoreCall) :
    (StoreState.after codec calls).Tracked codec := by
  have hStart : (stopped ∅ ∅ []).Tracked codec := by
    refine ⟨ordered_after codec [], fun s hRunning => ?_⟩
    cases hRunning
  unfold after
  generalize stopped ∅ ∅ [] = start at hStart ⊢
  induction calls generalizing start with
  | nil => exact hStart
  | cons call rest ih => exact ih _ (hStart.step call)

theorem Lasts.ofSession {s : FileStore} (hSession : s.Lasts codec bound cf pe) :
    (running s).Lasts codec bound cf pe := by
  refine ⟨?_, fun s' hSame => ?_⟩
  · obtain ⟨kept, hStays, hL2 | hL3⟩ := hSession
    · exact ⟨kept, hStays, .l2, hL2.hasPatch⟩
    · exact ⟨kept, hStays, .l3, hL3.hasPatch⟩
  · obtain rfl := running.inj hSame
    exact hSession

theorem Lasts.stop (h : state.Lasts codec bound cf pe) : state.stop.Lasts codec bound cf pe := by
  refine ⟨?_, fun s hRunning => ?_⟩
  · obtain ⟨kept, hStays, layer, hThere⟩ := h.files
    refine ⟨kept, hStays, layer, ?_⟩
    cases layer with
    | l2 => exact hThere
    | l3 => exact hThere
  · cases hRunning

theorem Lasts.ofResult {α : Type} {s : FileStore} (hSession : s.Lasts codec bound cf pe)
    (result : Except Halt α) : (StoreState.ofResult result s).Lasts codec bound cf pe := by
  unfold StoreState.ofResult
  split
  · exact (Lasts.ofSession hSession).stop
  · exact Lasts.ofSession hSession

theorem Lasts.openStore (h : state.Lasts codec bound cf pe) (listing : ReadDir) (l1 : MemStore) :
    (FileStore.openStore codec listing l1 (state.files .l2) (state.files .l3)
      state.targets).Lasts codec bound cf pe := by
  obtain ⟨kept, hStays, layer, hThere⟩ := h.files
  refine ⟨kept, hStays, ?_⟩
  cases layer with
  | l2 => exact Or.inl (FileLayer.publishes_new hThere listing)
  | l3 => exact Or.inr (FileLayer.publishes_new hThere listing)

theorem Lasts.step (h : state.Lasts codec bound cf pe) (hTracked : state.Tracked codec)
    {call : StoreCall} (hBounded : call.Bounded bound) : (state.step codec call).Lasts codec bound cf pe := by
  cases call with
  | kill => cases state <;> exact h.stop
  | openStore listing l1 => cases state <;> exact Lasts.ofSession (h.openStore listing l1)
  | fill l1 =>
      cases state with
      | stopped l2 l3 targets => exact h
      | running s => exact Lasts.ofSession ((h.session s rfl).keep (fun _ => id) fun _ => id)
  | flushL1ToL2 writes =>
      cases state with
      | stopped l2 l3 targets => exact h
      | running s =>
          exact Lasts.ofResult ((h.session s rfl).flushL1ToL2 hTracked.session.numbered writes) _
  | compactL2ToL3 writes removals minActiveBeginTs =>
      cases state with
      | stopped l2 l3 targets => exact h
      | running s =>
          exact Lasts.ofResult
            ((h.session s rfl).compactCfs hTracked.session writes removals hBounded s.l2.listCfs) _

theorem Lasts.steps (h : state.Lasts codec bound cf pe) (hTracked : state.Tracked codec)
    {calls : List StoreCall} (hBounded : ∀ call ∈ calls, call.Bounded bound) :
    (calls.foldl (StoreState.step codec) state).Lasts codec bound cf pe := by
  induction calls generalizing state with
  | nil => exact h
  | cons call rest ih =>
      exact ih (h.step hTracked (hBounded call List.mem_cons_self)) (hTracked.step call)
        fun later hLater => hBounded later (List.mem_cons_of_mem _ hLater)

end StoreState

/-- A version that a layer's file holds is among those that a layer opened on the files
returns. -/
theorem FileLayer.getVersions_new {codec : PatchCodec} {files : PatchTree} (hSorted : files.Sorted codec)
    (listing : ReadDir) (cf : UInt16) (key : Bytes) :
    ∃ versions after, (FileLayer.new codec listing files).getVersions codec cf key = (.ok versions, after) ∧
      ∀ pe, files.HasPatch codec cf pe → pe.key = key → pe.toZ1Entry cf ∈ versions := by
  have hStores : files.Stores codec fun cf => ((files.dir cf).readable codec).flatten :=
    ⟨fun _ => .refl _, hSorted⟩
  obtain ⟨versions, after, hRead, hPerm⟩ := (serves_new hStores listing).readsBack.getVersions cf key
  refine ⟨versions, after, hRead, fun pe hThere hKey => ?_⟩
  obtain ⟨patchId, content, ⟨bytes, hFile, hParse⟩, hIn⟩ := hThere
  rw [hPerm.mem_iff]
  refine List.mem_map_of_mem (List.mem_filter.mpr ⟨List.mem_flatten.mpr ⟨content, ?_, hIn⟩, ?_⟩)
  · exact PatchDir.mem_readable.mpr ⟨.final patchId, bytes, hFile, hParse⟩
  · exact decide_eq_true hKey

/-- Everything that a flush took from memory is on disk for good once the flush has returned
`Ok`: after any later calls of this and other sessions (failed writes, removals that stop
halfway and crashes included) the layers opened on what is left return it, or a version of
its key that is no older and below the bound of all compactions since. -/
theorem flushed_versions_last (codec : PatchCodec) (calls : List StoreCall) {s : FileStore}
    (hRunning : StoreState.after codec calls = .running s) (writes : Nat → PatchWrite) {groups : Nat}
    (hFlush : (s.flushL1ToL2 codec writes).1 = .ok groups) (later : List StoreCall) (bound : TxnId)
    (hBounded : ∀ call ∈ later, call.Bounded bound) (listing : ReadDir) (l1 : MemStore) :
    let left := StoreState.after codec (calls ++ .flushL1ToL2 writes :: later)
    let opened := FileStore.openStore codec listing l1 (left.files .l2) (left.files .l3) left.targets
    ∀ e ∈ s.stage.recentFlush.values, ∃ kept frozen2 frozen3 l2 l3,
      (PatchEntry.ofZ1Entry e).StaysFor bound kept ∧
      opened.l2.getVersions codec e.key.cf e.key.key = (.ok frozen2, l2) ∧
      opened.l3.getVersions codec e.key.cf e.key.key = (.ok frozen3, l3) ∧
      kept.toZ1Entry e.key.cf ∈ frozen2 ++ frozen3 := by
  intro left opened e he
  have hTracked := StoreState.tracked_after codec calls
  rw [hRunning] at hTracked
  have hFlushed := @FileStore.flushL1ToL2_lasts codec s bound hTracked.session.numbered writes groups hFlush
    e he
  have hLeft : left.Lasts codec bound e.key.cf (PatchEntry.ofZ1Entry e) := by
    have hSteps : left = later.foldl (StoreState.step codec)
        ((StoreState.running s).step codec (.flushL1ToL2 writes)) := by
      show List.foldl _ _ _ = _
      rw [List.foldl_append, List.foldl_cons]
      have hHere : List.foldl (StoreState.step codec) (.stopped ∅ ∅ []) calls = .running s := hRunning
      rw [hHere]
    have hAfter : ((StoreState.running s).step codec (.flushL1ToL2 writes)).Lasts codec bound e.key.cf
        (PatchEntry.ofZ1Entry e) := StoreState.Lasts.ofResult hFlushed _
    rw [hSteps]
    exact hAfter.steps (hTracked.step _) hBounded
  have hOrdered := StoreState.ordered_after codec (calls ++ .flushL1ToL2 writes :: later)
  obtain ⟨kept, hStays, layer, hThere⟩ := hLeft.files
  have hKey : kept.key = e.key.key := by
    rcases hStays with rfl | ⟨hSame, -⟩
    · rfl
    · exact hSame
  obtain ⟨frozen2, l2, hRead2, hFound2⟩ :=
    FileLayer.getVersions_new (hOrdered.sorted .l2) listing e.key.cf e.key.key
  obtain ⟨frozen3, l3, hRead3, hFound3⟩ :=
    FileLayer.getVersions_new (hOrdered.sorted .l3) listing e.key.cf e.key.key
  refine ⟨kept, frozen2, frozen3, l2, l3, hStays, hRead2, hRead3, ?_⟩
  cases layer with
  | l2 => exact List.mem_append_left _ (hFound2 kept hThere hKey)
  | l3 => exact List.mem_append_right _ (hFound3 kept hThere hKey)

theorem flushed_versions_last_one :
    let l1 := (MemStore.new 1024).replayPut ⟨⟨0, [107]⟩, 1, some [1]⟩
    let writes : Nat → PatchWrite := fun _ => ⟨none, .each .completes⟩
    let left := StoreState.after Postcard.patchCodec
      [.openStore .listed l1, .flushL1ToL2 writes, .compactL2ToL3 writes (fun _ => .completes) 2, .kill]
    let opened := FileStore.openStore Postcard.patchCodec .listed (MemStore.new 1024) (left.files .l2)
      (left.files .l3) left.targets
    ∃ kept frozen2 frozen3 l2 l3, (⟨[107], some [1], 1⟩ : PatchEntry).StaysFor 2 kept ∧
      opened.l2.getVersions Postcard.patchCodec 0 [107] = (.ok frozen2, l2) ∧
      opened.l3.getVersions Postcard.patchCodec 0 [107] = (.ok frozen3, l3) ∧
      kept.toZ1Entry 0 ∈ frozen2 ++ frozen3 := by
  intro l1 writes left opened
  have hFlush : ((FileStore.openStore Postcard.patchCodec .listed l1 ∅ ∅ []).flushL1ToL2
      Postcard.patchCodec writes).1 = .ok 1 := by decide +kernel
  exact flushed_versions_last Postcard.patchCodec [.openStore .listed l1] rfl writes hFlush
    [.compactL2ToL3 writes (fun _ => .completes) 2, .kill] 2 (by simp [StoreCall.Bounded]) .listed
    (MemStore.new 1024) ⟨⟨0, [107]⟩, 1, some [1]⟩ (by decide +kernel)

end Z1Kv
