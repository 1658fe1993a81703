import Z1Kv.Library.Runs
import Z1Kv.Store.PatchWrites

/-! Runs of calls on a layer over files, with reopens of its root: what a later open finds
are the appended entries, as long as no write leaves a trace of its own. -/
namespace Z1Kv

/-- A call of `append_patch` with what the file system does to it. -/
structure AppendCall where
  write : PatchWrite
  cf : UInt16
  entries : List PatchEntry
  patchId : Nat

namespace AppendCall

def sorted (call : AppendCall) : List PatchEntry := call.entries.insertionSort PatchEntry.Le

/-- Length of the file. -/
def size (codec : PatchCodec) (call : AppendCall) : Nat :=
  DiskFormat.headerSize + (codec.encode (.sparse call.sorted)).length

/-- The attempts that the call makes: none for no entries, without the directory, or when
the payload is too large. -/
def attempts (codec : PatchCodec) (call : AppendCall) : List WriteAttempt :=
  if call.entries = [] ∨ call.write.createDir ≠ none ∨
      (codec.encode (.sparse call.sorted)).length > 2 ^ 32 - 1 then []
  else call.write.attempts.made

/-- The index entry of the patch. -/
def range (call : AppendCall) : RangeIndexEntry :=
  ⟨(keyBounds call.sorted).1, (keyBounds call.sorted).2, ⟨call.cf, .final call.patchId⟩⟩

/-- How many files with all entries of the patch the call leaves. -/
def copies (codec : PatchCodec) (call : AppendCall) : Nat :=
  (call.attempts codec).countP (·.LeavesWhole (call.size codec)) +
    if ∃ a ∈ call.attempts codec, a.Renames then 1 else 0

end AppendCall

/-- A call of `append_patch` as its caller sees it, and what it does to the layer. -/
def FileLayer.append (codec : PatchCodec) (layer : FileLayer) (call : AppendCall) :
    Except Halt Unit × FileLayer :=
  layer.appendPatch codec call.write call.cf call.entries call.patchId

namespace PatchTree

theorem dir_insert (files : PatchTree) (cf other : UInt16) (dir : PatchDir) :
    PatchTree.dir (AList.insert cf dir files) other = if other = cf then dir else files.dir other := by
  unfold PatchTree.dir
  split
  · next h => rw [h, AList.lookup_insert]; rfl
  · next h => rw [AList.lookup_insert_ne h]

theorem dir_createDir (files : PatchTree) (cf other : UInt16) :
    (files.createDir cf).dir other = files.dir other := by
  rw [createDir, dir_insert]
  split
  · next h => rw [h]
  · rfl

theorem dir_erase (files : PatchTree) (cf other : UInt16) :
    PatchTree.dir (AList.erase cf files) other = if other = cf then ∅ else files.dir other := by
  unfold PatchTree.dir
  split
  · next h => rw [h, AList.lookup_erase]; rfl
  · next h => rw [AList.lookup_erase_ne h]

end PatchTree

namespace FileLayer

/-- What a call of `append_patch` does. -/
structure Appended (codec : PatchCodec) (layer : FileLayer) (call : AppendCall)
    (result : Except Halt Unit) (after : FileLayer) : Prop where
  ok_iff : result = .ok () ↔ call.entries = [] ∨ .completes ∈ call.attempts codec
  content : after.content = layer.content
  ranges : ∀ cf, after.ranges cf = layer.ranges cf ++
    if cf = call.cf ∧ .completes ∈ call.attempts codec then [call.range] else []
  dir : ∃ data, after.files.dir call.cf = NamedDir.afterAll call.write.attempts.newUuid
      (layer.files.dir call.cf) call.patchId data (call.attempts codec) ∧
    (call.attempts codec ≠ [] →
      (Z1PatchFormatV4.format codec).toDiskBytes (.sparse call.sorted) = .ok data)
  others : ∀ cf, cf ≠ call.cf → after.files.dir cf = layer.files.dir cf

theorem append_spec (codec : PatchCodec) (layer : FileLayer) (call : AppendCall) :
    layer.Appended codec call (layer.append codec call).1 (layer.append codec call).2 := by
  have hNoAttempt {files : PatchTree} {result : Except Halt Unit} (hAttempts : call.attempts codec = [])
      (hResult : result = .ok () ↔ call.entries = [])
      (hFiles : ∀ cf, files.dir cf = layer.files.dir cf) :
      layer.Appended codec call result { layer with files } := by
    refine ⟨by simp [hAttempts, hResult], rfl, fun cf => ?_, ⟨[], ?_, fun h => absurd hAttempts h⟩,
      fun cf _ => hFiles cf⟩
    · simp [hAttempts, FileLayer.ranges]
    · rw [hAttempts]
      exact hFiles call.cf
  unfold append appendPatch
  split
  · next hEmpty =>
    exact hNoAttempt (by rw [AppendCall.attempts, if_pos (Or.inl hEmpty)]) (by simp [hEmpty])
      fun _ => rfl
  · next hEntries =>
    split
    · next interrupt hDir =>
      exact hNoAttempt (by rw [AppendCall.attempts, if_pos (by simp [hDir])]) (by simp [hEntries])
        fun _ => rfl
    · next hDir =>
      dsimp only
      split
      · next e hLong =>
        refine hNoAttempt ?_ (by simp [hEntries]) fun cf => layer.files.dir_createDir call.cf cf
        rw [AppendCall.attempts, if_pos]
        exact Or.inr (Or.inr (DiskFormat.toDiskBytes_error hLong))
      · next data hData =>
        have hFits : ¬ (codec.encode (.sparse call.sorted)).length > 2 ^ 32 - 1 :=
          DiskFormat.toDiskBytes_ok hData
        have hAttempts : call.attempts codec =
            call.write.attempts.made := by
          rw [AppendCall.attempts, if_neg]
          rintro (hNone | hNoDir | hLong)
          · exact hEntries hNone
          · exact hNoDir hDir
          · exact hFits hLong
        have hOk := @NamedDir.writeDurable_ok Nat _ ((layer.files.createDir call.cf).dir call.cf)
          call.patchId data call.write.attempts
        have hAfter := @NamedDir.writeDurable_dir Nat _ ((layer.files.createDir call.cf).dir call.cf)
          call.patchId data call.write.attempts
        rw [← hAttempts] at hOk hAfter
        rw [PatchTree.dir_createDir] at hAfter hOk
        have hOthers (dir : PatchDir) (cf : UInt16) (hCf : cf ≠ call.cf) :
            PatchTree.dir (AList.insert call.cf dir (layer.files.createDir call.cf)) cf =
              layer.files.dir cf := by
          rw [PatchTree.dir_insert, if_neg hCf, PatchTree.dir_createDir]
        rw [PatchTree.dir_createDir]
        split
        · next halt dir hWrite =>
          rw [hWrite] at hOk hAfter
          have hNot : .completes ∉ call.attempts codec := fun h => by cases hOk.mpr h
          refine ⟨by simp [hEntries, hNot], rfl, fun cf => ?_, ⟨data, ?_, fun _ => hData⟩, hOthers dir⟩
          · simp [hNot, FileLayer.ranges]
          · rw [← hAfter, PatchTree.dir_insert, if_pos rfl]
        · next dir hWrite =>
          rw [hWrite] at hOk hAfter
          have hDone : .completes ∈ call.attempts codec := hOk.mp rfl
          refine ⟨by simp [hDone], rfl, fun cf => ?_, ⟨data, ?_, fun _ => hData⟩, hOthers dir⟩
          · rw [FileLayer.ranges]
            by_cases hCf : cf = call.cf
            · subst hCf
              rw [AList.lookup_insert, if_pos ⟨rfl, hDone⟩]
              rfl
            · rw [AList.lookup_insert_ne hCf, if_neg fun h => hCf h.1, List.append_nil]
              rfl
          · rw [← hAfter, PatchTree.dir_insert, if_pos rfl]

section
variable {codec : PatchCodec} {layer after : FileLayer} {call : AppendCall}
  {result : Except Halt Unit} {entries : UInt16 → List PatchEntry}

theorem Appended.readable (h : layer.Appended codec call result after)
    (hFresh : .final call.patchId ∉ layer.files.dir call.cf) :
    ((after.files.dir call.cf).readable codec).Perm
      (List.replicate (call.copies codec) call.sorted ++ (layer.files.dir call.cf).readable codec) := by
  obtain ⟨data, hDir, hData⟩ := h.dir
  rw [hDir]
  by_cases hNone : call.attempts codec = []
  · rw [AppendCall.copies, hNone]
    simp [NamedDir.afterAll]
  · have hMade := @PatchDir.readable_made codec call.write.attempts.newUuid _ _ _ _ (hData hNone)
      (call.attempts codec) hFresh
    rw [(PatchDir.readPatch_toDiskBytes (hData hNone)).2] at hMade
    exact hMade

/-- The entries in the files after a call: those of the patch once for each copy. -/
theorem Appended.stores (h : layer.Appended codec call result after)
    (hFresh : .final call.patchId ∉ layer.files.dir call.cf) (hStores : layer.files.Stores codec entries) :
    after.files.Stores codec fun cf =>
      if cf = call.cf then entries cf ++ (List.replicate (call.copies codec) call.entries).flatten
      else entries cf := by
  have hReadable := h.readable hFresh
  refine ⟨fun cf => ?_, fun cf content hContent => ?_⟩
  · split
    · next hCf =>
      subst hCf
      refine hReadable.flatten.trans ?_
      rw [List.flatten_append]
      refine (List.perm_append_comm).trans ((hStores.entries call.cf).append ?_)
      generalize call.copies codec = count
      induction count with
      | zero => exact List.Perm.refl _
      | succ count ih =>
          rw [List.replicate_succ, List.replicate_succ, List.flatten_cons, List.flatten_cons]
          exact (List.perm_insertionSort _ _).append ih
    · next hCf =>
      rw [h.others cf hCf]
      exact hStores.entries cf
  · by_cases hCf : cf = call.cf
    · subst hCf
      rcases List.mem_append.mp (hReadable.mem_iff.mp hContent) with hNew | hOld
      · rw [List.eq_of_mem_replicate hNew]
        exact List.pairwise_insertionSort _ _
      · exact hStores.sorted call.cf content hOld
    · rw [h.others cf hCf] at hContent
      exact hStores.sorted cf content hContent

theorem Appended.read_kept (h : layer.Appended codec call result after)
    (hFresh : .final call.patchId ∉ layer.files.dir call.cf) {path : PatchPath} {bytes : Bytes}
    (hRead : layer.files.read path = some bytes) : after.files.read path = some bytes := by
  unfold PatchTree.read at hRead ⊢
  by_cases hCf : path.cf = call.cf
  · obtain ⟨data, hDir, -⟩ := h.dir
    rw [hCf, hDir]
    rw [hCf] at hRead
    apply NamedDir.lookup_afterAll_ne _ hRead
    intro hFile
    rw [hFile] at hRead
    exact hFresh (AList.lookup_isSome.mp (by rw [hRead]; rfl))
  · rw [h.others path.cf hCf]
    exact hRead

theorem Appended.published (h : layer.Appended codec call result after)
    (hDone : .completes ∈ call.attempts codec) :
    after.files.Holds codec ⟨call.cf, .final call.patchId⟩ call.sorted := by
  obtain ⟨data, hDir, hData⟩ := h.dir
  refine ⟨data, ?_, (PatchDir.readPatch_toDiskBytes (hData (List.ne_nil_of_mem hDone))).1⟩
  show AList.lookup _ (after.files.dir call.cf) = _
  rw [hDir, NamedDir.lookup_afterAll, if_pos ⟨_, hDone, trivial⟩]

/-- The index after a call: the patch is at its end exactly when an attempt completed. -/
theorem Appended.mirrors (h : layer.Appended codec call result after)
    (hFresh : .final call.patchId ∉ layer.files.dir call.cf) {patches : UInt16 → List Patch}
    (hMirrors : layer.Mirrors codec patches) :
    after.Mirrors codec fun cf => patches cf ++
      if cf = call.cf ∧ .completes ∈ call.attempts codec then
        [Patch.sparse call.cf call.entries (some call.patchId)] else [] := by
  have hHolds {path : PatchPath} {content : List PatchEntry} (hOld : layer.files.Holds codec path content) :
      after.files.Holds codec path content := by
    obtain ⟨bytes, hRead, hParse⟩ := hOld
    exact ⟨bytes, h.read_kept hFresh hRead, hParse⟩
  refine ⟨fun cf => ?_, fun cf p hp => ?_, fun path content hCached => ?_⟩
  · rw [h.ranges cf]
    have hOld := (hMirrors.index cf).imp fun e p hStands =>
      (⟨hStands.min, hStands.max, hStands.cf, hStands.name, hHolds hStands.holds⟩ :
        RangeIndexEntry.Stands codec after.files e p)
    refine List.rel_append hOld ?_
    split
    · next hNew => exact .cons ⟨rfl, rfl, rfl, rfl, h.published hNew.2⟩ .nil
    · exact .nil
  · rcases List.mem_append.mp hp with hp | hp
    · exact hMirrors.owned cf p hp
    · split at hp
      · next hNew =>
        rw [List.mem_singleton.mp hp]
        exact hNew.1.symm
      · cases hp
  · rw [h.content] at hCached
    exact hHolds (hMirrors.cache path content hCached)

/-- The entries behind the index are added exactly when the call returns `Ok`. -/
theorem Appended.serves (h : layer.Appended codec call result after)
    (hFresh : .final call.patchId ∉ layer.files.dir call.cf) (hServes : layer.Serves codec entries) :
    after.Serves codec fun cf =>
      if cf = call.cf ∧ result = .ok () then entries cf ++ call.entries else entries cf := by
  obtain ⟨patches, hMirrors, hEntries⟩ := hServes
  refine ⟨_, h.mirrors hFresh hMirrors, fun cf => ?_⟩
  have hOk := h.ok_iff
  dsimp only
  rw [List.flatMap_append]
  by_cases hCf : cf = call.cf
  · by_cases hDone : .completes ∈ call.attempts codec
    · rw [if_pos ⟨hCf, hDone⟩, if_pos ⟨hCf, hOk.mpr (Or.inr hDone)⟩, List.flatMap_singleton]
      exact (hEntries cf).append (List.perm_insertionSort _ _)
    · rw [if_neg fun hNew => hDone hNew.2, List.flatMap_nil, List.append_nil]
      split
      · next hNew =>
        rw [(hOk.mp hNew.2).resolve_right hDone, List.append_nil]
        exact hEntries cf
      · exact hEntries cf
  · rw [if_neg fun hNew => hCf hNew.1, if_neg fun hNew => hCf hNew.1, List.flatMap_nil,
      List.append_nil]
    exact hEntries cf

/-- What a layer without one column family stands for. -/
theorem Mirrors.forget {patches : UInt16 → List Patch} (h : layer.Mirrors codec patches)
    {files : PatchTree} {dropped : UInt16} (hFiles : ∀ cf, cf ≠ dropped → files.dir cf = layer.files.dir cf) :
    Mirrors codec ⟨files, AList.erase dropped layer.index,
      layer.content.retain fun path _ => path.cf ≠ dropped⟩
      fun cf => if cf = dropped then [] else patches cf := by
  have hHolds {path : PatchPath} {content : List PatchEntry} (hCf : path.cf ≠ dropped)
      (hOld : layer.files.Holds codec path content) : files.Holds codec path content := by
    obtain ⟨bytes, hRead, hParse⟩ := hOld
    refine ⟨bytes, ?_, hParse⟩
    rw [PatchTree.read, hFiles path.cf hCf]
    exact hRead
  refine ⟨fun cf => ?_, fun cf p hp => ?_, fun path content hCached => ?_⟩
  · unfold FileLayer.ranges
    split
    · next hCf =>
      rw [hCf, AList.lookup_erase]
      exact .nil
    · next hCf =>
      rw [AList.lookup_erase_ne hCf]
      have hBoth := ((List.forall₂_and_left (p := fun p : Patch => p.cf = cf) _ _).mpr
        ⟨h.owned cf, (h.index cf).flip⟩).flip
      refine hBoth.imp fun e p hStands => ?_
      refine ⟨hStands.2.min, hStands.2.max, hStands.2.cf, hStands.2.name, hHolds ?_ hStands.2.holds⟩
      rw [← hStands.2.cf, hStands.1]
      exact hCf
  · split at hp
    · cases hp
    · exact h.owned cf p hp
  · obtain ⟨hOld, hKeep⟩ := FinMap.mem_lookup_retain.mp hCached
    exact hHolds (of_decide_eq_true hKeep) (h.cache path content hOld)

/-- A drop that goes through takes away the directory and forgets it. -/
theorem dropCf_completes (layer : FileLayer) (dropped : UInt16) :
    ∃ files : PatchTree, layer.dropCf .completes dropped =
        (.ok (), ⟨files, AList.erase dropped layer.index,
          layer.content.retain fun path _ => path.cf ≠ dropped⟩) ∧
      ∀ cf, files.dir cf = if cf = dropped then ∅ else layer.files.dir cf := by
  unfold dropCf
  split
  · next hNone =>
    refine ⟨layer.files, rfl, fun cf => ?_⟩
    split
    · next hCf => rw [hCf, PatchTree.dir, hNone]; rfl
    · rfl
  · exact ⟨_, rfl, fun cf => PatchTree.dir_erase layer.files dropped cf⟩

/-- Dropping a column family forgets its entries, in the files and in the layer. -/
theorem drop_spec (codec : PatchCodec) (layer : FileLayer) (dropped : UInt16)
    (hStores : layer.files.Stores codec entries) :
    (layer.dropCf .completes dropped).1 = .ok () ∧
      (layer.dropCf .completes dropped).2.files.Stores codec
        (fun cf => if cf = dropped then [] else entries cf) ∧
      ∀ served, layer.Serves codec served → (layer.dropCf .completes dropped).2.Serves codec
        fun cf => if cf = dropped then [] else served cf := by
  obtain ⟨files, hDrop, hFiles⟩ := layer.dropCf_completes dropped
  rw [hDrop]
  refine ⟨rfl, ⟨fun cf => ?_, fun cf content hContent => ?_⟩, fun served hServes => ?_⟩
  · rw [hFiles]
    split
    · exact List.Perm.refl _
    · exact hStores.entries cf
  · rw [hFiles] at hContent
    split at hContent
    · cases hContent
    · exact hStores.sorted cf content hContent
  · obtain ⟨patches, hMirrors, hEntries⟩ := hServes
    refine ⟨_, hMirrors.forget fun cf hCf => by rw [hFiles, if_neg hCf], fun cf => ?_⟩
    dsimp only
    split
    · exact List.Perm.refl _
    · exact hEntries cf

end
end FileLayer
end Z1Kv
