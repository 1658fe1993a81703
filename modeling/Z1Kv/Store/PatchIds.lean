import Z1Kv.Store.Flush
import Z1Kv.Store.PatchRuns

/-! Flush and compaction over the files of L2 and L3: one counter gives out the patch ids of
both layers, and is set from the files that are there when the engine is opened. -/
namespace Z1Kv

inductive LayerName
  | l2
  | l3
  deriving DecidableEq

/-- A call of `append_patch` by the engine, with the files it found. -/
structure PatchTarget where
  l2 : PatchTree
  l3 : PatchTree
  layer : LayerName
  cf : UInt16
  patchId : Nat

def PatchTarget.files (target : PatchTarget) : LayerName → PatchTree
  | .l2 => target.l2
  | .l3 => target.l3

/-- The flush engine with its layers, and the calls of `append_patch` of all sessions. -/
structure FileStore where
  l1 : MemStore
  recentFlush : VersionMap
  l2 : FileLayer
  l3 : FileLayer
  /-- The source's counter is an `AtomicU64`, so this is it for the first `2 ^ 64` ids. -/
  nextPatchId : Nat
  targets : List PatchTarget

namespace FileStore

/-- The next id goes to a patch of this layer. -/
def takeId (s : FileStore) (layer : LayerName) (cf : UInt16) : Nat × FileStore :=
  (s.nextPatchId, { s with
    nextPatchId := s.nextPatchId + 1
    targets := s.targets ++ [⟨s.l2.files, s.l3.files, layer, cf, s.nextPatchId⟩] })

/-- Write one L2 patch for each group; the first failure ends the loop. -/
def appendGroups (codec : PatchCodec) (writes : Nat → PatchWrite) (s : FileStore) :
    List (UInt16 × List PatchEntry) → Except Halt Unit × FileStore
  | [] => (.ok (), s)
  | (cf, entries) :: rest =>
      let (patchId, s) := s.takeId .l2 cf
      match s.l2.appendPatch codec (writes patchId) cf entries patchId with
      | (.error halt, l2) => (.error halt, { s with l2 })
      | (.ok (), l2) => appendGroups codec writes { s with l2 } rest

/-- The hot buffer moves to the cache of entries in flight. -/
def stage (s : FileStore) : FileStore :=
  let (swapped, l1) := s.l1.swapAndDrain
  { s with l1, recentFlush := s.recentFlush.putAll swapped }

def flushL1ToL2 (codec : PatchCodec) (writes : Nat → PatchWrite) (s : FileStore) :
    Except Halt Nat × FileStore :=
  let s := s.stage
  let groups := cfGroups s.recentFlush.values
  match s.appendGroups codec writes groups with
  | (.error halt, s) => (.error halt, s)
  | (.ok (), s) => (.ok groups.length, { s with recentFlush := ∅ })

/-- Drop a column family of L2 after its L3 patch is written. -/
def dropL2 (removals : UInt16 → Removal) (counts : Nat × Nat) (s : FileStore) (cf : UInt16) :
    Except Halt (Nat × Nat) × FileStore :=
  match s.l2.dropCf (removals cf) cf with
  | (.error halt, l2) => (.error halt, { s with l2 })
  | (.ok (), l2) => (.ok counts, { s with l2 })

/-- Compaction of one column family: merge, write the L3 patch, drop L2. -/
def compactCf (codec : PatchCodec) (writes : Nat → PatchWrite) (removals : UInt16 → Removal)
    (watermark : TxnId) (s : FileStore) (cf : UInt16) : Except Halt (Nat × Nat) × FileStore :=
  match s.l2.allVersions codec cf with
  | (.error e, l2) => (.error (.error e), { s with l2 })
  | (.ok versions, l2) =>
      let s := { s with l2 }
      if versions = [] then (.ok (0, 0), s)
      else
        let (retained, stats) := gcEntries (versions.map PatchEntry.ofZ1Entry) watermark
        if retained = [] then s.dropL2 removals (1, stats.reclaimed) cf
        else
          let (patchId, s) := s.takeId .l3 cf
          match s.l3.appendPatch codec (writes patchId) cf retained patchId with
          | (.error halt, l3) => (.error halt, { s with l3 })
          | (.ok (), l3) => { s with l3 }.dropL2 removals (1, stats.reclaimed) cf

def compactCfs (codec : PatchCodec) (writes : Nat → PatchWrite) (removals : UInt16 → Removal)
    (watermark : TxnId) (s : FileStore) : List UInt16 → Except Halt (Nat × Nat) × FileStore
  | [] => (.ok (0, 0), s)
  | cf :: rest =>
      match s.compactCf codec writes removals watermark cf with
      | (.error halt, s) => (.error halt, s)
      | (.ok (cfs, reclaimed), s) =>
          match s.compactCfs codec writes removals watermark rest with
          | (.error halt, s) => (.error halt, s)
          | (.ok (cfs', reclaimed'), s) => (.ok (cfs + cfs', reclaimed + reclaimed'), s)

def compactL2ToL3 (codec : PatchCodec) (writes : Nat → PatchWrite) (removals : UInt16 → Removal)
    (minActiveBeginTs : TxnId) (s : FileStore) : Except Halt (Nat × Nat) × FileStore :=
  s.compactCfs codec writes removals minActiveBeginTs s.l2.listCfs

/-- The storage part of `open_with_config`, with L1 as the replay of the log leaves it. -/
def openStore (codec : PatchCodec) (listing : ReadDir) (l1 : MemStore) (l2 l3 : PatchTree)
    (targets : List PatchTarget) : FileStore :=
  let l2 := FileLayer.new codec listing l2
  let l3 := FileLayer.new codec listing l3
  ⟨l1, ∅, l2, l3, max l2.maxPatchId l3.maxPatchId + 1, targets⟩

end FileStore

/-- Calls of sessions. Between flushes L1 is filled by the transactions of the session. -/
inductive StoreCall
  | fill (l1 : MemStore)
  | flushL1ToL2 (writes : Nat → PatchWrite)
  | compactL2ToL3 (writes : Nat → PatchWrite) (removals : UInt16 → Removal) (minActiveBeginTs : TxnId)
  | kill
  | openStore (listing : ReadDir) (l1 : MemStore)

/-- A session, or what the last one left. -/
inductive StoreState
  | running (s : FileStore)
  | stopped (l2 l3 : PatchTree) (targets : List PatchTarget)

namespace StoreState

def files : StoreState → LayerName → PatchTree
  | running s, .l2 => s.l2.files
  | running s, .l3 => s.l3.files
  | stopped l2 _ _, .l2 => l2
  | stopped _ l3 _, .l3 => l3

def targets : StoreState → List PatchTarget
  | running s => s.targets
  | stopped _ _ targets => targets

def stop (state : StoreState) : StoreState :=
  .stopped (state.files .l2) (state.files .l3) state.targets

/-- A crash ends the session; after an error it goes on. -/
def ofResult {α : Type} (result : Except Halt α) (s : FileStore) : StoreState :=
  match result with
  | .error .crash => (running s).stop
  | _ => .running s

def step (codec : PatchCodec) : StoreState → StoreCall → StoreState
  | state, .kill => state.stop
  | state, .openStore listing l1 =>
      .running (FileStore.openStore codec listing l1 (state.files .l2) (state.files .l3) state.targets)
  | .stopped l2 l3 targets, _ => .stopped l2 l3 targets
  | .running s, .fill l1 => .running { s with l1 }
  | .running s, .flushL1ToL2 writes =>
      let (result, s) := s.flushL1ToL2 codec writes
      ofResult result s
  | .running s, .compactL2ToL3 writes removals minActiveBeginTs =>
      let (result, s) := s.compactL2ToL3 codec writes removals minActiveBeginTs
      ofResult result s

/-- The state after these calls on an empty data directory. -/
def after (codec : PatchCodec) (calls : List StoreCall) : StoreState :=
  calls.foldl (step codec) (.stopped ∅ ∅ [])

end StoreState

/-- Every patch under its name parses. -/
def PatchTree.Intact (codec : PatchCodec) (files : PatchTree) : Prop :=
  ∀ cf patchId bytes, AList.lookup (.final patchId) (files.dir cf) = some bytes →
    ∃ content, codec.readPatch bytes = .ok content

/-- Every id among the names of patches is below this one. -/
def PatchTree.IdsBelow (files : PatchTree) (next : Nat) : Prop :=
  ∀ cf patchId, .final patchId ∈ files.dir cf → patchId < next

/-- The id of the call is above all ids that were in the layers. -/
def PatchTarget.AboveAll (target : PatchTarget) : Prop :=
  ∀ layer, (target.files layer).IdsBelow target.patchId

section
variable {codec : PatchCodec} {files : PatchTree} {layer : FileLayer}

/-- A patch of an intact layer is in the rebuilt index, so its id counts. -/
theorem FileLayer.le_maxPatchId_new (hIntact : files.Intact codec) (listing : ReadDir) {cf : UInt16}
    {patchId : Nat} (h : .final patchId ∈ files.dir cf) :
    patchId ≤ (FileLayer.new codec listing files).maxPatchId := by
  obtain ⟨bytes, hLookup⟩ := FinMap.mem_iff_lookup.mp h
  obtain ⟨content, hParse⟩ := hIntact cf patchId bytes hLookup
  have hRange := (@FileLayer.mem_ranges_new codec files listing cf _).mpr
    ⟨.final patchId, bytes, content, hLookup, hParse, rfl⟩
  have hIndex : ∃ entries, AList.lookup cf (FileLayer.new codec listing files).index = some entries ∧
      (⟨(keyBounds content).1, (keyBounds content).2, ⟨cf, .final patchId⟩⟩ : RangeIndexEntry) ∈
        entries := by
    unfold FileLayer.ranges at hRange
    cases hEntries : AList.lookup cf (FileLayer.new codec listing files).index with
    | none =>
        rw [hEntries] at hRange
        cases hRange
    | some entries =>
        rw [hEntries] at hRange
        exact ⟨entries, rfl, hRange⟩
  obtain ⟨entries, hEntries, hMem⟩ := hIndex
  refine List.le_max_of_le (List.mem_filterMap.mpr ⟨_, List.mem_flatMap.mpr
    ⟨⟨cf, entries⟩, FinMap.mem_entries.mpr hEntries, hMem⟩, rfl⟩) le_rfl

/-- What a write of a patch does to the names: at most its own is new, and what is under it
parses. -/
theorem FileLayer.append_keeps (call : AppendCall) (hIntact : layer.files.Intact codec)
    {next : Nat} (hBelow : layer.files.IdsBelow next) (hId : call.patchId < next) :
    (layer.append codec call).2.files.Intact codec ∧
      (layer.append codec call).2.files.IdsBelow next := by
  have hSpec := FileLayer.append_spec codec layer call
  obtain ⟨data, hDir, hData⟩ := hSpec.dir
  constructor
  · intro cf patchId bytes hLookup
    by_cases hCf : cf = call.cf
    · rw [hCf, hDir] at hLookup
      by_cases hName : patchId = call.patchId
      · rw [hName, NamedDir.lookup_afterAll] at hLookup
        split at hLookup
        · next hRenames =>
          obtain ⟨a, ha, -⟩ := hRenames
          obtain rfl := Option.some.inj hLookup
          exact ⟨_, (PatchDir.readPatch_toDiskBytes (hData (List.ne_nil_of_mem ha))).1⟩
        · exact hIntact call.cf call.patchId bytes hLookup
      · rw [NamedDir.lookup_afterAll_other _ hName] at hLookup
        exact hIntact call.cf patchId bytes hLookup
    · rw [hSpec.others cf hCf] at hLookup
      exact hIntact cf patchId bytes hLookup
  · intro cf patchId hName
    by_cases hCf : cf = call.cf
    · rw [hCf, hDir] at hName
      rcases NamedDir.mem_afterAll_final hName with hOld | rfl
      · exact hBelow call.cf patchId hOld
      · exact hId
    · rw [hSpec.others cf hCf] at hName
      exact hBelow cf patchId hName

/-- A removal, whole or in part, only removes. -/
theorem FileLayer.dropCf_lookup (removal : Removal) (dropped : UInt16) {cf : UInt16} {file : PatchFile}
    {bytes : Bytes}
    (h : AList.lookup file ((layer.dropCf removal dropped).2.files.dir cf) = some bytes) :
    AList.lookup file (layer.files.dir cf) = some bytes := by
  have hErase (h : AList.lookup file (PatchTree.dir (AList.erase dropped layer.files) cf) = some bytes) :
      AList.lookup file (layer.files.dir cf) = some bytes := by
    rw [PatchTree.dir_erase] at h
    split at h
    · cases h
    · exact h
  unfold FileLayer.dropCf at h
  split at h
  · exact h
  · next dir hDir =>
    split at h
    · exact hErase h
    · dsimp only at h
      rw [PatchTree.dir_insert] at h
      split at h
      · next hCf =>
        rw [hCf, PatchTree.dir, hDir]
        exact (FinMap.mem_lookup_retain.mp h).1
      · exact h
    · exact hErase h

theorem FileLayer.dropCf_keeps (removal : Removal) (dropped : UInt16) {next : Nat}
    (hIntact : layer.files.Intact codec) (hBelow : layer.files.IdsBelow next) :
    (layer.dropCf removal dropped).2.files.Intact codec ∧
      (layer.dropCf removal dropped).2.files.IdsBelow next := by
  constructor
  · intro cf patchId bytes hLookup
    exact hIntact cf patchId bytes (dropCf_lookup removal dropped hLookup)
  · intro cf patchId hName
    obtain ⟨bytes, hLookup⟩ := FinMap.mem_iff_lookup.mp hName
    exact hBelow cf patchId (FinMap.mem_iff_lookup.mpr ⟨bytes, dropCf_lookup removal dropped hLookup⟩)

/-- Patches parse, the counter is above their ids, and was above the ids of the time at
every call so far. -/
structure FileStore.Numbered (codec : PatchCodec) (s : FileStore) : Prop where
  intact2 : s.l2.files.Intact codec
  intact3 : s.l3.files.Intact codec
  below2 : s.l2.files.IdsBelow s.nextPatchId
  below3 : s.l3.files.IdsBelow s.nextPatchId
  targets : ∀ target ∈ s.targets, target.AboveAll

namespace FileStore

variable {s : FileStore}

theorem Numbered.takeId (h : s.Numbered codec) (layer : LayerName) (cf : UInt16) :
    (s.takeId layer cf).2.Numbered codec ∧ (s.takeId layer cf).1 < (s.takeId layer cf).2.nextPatchId := by
  refine ⟨⟨h.intact2, h.intact3, fun cf patchId hName => ?_, fun cf patchId hName => ?_,
    fun target hTarget => ?_⟩, Nat.lt_succ_self _⟩
  · exact (h.below2 cf patchId hName).trans (Nat.lt_succ_self _)
  · exact (h.below3 cf patchId hName).trans (Nat.lt_succ_self _)
  · rcases List.mem_append.mp hTarget with hOld | hNew
    · exact h.targets target hOld
    · rw [List.mem_singleton.mp hNew]
      intro layer
      cases layer with
      | l2 => exact h.below2
      | l3 => exact h.below3

/-- The layer L2 after a step that keeps its patches. -/
theorem Numbered.setL2 (h : s.Numbered codec) {l2 : FileLayer}
    (hKeeps : l2.files.Intact codec ∧ l2.files.IdsBelow s.nextPatchId) :
    { s with l2 }.Numbered codec :=
  ⟨hKeeps.1, h.intact3, hKeeps.2, h.below3, h.targets⟩

theorem Numbered.setL3 (h : s.Numbered codec) {l3 : FileLayer}
    (hKeeps : l3.files.Intact codec ∧ l3.files.IdsBelow s.nextPatchId) :
    { s with l3 }.Numbered codec :=
  ⟨h.intact2, hKeeps.1, h.below2, hKeeps.2, h.targets⟩

theorem Numbered.appendL2 (h : s.Numbered codec) (write : PatchWrite) (cf : UInt16)
    (entries : List PatchEntry) {patchId : Nat} (hId : patchId < s.nextPatchId) :
    { s with l2 := (s.l2.appendPatch codec write cf entries patchId).2 }.Numbered codec :=
  h.setL2 (FileLayer.append_keeps ⟨write, cf, entries, patchId⟩ h.intact2 h.below2 hId)

theorem Numbered.appendL3 (h : s.Numbered codec) (write : PatchWrite) (cf : UInt16)
    (entries : List PatchEntry) {patchId : Nat} (hId : patchId < s.nextPatchId) :
    { s with l3 := (s.l3.appendPatch codec write cf entries patchId).2 }.Numbered codec :=
  h.setL3 (FileLayer.append_keeps ⟨write, cf, entries, patchId⟩ h.intact3 h.below3 hId)

theorem Numbered.appendGroups (h : s.Numbered codec) (writes : Nat → PatchWrite)
    (groups : List (UInt16 × List PatchEntry)) :
    (s.appendGroups codec writes groups).2.Numbered codec := by
  induction groups generalizing s with
  | nil => exact h
  | cons group rest ih =>
      obtain ⟨cf, entries⟩ := group
      obtain ⟨hTaken, hId⟩ := h.takeId .l2 cf
      have hAfter := hTaken.appendL2 (writes (s.takeId .l2 cf).1) cf entries hId
      rw [FileStore.appendGroups]
      dsimp only
      split
      · next halt l2 hEq =>
        rw [hEq] at hAfter
        exact hAfter
      · next l2 hEq =>
        rw [hEq] at hAfter
        exact ih hAfter

theorem Numbered.flushL1ToL2 (h : s.Numbered codec) (writes : Nat → PatchWrite) :
    (s.flushL1ToL2 codec writes).2.Numbered codec := by
  have hStage : s.stage.Numbered codec :=
    ⟨h.intact2, h.intact3, h.below2, h.below3, h.targets⟩
  have hGroups := hStage.appendGroups writes (cfGroups s.stage.recentFlush.values)
  rw [FileStore.flushL1ToL2]
  split
  · next halt after hEq =>
    rw [hEq] at hGroups
    exact hGroups
  · next after hEq =>
    rw [hEq] at hGroups
    exact ⟨hGroups.intact2, hGroups.intact3, hGroups.below2, hGroups.below3, hGroups.targets⟩

theorem Numbered.dropL2 (h : s.Numbered codec) (removals : UInt16 → Removal) (counts : Nat × Nat)
    (cf : UInt16) : (s.dropL2 removals counts cf).2.Numbered codec := by
  have hAfter := h.setL2 (FileLayer.dropCf_keeps (removals cf) cf h.intact2 h.below2)
  rw [FileStore.dropL2]
  split
  · next halt l2 hEq =>
    rw [hEq] at hAfter
    exact hAfter
  · next l2 hEq =>
    rw [hEq] at hAfter
    exact hAfter

theorem Numbered.compactCf (h : s.Numbered codec) (writes : Nat → PatchWrite)
    (removals : UInt16 → Removal) (watermark : TxnId) (cf : UInt16) :
    (s.compactCf codec writes removals watermark cf).2.Numbered codec := by
  have hFiles := FileLayer.allVersions_files codec s.l2 cf
  have hRead : { s with l2 := (s.l2.allVersions codec cf).2 }.Numbered codec := by
    apply h.setL2
    rw [hFiles]
    exact ⟨h.intact2, h.below2⟩
  rw [FileStore.compactCf]
  split
  · next e l2 hEq =>
    rw [hEq] at hRead
    exact hRead
  · next versions l2 hEq =>
    rw [hEq] at hRead
    dsimp only
    split
    · exact hRead
    · split
      · exact hRead.dropL2 removals _ cf
      · obtain ⟨hTaken, hId⟩ := hRead.takeId .l3 cf
        have hAfter := hTaken.appendL3 (writes s.nextPatchId) cf
          (gcEntries (versions.map PatchEntry.ofZ1Entry) watermark).1 hId
        split
        · next halt l3 hWrite =>
          have hSame := congrArg Prod.snd hWrite
          subst hSame
          exact hAfter
        · next l3 hWrite =>
          have hSame := congrArg Prod.snd hWrite
          subst hSame
          exact hAfter.dropL2 removals _ cf

theorem Numbered.compactCfs (h : s.Numbered codec) (writes : Nat → PatchWrite)
    (removals : UInt16 → Removal) (watermark : TxnId) (cfs : List UInt16) :
    (s.compactCfs codec writes removals watermark cfs).2.Numbered codec := by
  induction cfs generalizing s with
  | nil => exact h
  | cons cf rest ih =>
      have hHere := h.compactCf writes removals watermark cf
      rw [FileStore.compactCfs]
      split
      · next hEq =>
        rw [hEq] at hHere
        exact hHere
      · next hEq =>
        rw [hEq] at hHere
        have hRest := ih hHere
        split
        · next hMore =>
          rw [hMore] at hRest
          exact hRest
        · next hMore =>
          rw [hMore] at hRest
          exact hRest

end FileStore

/-- The same of a session, or of what one left. -/
structure StoreState.Numbered (codec : PatchCodec) (state : StoreState) : Prop where
  intact : ∀ layer, (state.files layer).Intact codec
  running : ∀ s, state = .running s → s.Numbered codec
  targets : ∀ target ∈ state.targets, target.AboveAll

variable {state : StoreState}

theorem FileStore.Numbered.inSession {s : FileStore} (h : s.Numbered codec) :
    (StoreState.running s).Numbered codec := by
  refine ⟨fun layer => ?_, fun s' hSame => ?_, h.targets⟩
  · cases layer with
    | l2 => exact h.intact2
    | l3 => exact h.intact3
  · obtain rfl := StoreState.running.inj hSame
    exact h

theorem StoreState.Numbered.stop (h : state.Numbered codec) : state.stop.Numbered codec := by
  refine ⟨fun layer => ?_, fun s hRunning => ?_, h.targets⟩
  · cases layer with
    | l2 => exact h.intact .l2
    | l3 => exact h.intact .l3
  · cases hRunning

theorem FileStore.Numbered.ofResult {α : Type} {s : FileStore} (h : s.Numbered codec)
    (result : Except Halt α) : (StoreState.ofResult result s).Numbered codec := by
  unfold StoreState.ofResult
  split
  · exact h.inSession.stop
  · exact h.inSession

/-- At an open the counter is set above every id that is left. -/
theorem StoreState.Numbered.openStore (h : state.Numbered codec) (listing : ReadDir) (l1 : MemStore) :
    (FileStore.openStore codec listing l1 (state.files .l2) (state.files .l3) state.targets).Numbered
      codec := by
  refine ⟨h.intact .l2, h.intact .l3, fun cf patchId hName => ?_, fun cf patchId hName => ?_, h.targets⟩
  · have hLe := FileLayer.le_maxPatchId_new (h.intact .l2) listing hName
    exact Nat.lt_succ_of_le (hLe.trans (le_max_left _ _))
  · have hLe := FileLayer.le_maxPatchId_new (h.intact .l3) listing hName
    exact Nat.lt_succ_of_le (hLe.trans (le_max_right _ _))

theorem StoreState.Numbered.step {call : StoreCall} (h : state.Numbered codec) :
    (state.step codec call).Numbered codec := by
  cases call with
  | kill => cases state <;> exact h.stop
  | openStore listing l1 =>
      have hOpened := (h.openStore listing l1).inSession
      cases state <;> exact hOpened
  | fill l1 =>
      cases state with
      | stopped l2 l3 targets => exact h
      | running s =>
          have hHere := h.running s rfl
          exact FileStore.Numbered.inSession
            ⟨hHere.intact2, hHere.intact3, hHere.below2, hHere.below3, hHere.targets⟩
  | flushL1ToL2 writes =>
      cases state with
      | stopped l2 l3 targets => exact h
      | running s => exact ((h.running s rfl).flushL1ToL2 writes).ofResult _
  | compactL2ToL3 writes removals minActiveBeginTs =>
      cases state with
      | stopped l2 l3 targets => exact h
      | running s =>
          exact ((h.running s rfl).compactCfs writes removals minActiveBeginTs s.l2.listCfs).ofResult _

theorem StoreState.numbered_after (codec : PatchCodec) (calls : List StoreCall) :
    (StoreState.after codec calls).Numbered codec := by
  have hStart : (StoreState.stopped ∅ ∅ []).Numbered codec := by
    refine ⟨fun layer => ?_, fun s hRunning => ?_, fun target hTarget => ?_⟩
    · cases layer <;> exact fun cf patchId bytes hLookup => by cases hLookup
    · cases hRunning
    · cases hTarget
  unfold StoreState.after
  generalize StoreState.stopped ∅ ∅ [] = start at hStart ⊢
  induction calls generalizing start with
  | nil => exact hStart
  | cons call rest ih => exact ih _ hStart.step

end

/-- In every sequence of sessions each patch gets an id above all ids that are then in L2 or
L3, so no write finds a file under its name. -/
theorem patches_not_overwritten (codec : PatchCodec) (calls : List StoreCall) :
    ∀ target ∈ (StoreState.after codec calls).targets,
      (∀ layer cf patchId, .final patchId ∈ (target.files layer).dir cf → patchId < target.patchId) ∧
        .final target.patchId ∉ (target.files target.layer).dir target.cf := by
  intro target hTarget
  have hAbove := (StoreState.numbered_after codec calls).targets target hTarget
  exact ⟨hAbove, fun hThere => Nat.lt_irrefl _ (hAbove target.layer target.cf target.patchId hThere)⟩

theorem patches_not_overwritten_one :
    let l1 := (MemStore.new 1024).replayPut ⟨⟨0, [107]⟩, 1, some [1]⟩
    let writes : Nat → PatchWrite := fun _ => ⟨none, .each .completes⟩
    let calls : List StoreCall := [.openStore .listed l1, .flushL1ToL2 writes, .kill,
      .openStore .listed l1, .flushL1ToL2 writes]
    ∃ target ∈ (StoreState.after Postcard.patchCodec calls).targets, target.patchId = 2 ∧
      .final 2 ∉ (target.files target.layer).dir target.cf := by
  intro l1 writes calls
  have hIds : (StoreState.after Postcard.patchCodec calls).targets.map PatchTarget.patchId = [1, 2] := by
    decide +kernel
  have hMem : 2 ∈ (StoreState.after Postcard.patchCodec calls).targets.map PatchTarget.patchId := by
    rw [hIds]
    decide
  obtain ⟨target, hTarget, hId⟩ := List.mem_map.mp hMem
  have hFresh := (patches_not_overwritten Postcard.patchCodec calls target hTarget).2
  rw [hId] at hFresh
  exact ⟨target, hTarget, hId, hFresh⟩

end Z1Kv
