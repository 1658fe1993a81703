import Z1Kv.Library.Runs
import Z1Kv.Store.Flush
import Z1Kv.Store.PatchMoves

/-! The layers over patch files do what the layers of patches do: flushes, compactions and
reads of a session answer alike, whichever sessions left the files and whatever happens to
the writes. -/
namespace Z1Kv

/-- Two levels answer alike: with the same value, or both with an error. -/
inductive Alike {α ε ε' : Type} : Except ε α → Except ε' α → Prop
  | ok (a : α) : Alike (.ok a) (.ok a)
  | error (e : ε) (e' : ε') : Alike (.error e) (.error e')

/-- Calls on the layers; `W` says what happens to the write of one patch. -/
inductive LayerOp (W : Type)
  | put (e : Z1Entry)
  | flushL1ToL2 (writes : Nat → W)
  | compactL2ToL3 (writes : Nat → W) (minActiveBeginTs : TxnId)
  | getAt (snap : TxnSnapshot) (cf : UInt16) (key : Bytes)
  | scanAt (snap : TxnSnapshot) (cf : UInt16) (start : Bytes) (endKey : Option Bytes)

inductive LayerReply
  | inserted
  | flushed (groups : Nat)
  | compacted (counts : Nat × Nat)
  | value (found : Option Bytes)
  | pairs (found : List (Bytes × Bytes))

/-- The same call, up to what happens to the writes. -/
inductive LayerOp.SameCall {W W' : Type} : LayerOp W → LayerOp W' → Prop
  | put (e : Z1Entry) : SameCall (.put e) (.put e)
  | flushL1ToL2 (writes : Nat → W) (writes' : Nat → W') :
      SameCall (.flushL1ToL2 writes) (.flushL1ToL2 writes')
  | compactL2ToL3 (writes : Nat → W) (writes' : Nat → W') (minActiveBeginTs : TxnId) :
      SameCall (.compactL2ToL3 writes minActiveBeginTs) (.compactL2ToL3 writes' minActiveBeginTs)
  | getAt (snap : TxnSnapshot) (cf : UInt16) (key : Bytes) :
      SameCall (.getAt snap cf key) (.getAt snap cf key)
  | scanAt (snap : TxnSnapshot) (cf : UInt16) (start : Bytes) (endKey : Option Bytes) :
      SameCall (.scanAt snap cf start endKey) (.scanAt snap cf start endKey)

/-- The same call with the same answer at both levels. -/
def SameEvent (event : LayerOp PatchWrite × Except Halt LayerReply)
    (event' : LayerOp PatchOutcome × Except Z1Error LayerReply) : Prop :=
  event.1.SameCall event'.1 ∧ Alike event.2 event'.2

namespace FileStore

/-- `get_at`; a file that cannot be read ends it. -/
def getAt (codec : PatchCodec) (s : FileStore) (snap : TxnSnapshot) (cf : UInt16) (key : Bytes) :
    Except PatchError (Option Bytes) × FileStore :=
  match s.l2.getVersions codec cf key with
  | (.error e, l2) => (.error e, { s with l2 })
  | (.ok frozen2, l2) =>
      match s.l3.getVersions codec cf key with
      | (.error e, l3) => (.error e, { s with l2, l3 })
      | (.ok frozen3, l3) =>
          let candidates := s.l1.getVersions snap cf key ++
            (s.recentFlush.values.filter fun e => e.key = ⟨cf, key⟩).filter (·.isVisibleAtCommit snap) ++
            frozen2.filter (·.isVisibleAtCommit snap) ++ frozen3.filter (·.isVisibleAtCommit snap)
          (.ok ((maxByKey Z1Entry.txnId candidates).bind Z1Entry.value), { s with l2, l3 })

/-- `scan_at`; the disk layers are read last. -/
def scanAt (codec : PatchCodec) (s : FileStore) (snap : TxnSnapshot) (cf : UInt16) (start : Bytes)
    (endKey : Option Bytes) : Except PatchError (List (Bytes × Bytes)) × FileStore :=
  match s.l2.rangeVisible codec cf start endKey with
  | (.error e, l2) => (.error e, { s with l2 })
  | (.ok frozen2, l2) =>
      match s.l3.rangeVisible codec cf start endKey with
      | (.error e, l3) => (.error e, { s with l2, l3 })
      | (.ok frozen3, l3) =>
          let l1 := s.l1.rangeVisible snap cf start endKey
          let cached := (s.recentFlush.values.filter fun e =>
            inRange cf start endKey e.key && e.isVisibleAtCommit snap).map fun e => (e.key.key, e)
          let best := FinMap.keepMaxAll Z1Entry.txnId ∅ (l1 ++ cached ++
            frozen2.filter (·.2.isVisibleAtCommit snap) ++ frozen3.filter (·.2.isVisibleAtCommit snap))
          (.ok (best.ascending.filterMap fun pair => pair.2.value.map fun v => (pair.1, v)),
            { s with l2, l3 })

/-- One call on the layers over files. Directories are removed without a failure. -/
def layerStep (codec : PatchCodec) (s : FileStore) :
    LayerOp PatchWrite → Except Halt LayerReply × FileStore
  | .put e => (.ok .inserted, { s with l1 := s.l1.replayPut e })
  | .flushL1ToL2 writes =>
      match s.flushL1ToL2 codec writes with
      | (.error halt, s) => (.error halt, s)
      | (.ok groups, s) => (.ok (.flushed groups), s)
  | .compactL2ToL3 writes minActiveBeginTs =>
      match s.compactL2ToL3 codec writes (fun _ => .completes) minActiveBeginTs with
      | (.error halt, s) => (.error halt, s)
      | (.ok counts, s) => (.ok (.compacted counts), s)
  | .getAt snap cf key =>
      match s.getAt codec snap cf key with
      | (.error e, s) => (.error (.error e), s)
      | (.ok found, s) => (.ok (.value found), s)
  | .scanAt snap cf start endKey =>
      match s.scanAt codec snap cf start endKey with
      | (.error e, s) => (.error (.error e), s)
      | (.ok found, s) => (.ok (.pairs found), s)

end FileStore

namespace Store

/-- One call on the layers of patches. -/
def layerStep (s : Store) : LayerOp PatchOutcome → Except Z1Error LayerReply × Store
  | .put e => (.ok .inserted, { s with l1 := s.l1.replayPut e })
  | .flushL1ToL2 writes =>
      match s.flushL1ToL2 writes with
      | (.error e, s) => (.error e, s)
      | (.ok groups, s) => (.ok (.flushed groups), s)
  | .compactL2ToL3 writes minActiveBeginTs =>
      match s.compactL2ToL3 writes minActiveBeginTs with
      | (.error e, s) => (.error e, s)
      | (.ok counts, s) => (.ok (.compacted counts), s)
  | .getAt snap cf key => (.ok (.value (s.getAt snap cf key)), s)
  | .scanAt snap cf start endKey => (.ok (.pairs (s.scanAt snap cf start endKey)), s)

end Store

namespace DiskLayer

/-- The patches of one column family, in index order. -/
def ofCf (layer : DiskLayer) (cf : UInt16) : List Patch := layer.patches.filter (·.cf = cf)

theorem getVersions_ofCf (layer : DiskLayer) (cf : UInt16) (key : Bytes) :
    DiskLayer.getVersions ⟨layer.ofCf cf, []⟩ cf key = layer.getVersions cf key := by
  unfold getVersions ofCf
  rw [List.filter_filter]
  congr 1
  apply List.filter_congr
  intro p _
  by_cases hCf : p.cf = cf <;> simp [hCf]

theorem rangeVisible_ofCf (layer : DiskLayer) (cf : UInt16) (start : Bytes) (endKey : Option Bytes) :
    DiskLayer.rangeVisible ⟨layer.ofCf cf, []⟩ cf start endKey = layer.rangeVisible cf start endKey := by
  have hFilter : (layer.ofCf cf).filter (fun p => p.cf = cf && start ≤ p.maxKey &&
      endKey.all fun bound => p.minKey < bound) =
        layer.patches.filter fun p => p.cf = cf && start ≤ p.maxKey &&
          endKey.all fun bound => p.minKey < bound := by
    rw [ofCf, List.filter_filter]
    apply List.filter_congr
    intro p _
    by_cases hCf : p.cf = cf <;> simp [hCf]
  unfold rangeVisible
  rw [hFilter]

theorem allVersions_ofCf (layer : DiskLayer) (cf : UInt16) :
    DiskLayer.allVersions ⟨layer.ofCf cf, []⟩ cf = layer.allVersions cf := by
  simp only [allVersions, ofCf, List.filter_filter, Bool.and_self]

theorem ofCf_append (layer : DiskLayer) (p : Patch) (images : List Patch) (cf : UInt16) :
    DiskLayer.ofCf ⟨layer.patches ++ [p], images⟩ cf = layer.ofCf cf ++ if p.cf = cf then [p] else [] := by
  simp only [ofCf, List.filter_append, List.filter_cons, List.filter_nil, decide_eq_true_eq]

theorem filter_dropCf (files : List Patch) (dropped cf : UInt16) :
    (files.filter (·.cf ≠ dropped)).filter (·.cf = cf) =
      if cf = dropped then [] else files.filter (·.cf = cf) := by
  rw [List.filter_filter]
  split
  · next hCf =>
    rw [List.filter_eq_nil_iff]
    intro p _
    simp [hCf]
  · next hCf =>
    apply List.filter_congr
    intro p _
    by_cases hHere : p.cf = cf
    · simp [hHere, hCf]
    · simp [hHere]

theorem ofCf_dropCf (layer : DiskLayer) (dropped cf : UInt16) :
    (layer.dropCf dropped).ofCf cf = if cf = dropped then [] else layer.ofCf cf :=
  filter_dropCf layer.patches dropped cf

theorem files_dropCf (layer : DiskLayer) (dropped : UInt16) :
    (layer.dropCf dropped).files = layer.files.filter (·.cf ≠ dropped) :=
  (List.filter_append _ _).symm

/-- The files that a call adds to its layer. -/
theorem files_appendPatch (layer : DiskLayer) (outcome : PatchOutcome) (cf : UInt16)
    {entries : List PatchEntry} (patchId : Nat) (hEntries : entries ≠ []) :
    ((layer.appendPatch outcome cf entries patchId).2.files).Perm (layer.files ++
      (List.replicate outcome.temps (Patch.sparse cf entries none) ++
        if outcome.written ∨ outcome.renamed then [Patch.sparse cf entries (some patchId)] else [])) := by
  unfold appendPatch files
  rw [if_neg hEntries]
  dsimp only
  split
  · next hWritten =>
    rw [if_pos (Or.inl hWritten), List.append_assoc, List.append_assoc]
    refine .append_left _ ?_
    rw [← List.append_assoc layer.images]
    exact List.perm_append_comm
  · next hNot =>
    split
    · next hRenamed =>
      rw [if_pos (Or.inr hRenamed)]
      simp only [List.append_assoc]
      exact .refl _
    · next hNeither =>
      rw [if_neg fun h => h.elim hNot hNeither]
      simp only [List.append_assoc, List.append_nil]
      exact .refl _

end DiskLayer

/-- A layer over files stands for this layer of patches: the index for the patches, and the
files that parse for the patches and the images that failed writes left. -/
structure FileLayer.StandsFor (codec : PatchCodec) (layer : FileLayer) (whole : DiskLayer) : Prop where
  index : layer.Mirrors codec whole.ofCf
  files : ∀ cf, ((layer.files.dir cf).readable codec).Perm
    ((whole.files.filter (·.cf = cf)).map Patch.entries)

/-- The layers over files stand for these layers of patches. -/
structure FileStore.Refines (codec : PatchCodec) (s : FileStore) (a : Store) : Prop where
  l1 : s.l1 = a.l1
  recentFlush : s.recentFlush = a.recentFlush
  l2 : s.l2.StandsFor codec a.l2
  l3 : s.l3.StandsFor codec a.l3
  nextPatchId : s.nextPatchId = a.nextPatchId
  numbered : s.Numbered codec

/-- What a call comes to. -/
def AppendCall.outcome (codec : PatchCodec) (call : AppendCall) : PatchOutcome where
  written := .completes ∈ call.attempts codec
  temps := (call.attempts codec).countP (·.LeavesWhole (call.size codec))
  renamed := ∃ a ∈ call.attempts codec, a.Renames

theorem AppendCall.outcome_written {codec : PatchCodec} {call : AppendCall} :
    (call.outcome codec).written = true ↔ .completes ∈ call.attempts codec := decide_eq_true_iff

section Layers
variable {codec : PatchCodec} {layer after : FileLayer} {whole : DiskLayer}

theorem FileLayer.StandsFor.reread (h : layer.StandsFor codec whole) (hRead : layer.Reread codec after) :
    after.StandsFor codec whole :=
  ⟨h.index.reread hRead, hRead.files.symm ▸ h.files⟩

/-- A write of a patch under a new name answers as its outcome says. -/
theorem FileLayer.append_alike (codec : PatchCodec) (layer : FileLayer) (call : AppendCall)
    (whole : DiskLayer) :
    Alike (layer.append codec call).1
      (whole.appendPatch (call.outcome codec) call.cf call.entries call.patchId).1 := by
  have hOk := (FileLayer.append_spec codec layer call).ok_iff
  generalize (layer.append codec call).1 = result at hOk ⊢
  by_cases hEntries : call.entries = []
  · rw [hOk.mpr (Or.inl hEntries), DiskLayer.appendPatch, if_pos hEntries]
    exact .ok ()
  · rw [or_iff_right hEntries] at hOk
    by_cases hDone : .completes ∈ call.attempts codec
    · rw [hOk.mpr hDone, DiskLayer.appendPatch_written hEntries (AppendCall.outcome_written.mpr hDone)]
      exact .ok ()
    · obtain ⟨images, hFailed⟩ := @DiskLayer.appendPatch_failed whole (call.outcome codec) call.cf _
        hEntries (fun h => hDone (AppendCall.outcome_written.mp h)) call.patchId
      rw [hFailed]
      cases result with
      | ok _ => exact absurd (hOk.mp rfl) hDone
      | error halt => exact .error halt _

/-- The call leaves what its outcome says. -/
theorem FileLayer.StandsFor.append (h : layer.StandsFor codec whole) (call : AppendCall)
    (hFresh : .final call.patchId ∉ layer.files.dir call.cf) :
    (layer.append codec call).2.StandsFor codec
      (whole.appendPatch (call.outcome codec) call.cf call.entries call.patchId).2 := by
  have hSpec := FileLayer.append_spec codec layer call
  have hIndex := hSpec.mirrors hFresh h.index
  by_cases hEntries : call.entries = []
  · have hNone : call.attempts codec = [] := by rw [AppendCall.attempts, if_pos (Or.inl hEntries)]
    rw [DiskLayer.appendPatch, if_pos hEntries]
    simp only [hNone, List.not_mem_nil, and_false, if_false, List.append_nil] at hIndex
    refine ⟨hIndex, fun cf => ?_⟩
    by_cases hCf : cf = call.cf
    · subst hCf
      refine (hSpec.readable hFresh).trans ?_
      rw [AppendCall.copies, hNone]
      exact h.files call.cf
    · rw [hSpec.others cf hCf]
      exact h.files cf
  · refine ⟨?_, fun cf => ?_⟩
    · have hSame : (fun cf => whole.ofCf cf ++
          if cf = call.cf ∧ .completes ∈ call.attempts codec then
            [Patch.sparse call.cf call.entries (some call.patchId)] else []) =
          (whole.appendPatch (call.outcome codec) call.cf call.entries call.patchId).2.ofCf := by
        funext cf
        by_cases hDone : .completes ∈ call.attempts codec
        · rw [DiskLayer.appendPatch_written hEntries (AppendCall.outcome_written.mpr hDone),
            DiskLayer.ofCf_append]
          simp only [hDone, and_true]
          congr 1
          apply if_congr _ rfl rfl
          exact eq_comm
        · obtain ⟨images, hFailed⟩ := @DiskLayer.appendPatch_failed whole (call.outcome codec) call.cf _
            hEntries (fun h => hDone (AppendCall.outcome_written.mp h)) call.patchId
          rw [hFailed, if_neg fun hBoth => hDone hBoth.2, List.append_nil]
          rfl
      rw [← hSame]
      exact hIndex
    · have hFiles := whole.files_appendPatch (call.outcome codec) call.cf call.patchId hEntries
      refine List.Perm.trans ?_ ((hFiles.filter _).map _).symm
      have hRenamed : (call.outcome codec).written = true ∨ (call.outcome codec).renamed = true ↔
          ∃ a ∈ call.attempts codec, a.Renames := by
        simp only [AppendCall.outcome, decide_eq_true_eq]
        exact ⟨fun hEither => hEither.elim (fun hDone => ⟨_, hDone, trivial⟩) id, Or.inr⟩
      rw [if_congr hRenamed rfl rfl, List.filter_append, List.map_append]
      by_cases hCf : cf = call.cf
      · subst hCf
        refine (hSpec.readable hFresh).trans (List.perm_append_comm.trans ((h.files call.cf).append ?_))
        apply List.Perm.of_eq
        have hOwn (name : Option Nat) : (Patch.sparse call.cf call.entries name).cf = call.cf := rfl
        have hContent (name : Option Nat) :
            (Patch.sparse call.cf call.entries name).entries = call.sorted := rfl
        rw [AppendCall.copies, List.replicate_add, List.filter_append, List.map_append]
        congr 1
        · simp [AppendCall.outcome, hOwn, hContent]
        · split <;> simp [hOwn, hContent]
      · rw [hSpec.others cf hCf]
        have hOther (name : Option Nat) : ¬ (Patch.sparse call.cf call.entries name).cf = cf :=
          fun hSame => hCf hSame.symm
        have hNone : (List.replicate (call.outcome codec).temps (Patch.sparse call.cf call.entries none) ++
            if ∃ a ∈ call.attempts codec, a.Renames then
              [Patch.sparse call.cf call.entries (some call.patchId)] else []).filter (·.cf = cf) = [] := by
          split <;> simp [hOther]
        rw [hNone, List.map_nil, List.append_nil]
        exact h.files cf

theorem FileLayer.StandsFor.dropCf (h : layer.StandsFor codec whole) (dropped : UInt16) :
    ∃ after, layer.dropCf .completes dropped = (.ok (), after) ∧
      after.StandsFor codec (whole.dropCf dropped) := by
  obtain ⟨files, hDrop, hFiles⟩ := layer.dropCf_completes dropped
  refine ⟨_, hDrop, ?_, fun cf => ?_⟩
  · have hSame : (fun cf => if cf = dropped then [] else whole.ofCf cf) = (whole.dropCf dropped).ofCf := by
      funext cf
      rw [DiskLayer.ofCf_dropCf]
    rw [← hSame]
    exact h.index.forget fun cf hCf => by rw [hFiles, if_neg hCf]
  · rw [hFiles, DiskLayer.files_dropCf, DiskLayer.filter_dropCf]
    split
    · exact .refl _
    · exact h.files cf

end Layers

/-- Only the outcomes under ids from the counter on matter. -/
theorem Store.appendGroups_congr (s : Store) {writes writes' : Nat → PatchOutcome}
    (h : ∀ id, s.nextPatchId ≤ id → writes id = writes' id) (groups : List (UInt16 × List PatchEntry)) :
    s.appendGroups writes groups = s.appendGroups writes' groups := by
  induction groups generalizing s with
  | nil => rfl
  | cons group rest ih =>
      rw [Store.appendGroups, Store.appendGroups, h s.nextPatchId le_rfl]
      generalize s.l2.appendPatch (writes' s.nextPatchId) group.1 group.2 s.nextPatchId = outcome
      obtain ⟨result, l2⟩ := outcome
      cases result with
      | error e => rfl
      | ok _ => exact ih _ fun id hLe => h id (Nat.le_of_succ_le hLe)

namespace Store

theorem allVersions_dropCf_nil {layer : DiskLayer} {cf : UInt16} (h : layer.allVersions cf = [])
    (dropped : UInt16) : (layer.dropCf dropped).allVersions cf = [] := by
  rw [← DiskLayer.allVersions_ofCf, DiskLayer.ofCf_dropCf]
  split
  · rfl
  · rw [DiskLayer.allVersions_ofCf]
    exact h

/-- A column family without versions gets none by a compaction. -/
theorem compactCf_allVersions_nil {s : Store} {cf : UInt16} (h : s.l2.allVersions cf = [])
    (writes : Nat → PatchOutcome) (watermark : TxnId) (other : UInt16) :
    (s.compactCf writes watermark other).2.l2.allVersions cf = [] := by
  unfold compactCf
  dsimp only
  split
  · exact h
  · split
    · exact allVersions_dropCf_nil h other
    · split
      · exact h
      · exact allVersions_dropCf_nil h other

theorem compactCf_nil {s : Store} {cf : UInt16} (h : s.l2.allVersions cf = []) (writes : Nat → PatchOutcome)
    (watermark : TxnId) : s.compactCf writes watermark cf = (.ok (0, 0), s) := by
  rw [compactCf, h]
  rfl

/-- Column families without versions may be left out. -/
theorem compactCfs_filter {s : Store} {keep : UInt16 → Bool}
    (h : ∀ cf, keep cf = false → s.l2.allVersions cf = []) (writes : Nat → PatchOutcome) (watermark : TxnId)
    (cfs : List UInt16) :
    s.compactCfs writes watermark cfs = s.compactCfs writes watermark (cfs.filter keep) := by
  induction cfs generalizing s with
  | nil => rfl
  | cons cf rest ih =>
      rw [compactCfs]
      by_cases hKeep : keep cf = true
      · rw [List.filter_cons_of_pos hKeep, compactCfs]
        have hNext (other : UInt16) (hOther : keep other = false) :
            (s.compactCf writes watermark cf).2.l2.allVersions other = [] :=
          compactCf_allVersions_nil (h other hOther) writes watermark cf
        generalize s.compactCf writes watermark cf = outcome at hNext ⊢
        obtain ⟨result, after⟩ := outcome
        cases result with
        | error e => rfl
        | ok counts =>
            dsimp only
            rw [ih hNext]
      · have hNone := h cf (by simpa using hKeep)
        rw [List.filter_cons_of_neg hKeep, compactCf_nil hNone, ← ih h]
        dsimp only
        generalize s.compactCfs writes watermark rest = outcome
        obtain ⟨result, after⟩ := outcome
        cases result with
        | error e => rfl
        | ok counts =>
            obtain ⟨cfs', reclaimed'⟩ := counts
            simp only [Nat.zero_add]

/-- Only the outcomes under ids from the counter on matter. -/
theorem compactCf_congr (s : Store) {writes writes' : Nat → PatchOutcome}
    (h : writes s.nextPatchId = writes' s.nextPatchId) (watermark : TxnId) (cf : UInt16) :
    s.compactCf writes watermark cf = s.compactCf writes' watermark cf := by
  simp only [compactCf, h]

theorem compactCf_nextPatchId (s : Store) (writes : Nat → PatchOutcome) (watermark : TxnId) (cf : UInt16) :
    (s.compactCf writes watermark cf).2.nextPatchId = s.nextPatchId ∨
      (s.compactCf writes watermark cf).2.nextPatchId = s.nextPatchId + 1 := by
  unfold compactCf
  dsimp only
  split
  · exact .inl rfl
  · split
    · exact .inl rfl
    · split
      · exact .inr rfl
      · exact .inr rfl

/-- A compaction that takes no id does not ask whether a write succeeds. -/
theorem compactCf_of_kept {s : Store} {writes : Nat → PatchOutcome} {watermark : TxnId} {cf : UInt16}
    (h : (s.compactCf writes watermark cf).2.nextPatchId = s.nextPatchId) (writes' : Nat → PatchOutcome) :
    s.compactCf writes' watermark cf = s.compactCf writes watermark cf := by
  unfold compactCf at h ⊢
  dsimp only at h ⊢
  split
  · rfl
  · next hVersions =>
    rw [if_neg hVersions] at h
    split
    · rfl
    · next hRetained =>
      rw [if_neg hRetained] at h
      split at h
      · exact absurd h (Nat.succ_ne_self _)
      · exact absurd h (Nat.succ_ne_self _)

theorem compactCfs_congr (s : Store) {writes writes' : Nat → PatchOutcome}
    (h : ∀ id, s.nextPatchId ≤ id → writes id = writes' id) (watermark : TxnId) (cfs : List UInt16) :
    s.compactCfs writes watermark cfs = s.compactCfs writes' watermark cfs := by
  induction cfs generalizing s with
  | nil => rfl
  | cons cf rest ih =>
      rw [compactCfs, compactCfs, s.compactCf_congr (h s.nextPatchId le_rfl)]
      have hNext := s.compactCf_nextPatchId writes' watermark cf
      generalize s.compactCf writes' watermark cf = outcome at hNext ⊢
      obtain ⟨result, after⟩ := outcome
      cases result with
      | error e => rfl
      | ok counts =>
          dsimp only at hNext ⊢
          rw [ih after fun id hLe => h id (by omega)]

end Store

namespace FileStore
variable {codec : PatchCodec} {s : FileStore} {a : Store}

/-- A read changes caches only. -/
theorem Refines.reread (h : s.Refines codec a) {l2 l3 : FileLayer} (hRead2 : s.l2.Reread codec l2)
    (hRead3 : s.l3.Reread codec l3) : Refines codec { s with l2, l3 } a := by
  refine ⟨h.l1, h.recentFlush, h.l2.reread hRead2, h.l3.reread hRead3, h.nextPatchId, ?_⟩
  exact ⟨hRead2.files ▸ h.numbered.intact2, hRead3.files ▸ h.numbered.intact3,
    hRead2.files ▸ h.numbered.below2, hRead3.files ▸ h.numbered.below3, h.numbered.targets⟩

theorem Refines.getAt (h : s.Refines codec a) (snap : TxnSnapshot) (cf : UInt16) (key : Bytes) :
    ∃ after, s.getAt codec snap cf key = (.ok (a.getAt snap cf key), after) ∧ after.Refines codec a := by
  obtain ⟨l2, hL2, hRead2⟩ := h.l2.index.getVersions cf key
  obtain ⟨l3, hL3, hRead3⟩ := h.l3.index.getVersions cf key
  refine ⟨{ s with l2, l3 }, ?_, h.reread hRead2 hRead3⟩
  rw [FileStore.getAt, hL2]
  dsimp only
  rw [hL3]
  simp only [Store.getAt, Store.candidates, DiskLayer.getVersions_ofCf, h.l1, h.recentFlush]

theorem Refines.scanAt (h : s.Refines codec a) (snap : TxnSnapshot) (cf : UInt16) (start : Bytes)
    (endKey : Option Bytes) :
    ∃ after, s.scanAt codec snap cf start endKey = (.ok (a.scanAt snap cf start endKey), after) ∧
      after.Refines codec a := by
  obtain ⟨l2, hL2, hRead2⟩ := h.l2.index.rangeVisible cf start endKey
  obtain ⟨l3, hL3, hRead3⟩ := h.l3.index.rangeVisible cf start endKey
  refine ⟨{ s with l2, l3 }, ?_, h.reread hRead2 hRead3⟩
  rw [FileStore.scanAt, hL2]
  dsimp only
  rw [hL3]
  simp only [Store.scanAt, DiskLayer.rangeVisible_ofCf, h.l1, h.recentFlush]

theorem Refines.appendGroups (h : s.Refines codec a) (writes : Nat → PatchWrite)
    (groups : List (UInt16 × List PatchEntry)) :
    ∃ written : Nat → PatchOutcome,
      Alike (s.appendGroups codec writes groups).1 (a.appendGroups written groups).1 ∧
        (s.appendGroups codec writes groups).2.Refines codec (a.appendGroups written groups).2 := by
  induction groups generalizing s a with
  | nil => exact ⟨fun _ => .succeeds, .ok (), h⟩
  | cons group rest ih =>
      obtain ⟨cf, entries⟩ := group
      obtain ⟨hTaken, hId⟩ := h.numbered.takeId .l2 cf
      have hNumbered := hTaken.appendL2 (writes s.nextPatchId) cf entries hId
      let call : AppendCall := ⟨writes s.nextPatchId, cf, entries, s.nextPatchId⟩
      have hAlike := FileLayer.append_alike codec s.l2 call a.l2
      have hStands := h.l2.append call (h.numbered.fresh2 cf)
      generalize call.outcome codec = here at hAlike hStands
      simp only [FileLayer.append] at hAlike hStands
      rw [FileStore.appendGroups]
      dsimp only [FileStore.takeId] at hNumbered ⊢
      generalize s.l2.appendPatch codec (writes s.nextPatchId) cf entries s.nextPatchId = onFiles
        at hAlike hStands hNumbered ⊢
      obtain ⟨result, l2⟩ := onFiles
      generalize hOnPatches : a.l2.appendPatch here cf entries s.nextPatchId = onPatches
        at hAlike hStands
      obtain ⟨result', l2'⟩ := onPatches
      rw [h.nextPatchId] at hOnPatches
      cases hAlike with
      | error halt e =>
          refine ⟨fun _ => here, ?_, ?_⟩
          · simp only [Store.appendGroups, hOnPatches]
            exact .error halt e
          · simp only [Store.appendGroups, hOnPatches]
            exact ⟨h.l1, h.recentFlush, hStands, h.l3, congrArg Nat.succ h.nextPatchId, hNumbered⟩
      | ok _ =>
          have hNext : Refines codec
              { s with
                l2
                nextPatchId := s.nextPatchId + 1
                targets := s.targets ++ [⟨s.l2.files, s.l3.files, .l2, cf, s.nextPatchId⟩] }
              { a with l2 := l2', nextPatchId := a.nextPatchId + 1 } :=
            ⟨h.l1, h.recentFlush, hStands, h.l3, congrArg Nat.succ h.nextPatchId, hNumbered⟩
          obtain ⟨later, hRest, hRefines⟩ := ih hNext
          have hLater := Store.appendGroups_congr { a with l2 := l2', nextPatchId := a.nextPatchId + 1 }
            (fun id (hLe : a.nextPatchId + 1 ≤ id) => (if_neg (Nat.ne_of_gt hLe)).symm :
              ∀ id, a.nextPatchId + 1 ≤ id → later id = if id = a.nextPatchId then here else later id) rest
          refine ⟨fun id => if id = a.nextPatchId then here else later id, ?_, ?_⟩
          · simp only [Store.appendGroups, if_true, hOnPatches]
            rw [← hLater]
            exact hRest
          · simp only [Store.appendGroups, if_true, hOnPatches]
            rw [← hLater]
            exact hRefines

theorem Refines.stage (h : s.Refines codec a) : s.stage.Refines codec a.stage := by
  refine ⟨?_, ?_, h.l2, h.l3, h.nextPatchId,
    h.numbered.intact2, h.numbered.intact3, h.numbered.below2, h.numbered.below3, h.numbered.targets⟩
  · simp only [FileStore.stage, Store.stage, h.l1]
  · simp only [FileStore.stage, Store.stage, h.l1, h.recentFlush]

theorem Refines.flushL1ToL2 (h : s.Refines codec a) (writes : Nat → PatchWrite) :
    ∃ written : Nat → PatchOutcome,
      Alike (s.flushL1ToL2 codec writes).1 (a.flushL1ToL2 written).1 ∧
        (s.flushL1ToL2 codec writes).2.Refines codec (a.flushL1ToL2 written).2 := by
  have hStage := h.stage
  obtain ⟨written, hAlike, hRefines⟩ :=
    hStage.appendGroups writes (cfGroups s.stage.recentFlush.values)
  refine ⟨written, ?_⟩
  rw [FileStore.flushL1ToL2, Store.flushL1ToL2]
  rw [hStage.recentFlush] at hAlike hRefines ⊢
  generalize s.stage.appendGroups codec writes (cfGroups a.stage.recentFlush.values) = onFiles
    at hAlike hRefines ⊢
  generalize a.stage.appendGroups written (cfGroups a.stage.recentFlush.values) = onPatches
    at hAlike hRefines ⊢
  obtain ⟨result, s'⟩ := onFiles
  obtain ⟨result', a'⟩ := onPatches
  cases hAlike with
  | error halt e => exact ⟨.error halt e, hRefines⟩
  | ok _ =>
      exact ⟨.ok _, hRefines.l1, rfl, hRefines.l2, hRefines.l3, hRefines.nextPatchId,
        hRefines.numbered.intact2, hRefines.numbered.intact3, hRefines.numbered.below2,
        hRefines.numbered.below3, hRefines.numbered.targets⟩

theorem Refines.dropL2 (h : s.Refines codec a) (counts : Nat × Nat) (cf : UInt16) :
    ∃ after, s.dropL2 (fun _ => .completes) counts cf = (.ok counts, after) ∧
      after.Refines codec { a with l2 := a.l2.dropCf cf } := by
  obtain ⟨l2, hDrop, hStands⟩ := h.l2.dropCf cf
  have hNumbered := h.numbered.dropL2 (fun _ => .completes) counts cf
  refine ⟨{ s with l2 }, ?_, h.l1, h.recentFlush, hStands, h.l3, h.nextPatchId, ?_⟩
  · rw [FileStore.dropL2, hDrop]
  · rw [FileStore.dropL2, hDrop] at hNumbered
    exact hNumbered

theorem Refines.compactCf (h : s.Refines codec a) (writes : Nat → PatchWrite) (watermark : TxnId)
    (cf : UInt16) :
    ∃ written : PatchOutcome,
      Alike (s.compactCf codec writes (fun _ => .completes) watermark cf).1
          (a.compactCf (fun _ => written) watermark cf).1 ∧
        (s.compactCf codec writes (fun _ => .completes) watermark cf).2.Refines codec
          (a.compactCf (fun _ => written) watermark cf).2 := by
  obtain ⟨l2, hVersions, hReread⟩ := h.l2.index.allVersions cf
  have hRead := h.reread hReread ⟨rfl, rfl, h.l3.index.cache⟩
  rw [DiskLayer.allVersions_ofCf] at hVersions
  rw [FileStore.compactCf, hVersions]
  unfold Store.compactCf
  dsimp only
  generalize a.l2.allVersions cf = versions
  split
  · exact ⟨.succeeds, .ok _, hRead⟩
  · generalize gcEntries (versions.map PatchEntry.ofZ1Entry) watermark = kept
    obtain ⟨retained, stats⟩ := kept
    dsimp only
    split
    · obtain ⟨after, hDrop, hAfter⟩ := hRead.dropL2 (1, stats.reclaimed) cf
      rw [hDrop]
      exact ⟨.succeeds, .ok _, hAfter⟩
    · obtain ⟨hTaken, hId⟩ := hRead.numbered.takeId .l3 cf
      have hNumbered := hTaken.appendL3 (writes s.nextPatchId) cf retained hId
      let call : AppendCall := ⟨writes s.nextPatchId, cf, retained, s.nextPatchId⟩
      have hAlike := FileLayer.append_alike codec s.l3 call a.l3
      have hStands := hRead.l3.append call (h.numbered.fresh3 cf)
      generalize call.outcome codec = written at hAlike hStands
      simp only [FileLayer.append] at hAlike hStands
      refine ⟨written, ?_⟩
      dsimp only [FileStore.takeId] at hNumbered ⊢
      generalize s.l3.appendPatch codec (writes s.nextPatchId) cf retained s.nextPatchId = onFiles
        at hAlike hStands hNumbered ⊢
      rw [← h.nextPatchId]
      generalize a.l3.appendPatch written cf retained s.nextPatchId = onPatches at hAlike hStands ⊢
      obtain ⟨result, l3⟩ := onFiles
      obtain ⟨result', l3'⟩ := onPatches
      cases hAlike with
      | error halt e =>
          exact ⟨.error halt e, h.l1, h.recentFlush, hRead.l2, hStands, congrArg Nat.succ rfl, hNumbered⟩
      | ok _ =>
          have hNext : Refines codec
              { s with
                l2, l3
                nextPatchId := s.nextPatchId + 1
                targets := s.targets ++ [⟨l2.files, s.l3.files, .l3, cf, s.nextPatchId⟩] }
              { a with l3 := l3', nextPatchId := s.nextPatchId + 1 } :=
            ⟨h.l1, h.recentFlush, hRead.l2, hStands, rfl, hNumbered⟩
          obtain ⟨after, hDrop, hAfter⟩ := hNext.dropL2 (1, stats.reclaimed) cf
          dsimp only at hDrop hAfter ⊢
          rw [hDrop]
          exact ⟨.ok _, hAfter⟩

theorem Refines.compactCfs (h : s.Refines codec a) (writes : Nat → PatchWrite) (watermark : TxnId)
    (cfs : List UInt16) :
    ∃ written : Nat → PatchOutcome,
      Alike (s.compactCfs codec writes (fun _ => .completes) watermark cfs).1
          (a.compactCfs written watermark cfs).1 ∧
        (s.compactCfs codec writes (fun _ => .completes) watermark cfs).2.Refines codec
          (a.compactCfs written watermark cfs).2 := by
  induction cfs generalizing s a with
  | nil => exact ⟨fun _ => .succeeds, .ok _, h⟩
  | cons cf rest ih =>
      obtain ⟨here, hAlike, hRefines⟩ := h.compactCf writes watermark cf
      have hNext := a.compactCf_nextPatchId (fun _ => here) watermark cf
      have hKept := @Store.compactCf_of_kept a (fun _ => here) watermark cf
      rw [FileStore.compactCfs]
      generalize s.compactCf codec writes (fun _ => .completes) watermark cf = onFiles
        at hAlike hRefines ⊢
      generalize hOnPatches : a.compactCf (fun _ => here) watermark cf = onPatches
        at hAlike hRefines hNext hKept
      obtain ⟨result, s'⟩ := onFiles
      obtain ⟨result', a'⟩ := onPatches
      cases hAlike with
      | error halt e =>
          refine ⟨fun _ => here, ?_⟩
          rw [Store.compactCfs, hOnPatches]
          exact ⟨.error halt e, hRefines⟩
      | ok counts =>
          obtain ⟨later, hRest, hAfter⟩ := ih hRefines
          -- the outcome of this family's write, if it makes one, and those of the later ones
          let written : Nat → PatchOutcome := fun id =>
            if a'.nextPatchId ≤ id then later id else here
          have hHere : a.compactCf written watermark cf = (.ok counts, a') := by
            rcases hNext with hSame | hTook
            · exact hKept hSame written
            · rw [← hOnPatches]
              apply a.compactCf_congr
              exact if_neg (by dsimp only at hTook; omega)
          have hLater : a'.compactCfs written watermark rest = a'.compactCfs later watermark rest :=
            a'.compactCfs_congr (fun id hLe => if_pos hLe) watermark rest
          refine ⟨written, ?_⟩
          rw [Store.compactCfs, hHere]
          dsimp only
          rw [hLater]
          generalize s'.compactCfs codec writes (fun _ => .completes) watermark rest = onFiles
            at hRest hAfter ⊢
          generalize a'.compactCfs later watermark rest = onPatches at hRest hAfter ⊢
          obtain ⟨result, s''⟩ := onFiles
          obtain ⟨result', a''⟩ := onPatches
          cases hRest with
          | error halt e => exact ⟨.error halt e, hAfter⟩
          | ok more => exact ⟨.ok _, hAfter⟩

/-- The index lists the column families that have versions. -/
theorem Refines.listCfs (h : s.Refines codec a) :
    s.l2.listCfs.filter (fun cf => a.l2.allVersions cf ≠ []) =
      a.l2.listCfs.filter fun cf => a.l2.allVersions cf ≠ [] := by
  have hAntisymm : ∀ x y : UInt16, x.toNat ≤ y.toNat → y.toNat ≤ x.toNat → x = y :=
    fun x y hxy hyx => UInt16.toNat_inj.mp (Nat.le_antisymm hxy hyx)
  have hTrans : IsTrans UInt16 fun x y => x.toNat ≤ y.toNat := ⟨fun _ _ _ => Nat.le_trans⟩
  have hTotal : Std.Total fun x y : UInt16 => x.toNat ≤ y.toNat := ⟨fun x y => Nat.le_total _ _⟩
  apply List.Perm.eq_of_pairwise (fun x y _ _ => hAntisymm x y)
    ((List.pairwise_insertionSort _ _).filter _) ((List.pairwise_insertionSort _ _).filter _)
  have hNodup {l : List UInt16} (hl : l.Nodup) :
      ((l.insertionSort fun x y => x.toNat ≤ y.toNat).filter
        fun cf => a.l2.allVersions cf ≠ []).Nodup :=
    ((List.perm_insertionSort _ _).nodup_iff.mpr hl).filter _
  refine (List.perm_ext_iff_of_nodup (hNodup (AList.keys_nodup _)) (hNodup (List.nodup_dedup _))).mpr ?_
  intro cf
  simp only [List.mem_filter, List.mem_insertionSort, List.mem_dedup, List.mem_map]
  apply and_congr_left
  intro hVersions
  have hPatch : a.l2.ofCf cf ≠ [] := by
    intro hNone
    rw [← DiskLayer.allVersions_ofCf, hNone] at hVersions
    simp [DiskLayer.allVersions] at hVersions
  obtain ⟨p, rest, hCons⟩ := List.exists_cons_of_ne_nil hPatch
  have hMem : p ∈ a.l2.ofCf cf := by
    rw [hCons]
    exact List.mem_cons_self
  constructor
  · intro _
    obtain ⟨hIn, hCf⟩ := List.mem_filter.mp hMem
    exact ⟨p, hIn, of_decide_eq_true hCf⟩
  · intro _
    have hIndex := h.l2.index.index cf
    rw [hCons] at hIndex
    unfold FileLayer.ranges at hIndex
    apply AList.lookup_isSome.mp
    cases hLookup : AList.lookup cf s.l2.index with
    | some entries => rfl
    | none =>
        rw [hLookup] at hIndex
        cases hIndex

theorem Refines.compactL2ToL3 (h : s.Refines codec a) (writes : Nat → PatchWrite) (watermark : TxnId) :
    ∃ written : Nat → PatchOutcome,
      Alike (s.compactL2ToL3 codec writes (fun _ => .completes) watermark).1
          (a.compactL2ToL3 written watermark).1 ∧
        (s.compactL2ToL3 codec writes (fun _ => .completes) watermark).2.Refines codec
          (a.compactL2ToL3 written watermark).2 := by
  obtain ⟨written, hAlike, hRefines⟩ := h.compactCfs writes watermark s.l2.listCfs
  have hSkip (cfs : List UInt16) := @Store.compactCfs_filter a
    (fun cf => a.l2.allVersions cf ≠ []) (fun cf hNone => by simpa using hNone) written watermark cfs
  have hSame : a.compactCfs written watermark s.l2.listCfs = a.compactL2ToL3 written watermark := by
    rw [Store.compactL2ToL3, hSkip s.l2.listCfs, h.listCfs, ← hSkip a.l2.listCfs]
  rw [hSame] at hAlike hRefines
  exact ⟨written, hAlike, hRefines⟩

/-- One call on the files is one call on the patches. -/
theorem Refines.layerStep (h : s.Refines codec a) (op : LayerOp PatchWrite) :
    ∃ op' : LayerOp PatchOutcome, (op.SameCall op' ∧ Alike (s.layerStep codec op).1 (a.layerStep op').1) ∧
      (s.layerStep codec op).2.Refines codec (a.layerStep op').2 := by
  cases op with
  | put e =>
      refine ⟨.put e, ⟨.put e, .ok _⟩, congrArg (MemStore.replayPut · e) h.l1,
        h.recentFlush, h.l2, h.l3, h.nextPatchId, ?_⟩
      exact ⟨h.numbered.intact2, h.numbered.intact3, h.numbered.below2, h.numbered.below3,
        h.numbered.targets⟩
  | flushL1ToL2 writes =>
      obtain ⟨written, hAlike, hRefines⟩ := h.flushL1ToL2 writes
      refine ⟨.flushL1ToL2 written, ?_⟩
      rw [FileStore.layerStep, Store.layerStep]
      generalize s.flushL1ToL2 codec writes = onFiles at hAlike hRefines ⊢
      generalize a.flushL1ToL2 written = onPatches at hAlike hRefines ⊢
      obtain ⟨result, s'⟩ := onFiles
      obtain ⟨result', a'⟩ := onPatches
      cases hAlike with
      | error halt e => exact ⟨⟨.flushL1ToL2 writes written, .error halt e⟩, hRefines⟩
      | ok groups => exact ⟨⟨.flushL1ToL2 writes written, .ok _⟩, hRefines⟩
  | compactL2ToL3 writes minActiveBeginTs =>
      obtain ⟨written, hAlike, hRefines⟩ := h.compactL2ToL3 writes minActiveBeginTs
      refine ⟨.compactL2ToL3 written minActiveBeginTs, ?_⟩
      rw [FileStore.layerStep, Store.layerStep]
      generalize s.compactL2ToL3 codec writes (fun _ => .completes) minActiveBeginTs = onFiles
        at hAlike hRefines ⊢
      generalize a.compactL2ToL3 written minActiveBeginTs = onPatches at hAlike hRefines ⊢
      obtain ⟨result, s'⟩ := onFiles
      obtain ⟨result', a'⟩ := onPatches
      cases hAlike with
      | error halt e =>
          exact ⟨⟨.compactL2ToL3 writes written minActiveBeginTs, .error halt e⟩, hRefines⟩
      | ok counts => exact ⟨⟨.compactL2ToL3 writes written minActiveBeginTs, .ok _⟩, hRefines⟩
  | getAt snap cf key =>
      obtain ⟨after, hGet, hRefines⟩ := h.getAt snap cf key
      refine ⟨.getAt snap cf key, ⟨.getAt snap cf key, ?_⟩, ?_⟩
      · rw [FileStore.layerStep, hGet, Store.layerStep]
        exact .ok _
      · rw [FileStore.layerStep, hGet, Store.layerStep]
        exact hRefines
  | scanAt snap cf start endKey =>
      obtain ⟨after, hScan, hRefines⟩ := h.scanAt snap cf start endKey
      refine ⟨.scanAt snap cf start endKey, ⟨.scanAt snap cf start endKey, ?_⟩, ?_⟩
      · rw [FileStore.layerStep, hScan, Store.layerStep]
        exact .ok _
      · rw [FileStore.layerStep, hScan, Store.layerStep]
        exact hRefines

end FileStore

/-- Patches that are given for each column family, as one layer. -/
theorem FileLayer.Mirrors.exists_ofCf {codec : PatchCodec} {layer : FileLayer}
    {patches : UInt16 → List Patch} (h : layer.Mirrors codec patches) :
    ∃ whole : DiskLayer, whole.images = [] ∧ whole.ofCf = patches := by
  refine ⟨⟨layer.index.keys.flatMap patches, []⟩, rfl, funext fun cf => ?_⟩
  have hOwn (other : UInt16) :
      (patches other).filter (fun p => p.cf = cf) = if other = cf then patches cf else [] := by
    split
    · next hCf =>
      rw [hCf, List.filter_eq_self]
      exact fun p hp => decide_eq_true (h.owned cf p hp)
    · next hCf =>
      rw [List.filter_eq_nil_iff]
      intro p hp
      rw [h.owned other p hp]
      simpa using hCf
  have hAbsent (hCf : cf ∉ layer.index.keys) : patches cf = [] := by
    have hIndex := h.index cf
    rw [FileLayer.ranges, AList.lookup_eq_none.mpr hCf] at hIndex
    exact List.forall₂_nil_left_iff.mp hIndex
  have hNodup := layer.index.keys_nodup
  rw [DiskLayer.ofCf]
  dsimp only
  generalize layer.index.keys = keys at hAbsent hNodup ⊢
  induction keys with
  | nil => exact (hAbsent List.not_mem_nil).symm
  | cons key rest ih =>
      obtain ⟨hNotIn, hRest⟩ := List.nodup_cons.mp hNodup
      rw [List.flatMap_cons, List.filter_append, hOwn]
      by_cases hKey : key = cf
      · subst hKey
        have hOthers : (rest.flatMap patches).filter (fun p => p.cf = key) = [] := by
          rw [List.filter_eq_nil_iff]
          intro p hp hCf
          obtain ⟨other, hOther, hIn⟩ := List.mem_flatMap.mp hp
          rw [h.owned other p hIn, decide_eq_true_eq] at hCf
          exact hNotIn (hCf ▸ hOther)
        rw [if_pos rfl, hOthers, List.append_nil]
      · rw [if_neg hKey, List.nil_append]
        apply ih _ hRest
        intro hNot
        apply hAbsent
        rw [List.mem_cons]
        rintro (hHere | hIn)
        · exact hKey hHere.symm
        · exact hNot hIn

/-- A layer opened on sorted files stands for the patches in them. -/
theorem FileLayer.exists_standsFor_new {codec : PatchCodec} {files : PatchTree}
    (h : files.Sorted codec) (listing : ReadDir) :
    ∃ whole : DiskLayer, whole.images = [] ∧ (FileLayer.new codec listing files).StandsFor codec whole := by
  obtain ⟨patches, hMirrors, hEntries⟩ := FileLayer.mirrors_new h listing
  obtain ⟨whole, hNone, hWhole⟩ := hMirrors.exists_ofCf
  refine ⟨whole, hNone, hWhole.symm ▸ hMirrors, fun cf => ?_⟩
  have hFiles : whole.files.filter (·.cf = cf) = patches cf := by
    rw [DiskLayer.files, hNone, List.append_nil, ← hWhole, DiskLayer.ofCf]
  rw [hFiles]
  exact (hEntries cf).symm

/-- Whichever way the files are listed, an open on them gives a layer that has exactly the
patches and the images of this one, all of them in its index. -/
def PatchTree.OpensAs (codec : PatchCodec) (files : PatchTree) (whole : DiskLayer) : Prop :=
  ∀ listing, ∃ opened : DiskLayer, opened.images = [] ∧
    (FileLayer.new codec listing files).StandsFor codec opened ∧
    ∀ cf, ((opened.ofCf cf).map Patch.entries).Perm ((whole.files.filter (·.cf = cf)).map Patch.entries)

theorem FileLayer.StandsFor.opensAs {codec : PatchCodec} {layer : FileLayer} {whole : DiskLayer}
    (h : layer.StandsFor codec whole) : layer.files.OpensAs codec whole := by
  intro listing
  have hSorted : layer.files.Sorted codec := by
    intro cf content hContent
    obtain ⟨p, -, rfl⟩ := List.mem_map.mp ((h.files cf).mem_iff.mp hContent)
    exact p.sorted
  obtain ⟨opened, hNone, hStands⟩ := FileLayer.exists_standsFor_new hSorted listing
  refine ⟨opened, hNone, hStands, fun cf => ?_⟩
  have hFiles := hStands.files cf
  rw [DiskLayer.files, hNone, List.append_nil] at hFiles
  exact hFiles.symm.trans (h.files cf)

/-- On the files that any sessions left, every session of puts, flushes, compactions and reads
answers as layers of patches do. Files of patches are only ever read back as they were
written, so in particular no read of a session fails; and the next open finds the patches
and the images that failed writes left. -/
theorem patch_files_refine_layers (codec : PatchCodec) (calls : List StoreCall) (listing : ReadDir)
    (l1 : MemStore) (ops : List (LayerOp PatchWrite)) :
    let left := StoreState.after codec calls
    let s := FileStore.openStore codec listing l1 (left.files .l2) (left.files .l3) left.targets
    ∃ (a : Store) (ops' : List (LayerOp PatchOutcome)), s.Refines codec a ∧
      List.Forall₂ SameEvent (runs (FileStore.layerStep codec) s ops).1
        (runs Store.layerStep a ops').1 ∧
      (runs (FileStore.layerStep codec) s ops).2.Refines codec (runs Store.layerStep a ops').2 ∧
      (runs (FileStore.layerStep codec) s ops).2.l2.files.OpensAs codec (runs Store.layerStep a ops').2.l2 ∧
      (runs (FileStore.layerStep codec) s ops).2.l3.files.OpensAs codec
        (runs Store.layerStep a ops').2.l3 := by
  intro left s
  have hOrdered := StoreState.ordered_after codec calls
  obtain ⟨l2, -, hL2⟩ := FileLayer.exists_standsFor_new (hOrdered.sorted .l2) listing
  obtain ⟨l3, -, hL3⟩ := FileLayer.exists_standsFor_new (hOrdered.sorted .l3) listing
  have hOpened : s.Refines codec ⟨l1, ∅, l2, l3, s.nextPatchId⟩ :=
    ⟨rfl, rfl, hL2, hL3, rfl, hOrdered.numbered.openStore listing l1⟩
  have hStep (onFiles : FileStore) (onPatches : Store) (op : LayerOp PatchWrite)
      (hHere : onFiles.Refines codec onPatches) :
      ∃ op', SameEvent (op, (onFiles.layerStep codec op).1) (op', (onPatches.layerStep op').1) ∧
        (onFiles.layerStep codec op).2.Refines codec (onPatches.layerStep op').2 := hHere.layerStep op
  obtain ⟨ops', hEvents, hLast⟩ := runs_simulates hStep hOpened ops
  exact ⟨_, ops', hOpened, hEvents, hLast, hLast.l2.opensAs, hLast.l3.opensAs⟩

end Z1Kv
