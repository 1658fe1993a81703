import Z1Kv.Store.PatchRuns

/-! A layer over files under any sequence of calls and reopens, and when its files are
those of the calls that returned `Ok`. The index is rebuilt from every file of a directory
that parses, whatever its name. -/
namespace Z1Kv

inductive LayerCall
  | appendPatch (call : AppendCall)
  | dropCf (cf : UInt16)
  | getVersions (cf : UInt16) (key : Bytes)
  | rangeVisible (cf : UInt16) (start : Bytes) (endKey : Option Bytes)
  | allVersions (cf : UInt16)
  | reopen (listing : ReadDir)

inductive LayerAnswer
  | returned (result : Except Halt Unit)
  | versions (result : Except PatchError (List Z1Entry))
  | pairs (result : Except PatchError (List (Bytes × Z1Entry)))
  | opened
  | down
  deriving DecidableEq

/-- A process with the layer open, or the files that one left behind. -/
inductive LayerState
  | running (layer : FileLayer)
  | stopped (files : PatchTree)

namespace LayerState

def files : LayerState → PatchTree
  | running layer => layer.files
  | stopped files => files

/-- The layer after a call, or its files after a crash. -/
def ofResult (result : Except Halt Unit) (layer : FileLayer) : LayerState :=
  match result with
  | .error .crash => .stopped layer.files
  | _ => .running layer

def step (codec : PatchCodec) : LayerState → LayerCall → LayerAnswer × LayerState
  | state, .reopen listing => (.opened, .running (FileLayer.new codec listing state.files))
  | .stopped files, _ => (.down, .stopped files)
  | .running layer, .appendPatch call =>
      let (result, layer) := layer.append codec call
      (.returned result, ofResult result layer)
  | .running layer, .dropCf cf =>
      let (result, layer) := layer.dropCf .completes cf
      (.returned result, ofResult result layer)
  | .running layer, .getVersions cf key =>
      let (result, layer) := layer.getVersions codec cf key
      (.versions result, .running layer)
  | .running layer, .rangeVisible cf start endKey =>
      let (result, layer) := layer.rangeVisible codec cf start endKey
      (.pairs result, .running layer)
  | .running layer, .allVersions cf =>
      let (result, layer) := layer.allVersions codec cf
      (.versions result, .running layer)

theorem files_ofResult (result : Except Halt Unit) (layer : FileLayer) :
    (ofResult result layer).files = layer.files := by
  unfold ofResult
  split <;> rfl

end LayerState

/-- What an event makes of the entries of the successful appends since the last drop. -/
def account (entries : UInt16 → List PatchEntry) : LayerCall × LayerAnswer → UInt16 → List PatchEntry
  | (.appendPatch call, .returned (.ok ())) => fun cf =>
      if cf = call.cf then entries cf ++ call.entries else entries cf
  | (.dropCf dropped, .returned (.ok ())) => fun cf => if cf = dropped then [] else entries cf
  | _ => entries

/-- Entries of each column family that appends returning `Ok` have added since its last drop. -/
def appendedOk (events : List (LayerCall × LayerAnswer)) : UInt16 → List PatchEntry :=
  events.foldl account fun _ => []

theorem appendedOk_concat (events : List (LayerCall × LayerAnswer)) (event : LayerCall × LayerAnswer) :
    appendedOk (events ++ [event]) = account (appendedOk events) event := by
  rw [appendedOk, List.foldl_append]
  rfl

namespace AppendCall

/-- No attempt ends with all bytes of the patch under a temporary name. -/
def NoStray (codec : PatchCodec) (call : AppendCall) : Prop :=
  ∀ a ∈ call.attempts codec, ¬ a.LeavesWhole (call.size codec)

/-- No attempt leaves all bytes under a temporary name, and one that has renamed is
followed by one that completes. -/
def Traceless (codec : PatchCodec) (call : AppendCall) : Prop :=
  call.NoStray codec ∧
    ((∃ a ∈ call.attempts codec, a.Renames) → .completes ∈ call.attempts codec)

/-- A call that the file system does not disturb. -/
def undisturbed (cf : UInt16) (entries : List PatchEntry) (patchId : Nat) : AppendCall :=
  ⟨⟨none, .each .completes⟩, cf, entries, patchId⟩

/-- No file has the name of the patch. -/
def Fresh (files : PatchTree) (call : AppendCall) : Prop :=
  .final call.patchId ∉ files.dir call.cf

instance (files : PatchTree) (call : AppendCall) : Decidable (call.Fresh files) :=
  inferInstanceAs (Decidable (¬ NamedFile.final call.patchId ∈ files.dir call.cf))

variable {codec : PatchCodec} {call : AppendCall}

theorem noStray_iff : call.NoStray codec ↔
    (call.attempts codec).countP (·.LeavesWhole (call.size codec)) = 0 := by
  rw [List.countP_eq_zero]
  simp [NoStray]

theorem copies_of_completes (h : .completes ∈ call.attempts codec) :
    call.copies codec = (call.attempts codec).countP (·.LeavesWhole (call.size codec)) + 1 := by
  rw [copies, if_pos ⟨_, h, trivial⟩]

/-- A call that fails leaves no copy exactly when it is traceless. -/
theorem copies_eq_zero_iff (h : .completes ∉ call.attempts codec) :
    call.copies codec = 0 ↔ call.Traceless codec := by
  rw [copies, Nat.add_eq_zero_iff, ← noStray_iff, Traceless]
  by_cases hRenames : ∃ a ∈ call.attempts codec, a.Renames
  · simp [hRenames, h]
  · rw [if_neg hRenames]
    exact ⟨fun hNone => ⟨hNone.1, fun h => absurd h hRenames⟩, fun hNone => ⟨hNone.1, rfl⟩⟩

/-- A traceless call leaves its patch exactly when it succeeds. -/
theorem Traceless.copies (h : call.Traceless codec) :
    call.copies codec = if .completes ∈ call.attempts codec then 1 else 0 := by
  split
  · next hDone => rw [copies_of_completes hDone, noStray_iff.mp h.1]
  · next hNot => exact (copies_eq_zero_iff hNot).mpr h

end AppendCall

/-- The condition on a call: an append has a fresh name and leaves no trace of its own. -/
def LayerCall.Spares (codec : PatchCodec) (state : LayerState) : LayerCall → Prop
  | .appendPatch call => call.Fresh state.files ∧ call.Traceless codec
  | _ => True

/-- The files and the open layer hold the entries of the successful appends, and no
temporary file parses. -/
structure Tallied (codec : PatchCodec) (events : List (LayerCall × LayerAnswer)) (state : LayerState) :
    Prop where
  stores : state.files.Stores codec (appendedOk events)
  serves : ∀ layer, state = .running layer → layer.Serves codec (appendedOk events)
  temps : ∀ cf, (state.files.dir cf).TempsUnreadable codec

section
variable {codec : PatchCodec} {events : List (LayerCall × LayerAnswer)} {state : LayerState}
  {layer : FileLayer}

theorem FileLayer.Appended.account {call : AppendCall} {result : Except Halt Unit} {after : FileLayer}
    {entries : UInt16 → List PatchEntry} (h : layer.Appended codec call result after) :
    account entries (.appendPatch call, .returned result) = fun cf =>
      if cf = call.cf ∧ result = .ok () then entries cf ++ call.entries else entries cf := by
  funext cf
  cases result with
  | ok done => simp [Z1Kv.account]
  | error halt => simp [Z1Kv.account]

/-- The files after an append, with what a traceless one should have added. -/
theorem FileLayer.Appended.stores_account {call : AppendCall} {result : Except Halt Unit}
    {after : FileLayer} {entries : UInt16 → List PatchEntry} (h : layer.Appended codec call result after)
    (hFresh : call.Fresh layer.files) (hTraceless : call.Traceless codec)
    (hStores : layer.files.Stores codec entries) :
    after.files.Stores codec (Z1Kv.account entries (.appendPatch call, .returned result)) := by
  have hCopies := h.stores hFresh hStores
  rw [hTraceless.copies] at hCopies
  rw [h.account]
  have hOk := h.ok_iff
  have hSame : (fun cf => if cf = call.cf ∧ result = .ok () then entries cf ++ call.entries
      else entries cf) = fun cf =>
        if cf = call.cf then entries cf ++ (List.replicate
          (if .completes ∈ call.attempts codec then 1 else 0) call.entries).flatten
        else entries cf := by
    funext cf
    by_cases hCf : cf = call.cf
    · by_cases hDone : .completes ∈ call.attempts codec
      · simp [hCf, hDone, hOk]
      · by_cases hResult : result = .ok ()
        · simp [hCf, hDone, (hOk.mp hResult).resolve_right hDone]
        · simp [hCf, hDone, hResult]
    · simp [hCf]
  rw [hSame]
  exact hCopies

theorem FileLayer.Appended.temps {call : AppendCall} {result : Except Halt Unit} {after : FileLayer}
    (h : layer.Appended codec call result after) (hNoStray : call.NoStray codec)
    (hTemps : ∀ cf, (layer.files.dir cf).TempsUnreadable codec) (cf : UInt16) :
    (after.files.dir cf).TempsUnreadable codec := by
  by_cases hCf : cf = call.cf
  · obtain ⟨data, hDir, hData⟩ := h.dir
    rw [hCf, hDir]
    by_cases hNone : call.attempts codec = []
    · rw [hNone]
      exact hTemps call.cf
    · apply (hTemps call.cf).afterAll (hData hNone)
      rw [(PatchDir.readPatch_toDiskBytes (hData hNone)).2]
      exact hNoStray
  · rw [h.others cf hCf]
    exact hTemps cf

theorem Tallied.append {call : AppendCall} (h : Tallied codec events (.running layer))
    (hFresh : call.Fresh layer.files) (hTraceless : call.Traceless codec) :
    Tallied codec (events ++ [(.appendPatch call, .returned (layer.append codec call).1)])
      (.ofResult (layer.append codec call).1 (layer.append codec call).2) := by
  have hSpec := FileLayer.append_spec codec layer call
  refine ⟨?_, fun after hRunning => ?_, fun cf => ?_⟩
  · rw [LayerState.files_ofResult, appendedOk_concat]
    exact hSpec.stores_account hFresh hTraceless h.stores
  · have hServes := hSpec.serves hFresh (h.serves layer rfl)
    rw [appendedOk_concat, hSpec.account]
    unfold LayerState.ofResult at hRunning
    split at hRunning
    · cases hRunning
    · cases hRunning
      exact hServes
  · rw [LayerState.files_ofResult]
    exact hSpec.temps hTraceless.1 h.temps cf

theorem FileLayer.dropCf_temps (dropped : UInt16)
    (hTemps : ∀ cf, (layer.files.dir cf).TempsUnreadable codec) (cf : UInt16) :
    ((layer.dropCf .completes dropped).2.files.dir cf).TempsUnreadable codec := by
  unfold FileLayer.dropCf
  split
  · exact hTemps cf
  · dsimp only
    rw [PatchTree.dir_erase]
    split
    · intro patchId uuid bytes hLookup
      cases hLookup
    · exact hTemps cf

theorem Tallied.drop (h : Tallied codec events (.running layer)) (dropped : UInt16) :
    Tallied codec (events ++ [(.dropCf dropped, .returned (layer.dropCf .completes dropped).1)])
      (.ofResult (layer.dropCf .completes dropped).1 (layer.dropCf .completes dropped).2) := by
  obtain ⟨hOk, hStores, hServes⟩ := FileLayer.drop_spec codec layer dropped h.stores
  rw [hOk]
  refine ⟨?_, fun after hRunning => ?_, fun cf => ?_⟩
  · rw [appendedOk_concat]
    exact hStores
  · cases hRunning
    rw [appendedOk_concat]
    exact hServes _ (h.serves layer rfl)
  · exact FileLayer.dropCf_temps dropped h.temps cf

/-- A read leaves everything as it was. -/
theorem Tallied.reread {after : FileLayer} {event : LayerCall × LayerAnswer}
    (h : Tallied codec events (.running layer)) (hRead : layer.Reread codec after)
    (hEvent : account (appendedOk events) event = appendedOk events) :
    Tallied codec (events ++ [event]) (.running after) := by
  refine ⟨?_, fun running hRunning => ?_, fun cf => ?_⟩
  · rw [appendedOk_concat, hEvent, LayerState.files, hRead.files]
    exact h.stores
  · cases hRunning
    rw [appendedOk_concat, hEvent]
    exact (h.serves layer rfl).reread hRead
  · rw [LayerState.files, hRead.files]
    exact h.temps cf

theorem Tallied.down {files : PatchTree} {event : LayerCall × LayerAnswer}
    (h : Tallied codec events (.stopped files))
    (hEvent : account (appendedOk events) event = appendedOk events) :
    Tallied codec (events ++ [event]) (.stopped files) := by
  refine ⟨?_, fun layer hRunning => ?_, h.temps⟩
  · rw [appendedOk_concat, hEvent]
    exact h.stores
  · cases hRunning

theorem Tallied.step {call : LayerCall} (h : Tallied codec events state)
    (hSpares : call.Spares codec state) :
    Tallied codec (events ++ [(call, (state.step codec call).1)]) (state.step codec call).2 := by
  cases call with
  | reopen listing =>
      have hStep : state.step codec (.reopen listing) =
          (.opened, .running (FileLayer.new codec listing state.files)) := by
        cases state <;> rfl
      rw [hStep]
      refine ⟨?_, fun layer hRunning => ?_, h.temps⟩
      · rw [appendedOk_concat]
        exact h.stores
      · cases hRunning
        rw [appendedOk_concat]
        exact FileLayer.serves_new h.stores listing
  | appendPatch call =>
      cases state with
      | running layer => exact h.append hSpares.1 hSpares.2
      | stopped files => exact h.down rfl
  | dropCf cf =>
      cases state with
      | running layer => exact h.drop cf
      | stopped files => exact h.down rfl
  | getVersions cf key =>
      cases state with
      | running layer =>
          obtain ⟨patches, hMirrors, -⟩ := h.serves layer rfl
          obtain ⟨after, hRead, hAfter⟩ := hMirrors.getVersions cf key
          rw [LayerState.step, hRead]
          exact h.reread hAfter rfl
      | stopped files => exact h.down rfl
  | rangeVisible cf start endKey =>
      cases state with
      | running layer =>
          obtain ⟨patches, hMirrors, -⟩ := h.serves layer rfl
          obtain ⟨after, hRead, hAfter⟩ := hMirrors.rangeVisible cf start endKey
          rw [LayerState.step, hRead]
          exact h.reread hAfter rfl
      | stopped files => exact h.down rfl
  | allVersions cf =>
      cases state with
      | running layer =>
          obtain ⟨patches, hMirrors, -⟩ := h.serves layer rfl
          obtain ⟨after, hRead, hAfter⟩ := hMirrors.allVersions cf
          rw [LayerState.step, hRead]
          exact h.reread hAfter rfl
      | stopped files => exact h.down rfl

theorem tallied_new (listing : ReadDir) :
    Tallied codec [] (.running (FileLayer.new codec listing ∅)) := by
  have hEmpty : PatchTree.Stores codec ∅ (fun _ => []) :=
    ⟨fun cf => List.Perm.refl _, fun cf content hContent => by cases hContent⟩
  refine ⟨hEmpty, fun layer hRunning => ?_, fun cf patchId uuid bytes hLookup => ?_⟩
  · cases hRunning
    exact FileLayer.serves_new hEmpty listing
  · cases hLookup

/-- A fresh open of these files reads back the entries, from files that were renamed into
place. -/
def OpensTo (codec : PatchCodec) (files : PatchTree) (entries : UInt16 → List PatchEntry) : Prop :=
  ∀ listing, (FileLayer.new codec listing files).ReadsBack codec entries ∧
    ∀ cf, ∀ e ∈ (FileLayer.new codec listing files).ranges cf,
      ∃ patchId ∈ (files.dir cf).patchIds, e.path.file = .final patchId

theorem Tallied.opensTo (h : Tallied codec events state) :
    OpensTo codec state.files (appendedOk events) := by
  intro listing
  refine ⟨(FileLayer.serves_new h.stores listing).readsBack, fun cf e he => ?_⟩
  obtain ⟨file, bytes, content, hFile, hParse, rfl⟩ := FileLayer.mem_ranges_new.mp he
  cases file with
  | final patchId =>
      refine ⟨patchId, List.mem_filterMap.mpr ⟨.final patchId, ?_, rfl⟩, rfl⟩
      exact AList.mem_keys.mp (AList.lookup_isSome.mp (by rw [hFile]; rfl))
  | tmp patchId uuid =>
      have hNone := h.temps cf patchId uuid bytes hFile
      rw [hParse] at hNone
      cases hNone

/-- Two stores of entries that open to the same have as many entries. -/
theorem length_eq_of_opensTo {files : PatchTree} {stored read : UInt16 → List PatchEntry}
    (hStores : files.Stores codec stored) (hOpens : OpensTo codec files read) (cf : UInt16) :
    (stored cf).length = (read cf).length := by
  obtain ⟨versions, after, hRead, hPerm⟩ :=
    (FileLayer.serves_new hStores .listed).readsBack.allVersions cf
  obtain ⟨versions', after', hRead', hPerm'⟩ := (hOpens .listed).1.allVersions cf
  rw [hRead] at hRead'
  obtain ⟨hVersions, -⟩ := Prod.mk.inj hRead'
  obtain rfl := Except.ok.inj hVersions
  have hLength := (hPerm.symm.trans hPerm').length_eq
  rwa [List.length_map, List.length_map] at hLength

/-- The entries that an append leaves are those it should exactly if the number of copies
is right. -/
theorem FileLayer.Appended.copies_of_opensTo {call : AppendCall} {result : Except Halt Unit}
    {after : FileLayer} {entries : UInt16 → List PatchEntry} {count : Nat}
    (h : layer.Appended codec call result after) (hFresh : call.Fresh layer.files)
    (hStores : layer.files.Stores codec entries) (hEntries : call.entries ≠ [])
    (hOpens : OpensTo codec after.files fun cf =>
      if cf = call.cf then entries cf ++ (List.replicate count call.entries).flatten else entries cf) :
    call.copies codec = count := by
  have hLength := length_eq_of_opensTo (h.stores hFresh hStores) hOpens call.cf
  simp only [if_true, List.length_append, List.length_flatten, List.map_replicate,
    List.sum_replicate_nat, Nat.add_left_cancel_iff] at hLength
  exact Nat.eq_of_mul_eq_mul_right (List.length_pos_iff.mpr hEntries) hLength

/-- After a failed append exactly the successful ones are read back just when it left no trace. -/
theorem Tallied.opensTo_failed_iff {call : AppendCall} (h : Tallied codec events (.running layer))
    (hFresh : call.Fresh layer.files) (hFailed : (layer.append codec call).1 ≠ .ok ()) :
    OpensTo codec (layer.append codec call).2.files (appendedOk events) ↔ call.Traceless codec := by
  have hSpec := FileLayer.append_spec codec layer call
  have hNot := mt hSpec.ok_iff.mpr hFailed
  rw [not_or] at hNot
  constructor
  · intro hOpens
    refine (AppendCall.copies_eq_zero_iff hNot.2).mp
      (hSpec.copies_of_opensTo hFresh h.stores hNot.1 ?_)
    simpa using hOpens
  · intro hTraceless
    have hAfter := (h.append hFresh hTraceless).opensTo
    rw [LayerState.files_ofResult, appendedOk_concat, hSpec.account] at hAfter
    simpa [hFailed] using hAfter

/-- After a successful append exactly the successful ones are read back just when none of
its attempts left a whole temporary file. -/
theorem Tallied.opensTo_ok_iff {call : AppendCall} (h : Tallied codec events (.running layer))
    (hFresh : call.Fresh layer.files) (hOk : (layer.append codec call).1 = .ok ()) :
    OpensTo codec (layer.append codec call).2.files
      (appendedOk (events ++ [(.appendPatch call, .returned (.ok ()))])) ↔ call.NoStray codec := by
  have hSpec := FileLayer.append_spec codec layer call
  rw [appendedOk_concat, ← hOk, hSpec.account]
  constructor
  · intro hOpens
    rcases hSpec.ok_iff.mp hOk with hEmpty | hDone
    · rw [AppendCall.noStray_iff, AppendCall.attempts, if_pos (Or.inl hEmpty), List.countP_nil]
    · have hEntries : call.entries ≠ [] := by
        intro hEmpty
        rw [AppendCall.attempts, if_pos (Or.inl hEmpty)] at hDone
        cases hDone
      have hOne : OpensTo codec (layer.append codec call).2.files fun cf =>
          if cf = call.cf then appendedOk events cf ++ (List.replicate 1 call.entries).flatten
          else appendedOk events cf := by
        simpa [hOk] using hOpens
      have hCopies := hSpec.copies_of_opensTo hFresh h.stores hEntries hOne
      rw [AppendCall.copies_of_completes hDone] at hCopies
      exact AppendCall.noStray_iff.mpr (Nat.succ.inj hCopies)
  · intro hNoStray
    have hTraceless : call.Traceless codec := by
      refine ⟨hNoStray, fun hRenames => ?_⟩
      obtain ⟨a, ha, -⟩ := hRenames
      refine (hSpec.ok_iff.mp hOk).resolve_left fun hEmpty => ?_
      rw [AppendCall.attempts, if_pos (Or.inl hEmpty)] at ha
      cases ha
    have hAfter := (h.append hFresh hTraceless).opensTo
    rwa [LayerState.files_ofResult, appendedOk_concat, hSpec.account] at hAfter

/-- The condition along a run keeps the account. -/
theorem tallied_run (listing : ReadDir) {calls : List LayerCall}
    (hSpares : EachMeets (LayerState.step codec) (fun _ state call => call.Spares codec state) []
      (.running (FileLayer.new codec listing ∅)) calls) :
    Tallied codec (runs (LayerState.step codec) (.running (FileLayer.new codec listing ∅)) calls).1
      (runs (LayerState.step codec) (.running (FileLayer.new codec listing ∅)) calls).2 :=
  runs_invariant (Tallied codec) _ (fun _ _ _ h hCall => h.step hCall) (tallied_new listing) hSpares

end

/-- A failed append and a reopen: in every run whose appends have fresh names and leave no
trace of their own, an open finds exactly what the successful appends wrote, in files that
were renamed into place; and it finds so after one more append that fails just when that
append leaves no trace. -/
theorem failed_append_traceless_iff (codec : PatchCodec) (listing : ReadDir) (calls : List LayerCall)
    (hSpares : EachMeets (LayerState.step codec) (fun _ state call => call.Spares codec state) []
      (.running (FileLayer.new codec listing ∅)) calls) :
    let run := runs (LayerState.step codec) (.running (FileLayer.new codec listing ∅)) calls
    OpensTo codec run.2.files (appendedOk run.1) ∧
      ∀ layer call, run.2 = .running layer → call.Fresh layer.files →
        (layer.append codec call).1 ≠ .ok () →
          (OpensTo codec (layer.append codec call).2.files (appendedOk run.1) ↔ call.Traceless codec) := by
  intro run
  have h : Tallied codec run.1 run.2 := tallied_run listing hSpares
  refine ⟨h.opensTo, fun layer call hRunning hFresh hFailed => ?_⟩
  rw [hRunning] at h
  exact h.opensTo_failed_iff hFresh hFailed

/-- An append that fails before there is a file, one that goes through, and a reopen. One more
append that fails is read back when it had written its whole file. -/
theorem failed_append_traceless_one :
    let fails (point : WritePoint) : AppendCall :=
      ⟨⟨none, .each (.stops point (.fails .other))⟩, 0, [⟨[107], some [1], 1⟩], 1⟩
    let run := runs (LayerState.step Postcard.patchCodec)
      (.running (FileLayer.new Postcard.patchCodec .listed ∅))
      [.appendPatch (fails .create), .appendPatch (.undisturbed 0 [⟨[107], some [2], 2⟩] 2),
        .reopen .listed]
    appendedOk run.1 0 = [⟨[107], some [2], 2⟩] ∧
      OpensTo Postcard.patchCodec run.2.files (appendedOk run.1) ∧
      ∃ layer, run.2 = .running layer ∧
        OpensTo Postcard.patchCodec (layer.append Postcard.patchCodec (fails .create)).2.files
          (appendedOk run.1) ∧
        ¬ OpensTo Postcard.patchCodec (layer.append Postcard.patchCodec (fails .fsync)).2.files
          (appendedOk run.1) := by
  intro fails run
  have hCreate : (fails .create).Traceless Postcard.patchCodec :=
    ⟨AppendCall.noStray_iff.mpr (by decide +kernel), fun h => absurd h (by decide +kernel)⟩
  have hUndisturbed : AppendCall.Traceless Postcard.patchCodec
      (.undisturbed 0 [⟨[107], some [2], 2⟩] 2) :=
    ⟨AppendCall.noStray_iff.mpr (by decide +kernel), fun _ => by decide +kernel⟩
  have hNot : ¬ (fails .fsync).Traceless Postcard.patchCodec := by
    intro h
    exact absurd (AppendCall.noStray_iff.mp h.1) (by decide +kernel)
  obtain ⟨hOpens, hIff⟩ := failed_append_traceless_iff Postcard.patchCodec .listed
    [.appendPatch (fails .create), .appendPatch (.undisturbed 0 [⟨[107], some [2], 2⟩] 2),
      .reopen .listed]
    ⟨⟨by decide +kernel, hCreate⟩, ⟨by decide +kernel, hUndisturbed⟩, trivial, trivial⟩
  refine ⟨by decide +kernel, hOpens, _, rfl, ?_, fun hRead => hNot ?_⟩
  · exact (hIff _ (fails .create) rfl (by decide +kernel) (by decide +kernel)).mpr hCreate
  · exact (hIff _ (fails .fsync) rfl (by decide +kernel) (by decide +kernel)).mp hRead

/-- Every rename fails: the three whole temporary files stay, and an open reads them. -/
theorem failed_append_read_back :
    let call : AppendCall := ⟨⟨none, .each (.stops .rename (.fails .permissionDenied))⟩, 0,
      [⟨[107], some [1], 1⟩], 1⟩
    let run := runs (LayerState.step Postcard.patchCodec)
      (.running (FileLayer.new Postcard.patchCodec .listed ∅)) [.appendPatch call]
    appendedOk run.1 0 = [] ∧
      ((FileLayer.new Postcard.patchCodec .listed run.2.files).getVersions Postcard.patchCodec 0
        [107]).1.toOption = some (List.replicate 3 ⟨⟨0, [107]⟩, 1, some [1]⟩) ∧
      ¬ OpensTo Postcard.patchCodec run.2.files (appendedOk run.1) := by
  intro call run
  have hNone : appendedOk run.1 0 = [] := by decide +kernel
  have hRead : ((FileLayer.new Postcard.patchCodec .listed run.2.files).getVersions Postcard.patchCodec 0
      [107]).1.toOption = some (List.replicate 3 ⟨⟨0, [107]⟩, 1, some [1]⟩) := by decide +kernel
  refine ⟨hNone, hRead, fun hOpens => ?_⟩
  obtain ⟨versions, after, hVersions, hPerm⟩ := (hOpens .listed).1.getVersions 0 [107]
  rw [hVersions] at hRead
  rw [hNone, Option.some.inj hRead] at hPerm
  exact absurd hPerm.length_eq (by decide)

/-- The id that a call gives to a patch. -/
def LayerCall.patchId : LayerCall → Option Nat
  | .appendPatch call => some call.patchId
  | _ => none

/-- Writing calls return `Ok`. -/
def Succeeds : LayerCall × LayerAnswer → Prop
  | (.appendPatch _, answer) => answer = .returned (.ok ())
  | (.dropCf _, answer) => answer = .returned (.ok ())
  | _ => True

instance : DecidablePred Succeeds
  | (.appendPatch _, answer) => inferInstanceAs (Decidable (answer = .returned (.ok ())))
  | (.dropCf _, answer) => inferInstanceAs (Decidable (answer = .returned (.ok ())))
  | (.getVersions _ _, _) => isTrue trivial
  | (.rangeVisible _ _ _, _) => isTrue trivial
  | (.allVersions _, _) => isTrue trivial
  | (.reopen _, _) => isTrue trivial

def patchIdsOf (events : List (LayerCall × LayerAnswer)) : List Nat :=
  events.filterMap fun event => event.1.patchId

section
variable {codec : PatchCodec} {events : List (LayerCall × LayerAnswer)} {state : LayerState}

/-- A call adds no name of a patch but its own. -/
theorem LayerState.mem_step_zpatch {call : LayerCall} {cf : UInt16} {patchId : Nat}
    (h : .final patchId ∈ (state.step codec call).2.files.dir cf) :
    .final patchId ∈ state.files.dir cf ∨ call.patchId = some patchId := by
  cases state with
  | stopped files => cases call <;> exact Or.inl h
  | running layer =>
      cases call with
      | appendPatch call =>
          have hSpec := FileLayer.append_spec codec layer call
          have hFiles : .final patchId ∈ (layer.append codec call).2.files.dir cf := by
            rw [← LayerState.files_ofResult (layer.append codec call).1]
            exact h
          by_cases hCf : cf = call.cf
          · obtain ⟨data, hDir, -⟩ := hSpec.dir
            rw [hCf, hDir] at hFiles
            rcases NamedDir.mem_afterAll_final hFiles with hOld | rfl
            · exact Or.inl (hCf ▸ hOld)
            · exact Or.inr rfl
          · rw [hSpec.others cf hCf] at hFiles
            exact Or.inl hFiles
      | dropCf dropped =>
          have hFiles : .final patchId ∈ (layer.dropCf .completes dropped).2.files.dir cf := by
            rw [← LayerState.files_ofResult (layer.dropCf .completes dropped).1]
            exact h
          refine Or.inl ?_
          unfold FileLayer.dropCf at hFiles
          split at hFiles
          · exact hFiles
          · dsimp only at hFiles
            rw [PatchTree.dir_erase] at hFiles
            split at hFiles
            · cases hFiles
            · exact hFiles
      | getVersions other key =>
          refine Or.inl ?_
          rw [LayerState.files, ← FileLayer.getVersions_files codec layer other key]
          exact h
      | rangeVisible other start endKey =>
          refine Or.inl ?_
          rw [LayerState.files, ← FileLayer.rangeVisible_files codec layer other start endKey]
          exact h
      | allVersions other =>
          refine Or.inl ?_
          rw [LayerState.files, ← FileLayer.allVersions_files codec layer other]
          exact h
      | reopen listing => exact Or.inl h

/-- Patch names in the files are ids of the run so far, and the layer is open. -/
structure Issued (codec : PatchCodec) (events : List (LayerCall × LayerAnswer)) (state : LayerState) :
    Prop where
  tallied : Tallied codec events state
  running : ∃ layer, state = .running layer
  names : ∀ cf patchId, .final patchId ∈ state.files.dir cf → patchId ∈ patchIdsOf events

/-- A new id, a successful call, and no whole temporary file. -/
def LayerCall.Succeeding (codec : PatchCodec) (events : List (LayerCall × LayerAnswer))
    (state : LayerState) (call : LayerCall) : Prop :=
  (∀ patchId, call.patchId = some patchId → patchId ∉ patchIdsOf events) ∧
    Succeeds (call, (state.step codec call).1) ∧
      ∀ append, call = .appendPatch append → append.NoStray codec

theorem Issued.step {call : LayerCall} (h : Issued codec events state)
    (hCall : call.Succeeding codec events state) :
    Issued codec (events ++ [(call, (state.step codec call).1)]) (state.step codec call).2 := by
  obtain ⟨hNew, hOk, hNoStray⟩ := hCall
  obtain ⟨layer, rfl⟩ := h.running
  refine ⟨h.tallied.step ?_, ?_, fun cf patchId hName => ?_⟩
  · cases call with
    | appendPatch call =>
        refine ⟨fun hThere => hNew call.patchId rfl (h.names call.cf call.patchId hThere),
          hNoStray call rfl, fun hRenames => ?_⟩
        obtain ⟨a, ha, -⟩ := hRenames
        have hResult : (layer.append codec call).1 = .ok () := LayerAnswer.returned.inj hOk
        refine ((FileLayer.append_spec codec layer call).ok_iff.mp hResult).resolve_left fun hEmpty => ?_
        rw [AppendCall.attempts, if_pos (Or.inl hEmpty)] at ha
        cases ha
    | dropCf cf => trivial
    | getVersions cf key => trivial
    | rangeVisible cf start endKey => trivial
    | allVersions cf => trivial
    | reopen listing => trivial
  · cases call with
    | appendPatch call =>
        have hResult : (layer.append codec call).1 = .ok () := LayerAnswer.returned.inj hOk
        refine ⟨(layer.append codec call).2, ?_⟩
        show LayerState.ofResult (layer.append codec call).1 _ = _
        rw [hResult]
        rfl
    | dropCf cf =>
        have hResult : (layer.dropCf .completes cf).1 = .ok () := LayerAnswer.returned.inj hOk
        refine ⟨(layer.dropCf .completes cf).2, ?_⟩
        show LayerState.ofResult (layer.dropCf .completes cf).1 _ = _
        rw [hResult]
        rfl
    | getVersions cf key => exact ⟨_, rfl⟩
    | rangeVisible cf start endKey => exact ⟨_, rfl⟩
    | allVersions cf => exact ⟨_, rfl⟩
    | reopen listing => exact ⟨_, rfl⟩
  · rw [patchIdsOf, List.filterMap_append, List.mem_append]
    rcases LayerState.mem_step_zpatch hName with hOld | hOwn
    · exact Or.inl (h.names cf patchId hOld)
    · exact Or.inr (List.mem_filterMap.mpr ⟨_, List.mem_singleton.mpr rfl, hOwn⟩)

end

/-- The key-range index and a reopen: in every run of successful appends with distinct ids,
drops, reads and reopens, where no attempt of an append ends with a whole temporary file,
the open layer and every layer opened on its files read back exactly what was appended
since the last drop; and they do so after one more append that succeeds just when that
append leaves no such file. -/
theorem reopen_reads_back_iff (codec : PatchCodec) (listing : ReadDir) (calls : List LayerCall)
    (hIds : (calls.filterMap LayerCall.patchId).Nodup)
    (hOk : ∀ event ∈ (runs (LayerState.step codec) (.running (FileLayer.new codec listing ∅)) calls).1,
      Succeeds event)
    (hNoStray : ∀ call, .appendPatch call ∈ calls → call.NoStray codec) :
    let run := runs (LayerState.step codec) (.running (FileLayer.new codec listing ∅)) calls
    ∃ layer, run.2 = .running layer ∧ layer.ReadsBack codec (appendedOk run.1) ∧
      OpensTo codec layer.files (appendedOk run.1) ∧
      ∀ call, call.patchId ∉ calls.filterMap LayerCall.patchId →
        (layer.append codec call).1 = .ok () →
          (layer.append codec call).2.ReadsBack codec
              (appendedOk (run.1 ++ [(.appendPatch call, .returned (.ok ()))])) ∧
            (OpensTo codec (layer.append codec call).2.files
              (appendedOk (run.1 ++ [(.appendPatch call, .returned (.ok ()))])) ↔ call.NoStray codec) := by
  intro run
  have hEach : EachMeets (LayerState.step codec)
      (fun past state call => call.Succeeding codec past state) []
      (.running (FileLayer.new codec listing ∅)) calls := by
    apply EachMeets.of_take
    intro i call hCall
    have hEvent := @runs_getElem? _ _ _ (LayerState.step codec)
      (.running (FileLayer.new codec listing ∅)) calls i
    rw [hCall, Option.map_some] at hEvent
    refine ⟨fun patchId hId hPast => ?_, hOk _ (List.mem_of_getElem? hEvent), fun append hAppend => ?_⟩
    · have hPastIds : patchIdsOf ([] ++ (runs (LayerState.step codec)
          (.running (FileLayer.new codec listing ∅)) (calls.take i)).1) =
            (calls.take i).filterMap LayerCall.patchId := by
        have hInputs := runs_inputs (LayerState.step codec)
          (.running (FileLayer.new codec listing ∅)) (calls.take i)
        rw [List.nil_append, patchIdsOf, ← hInputs, List.filterMap_map, hInputs]
        rfl
      rw [hPastIds] at hPast
      have hSplit : calls = calls.take i ++ call :: calls.drop (i + 1) := by
        rw [← List.getElem?_eq_some_iff.mp hCall |>.2, List.getElem_cons_drop, List.take_append_drop]
      rw [hSplit, List.filterMap_append, List.filterMap_cons_some hId, List.nodup_append] at hIds
      exact hIds.2.2 patchId hPast patchId List.mem_cons_self rfl
    · exact hNoStray append (hAppend ▸ List.mem_of_getElem? hCall)
  have hStart : Issued codec [] (.running (FileLayer.new codec listing ∅)) :=
    ⟨tallied_new listing, ⟨_, rfl⟩, fun cf patchId hName => by cases hName⟩
  have hEnd : Issued codec run.1 run.2 :=
    runs_invariant (Issued codec) _ (fun _ _ _ h hCall => h.step hCall) hStart hEach
  obtain ⟨layer, hRunning⟩ := hEnd.running
  have hTallied := hEnd.tallied
  rw [hRunning] at hTallied
  refine ⟨layer, hRunning, (hTallied.serves layer rfl).readsBack, hTallied.opensTo,
    fun call hNew hResult => ?_⟩
  have hFresh : call.Fresh layer.files := by
    intro hThere
    apply hNew
    have hPast := hEnd.names call.cf call.patchId (by rw [hRunning]; exact hThere)
    rwa [patchIdsOf, ← Function.comp_def, ← List.filterMap_map, runs_inputs] at hPast
  refine ⟨?_, hTallied.opensTo_ok_iff hFresh hResult⟩
  have hSpec := FileLayer.append_spec codec layer call
  have hServes := hSpec.serves hFresh (hTallied.serves layer rfl)
  rw [appendedOk_concat, ← hResult, hSpec.account]
  exact hServes.readsBack

/-- Two patches of one column family, the first of them at its second attempt, beside a family
that is dropped. One more append is read back once only if it leaves no second file. -/
theorem reopen_reads_back_one :
    let retried (point : WritePoint) (patchId : Nat) : AppendCall :=
      ⟨⟨none, .stops point (.fails .notFound), .completes, .completes, .next⟩, 0,
        [⟨[107], some [1], 1⟩], patchId⟩
    let calls : List LayerCall := [.appendPatch (retried .create 1),
      .appendPatch (.undisturbed 0 [⟨[107], none, 2⟩, ⟨[106], some [3], 2⟩] 2),
      .appendPatch (.undisturbed 1 [⟨[107], some [4], 3⟩] 3), .dropCf 1]
    let run := runs (LayerState.step Postcard.patchCodec)
      (.running (FileLayer.new Postcard.patchCodec .listed ∅)) calls
    appendedOk run.1 0 = [⟨[107], some [1], 1⟩, ⟨[107], none, 2⟩, ⟨[106], some [3], 2⟩] ∧
      appendedOk run.1 1 = [] ∧
      ∃ layer, run.2 = .running layer ∧ layer.ReadsBack Postcard.patchCodec (appendedOk run.1) ∧
        OpensTo Postcard.patchCodec layer.files (appendedOk run.1) ∧
        ¬ OpensTo Postcard.patchCodec (layer.append Postcard.patchCodec (retried .rename 4)).2.files
          (appendedOk (run.1 ++ [(.appendPatch (retried .rename 4), .returned (.ok ()))])) := by
  intro retried calls run
  obtain ⟨layer, hRunning, hReads, hOpens, hNext⟩ := reopen_reads_back_iff Postcard.patchCodec .listed
    calls (by decide) (by decide +kernel)
    (by
      intro call hCall
      apply AppendCall.noStray_iff.mpr
      simp only [calls, List.mem_cons, LayerCall.appendPatch.injEq, reduceCtorEq, List.not_mem_nil,
        or_false] at hCall
      rcases hCall with rfl | rfl | rfl <;> decide +kernel)
  refine ⟨by decide +kernel, by decide +kernel, layer, hRunning, hReads, hOpens, fun hRead => ?_⟩
  have hOk : (layer.append Postcard.patchCodec (retried .rename 4)).1 = .ok () := by
    obtain rfl := LayerState.running.inj hRunning
    decide +kernel
  have hNoStray := (hNext (retried .rename 4) (by decide) hOk).2.mp hRead
  exact absurd (AppendCall.noStray_iff.mp hNoStray) (by decide +kernel)

/-- The first rename fails, the second attempt succeeds: an open reads the patch twice. -/
theorem retried_append_read_twice :
    let call : AppendCall := ⟨⟨none, .stops .rename (.fails .permissionDenied), .completes,
      .completes, .next⟩, 0, [⟨[107], some [1], 1⟩], 1⟩
    let run := runs (LayerState.step Postcard.patchCodec)
      (.running (FileLayer.new Postcard.patchCodec .listed ∅)) [.appendPatch call]
    appendedOk run.1 0 = [⟨[107], some [1], 1⟩] ∧
      ((FileLayer.new Postcard.patchCodec .listed run.2.files).getVersions Postcard.patchCodec 0
        [107]).1.toOption = some (List.replicate 2 ⟨⟨0, [107]⟩, 1, some [1]⟩) ∧
      ¬ OpensTo Postcard.patchCodec run.2.files (appendedOk run.1) := by
  intro call run
  have hOne : appendedOk run.1 0 = [⟨[107], some [1], 1⟩] := by decide +kernel
  have hRead : ((FileLayer.new Postcard.patchCodec .listed run.2.files).getVersions Postcard.patchCodec 0
      [107]).1.toOption = some (List.replicate 2 ⟨⟨0, [107]⟩, 1, some [1]⟩) := by decide +kernel
  refine ⟨hOne, hRead, fun hOpens => ?_⟩
  obtain ⟨versions, after, hVersions, hPerm⟩ := (hOpens .listed).1.getVersions 0 [107]
  rw [hVersions] at hRead
  rw [hOne, Option.some.inj hRead] at hPerm
  exact absurd hPerm.length_eq (by decide)

end Z1Kv
