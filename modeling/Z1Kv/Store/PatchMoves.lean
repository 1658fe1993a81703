import Mathlib.Logic.Relation
import Z1Kv.Store.PatchIds

/-! Flush and compaction as sequences of moves of a few kinds. What every move keeps, every
call keeps, wherever it stops. -/
namespace Z1Kv

/-- One move of the flush engine: in memory, or one call of a layer. -/
inductive FileStore.Move (codec : PatchCodec) : FileStore → FileStore → Prop
  | memory (s : FileStore) (l1 : MemStore) (recentFlush : VersionMap) :
      Move codec s { s with l1, recentFlush }
  | appendL2 (s : FileStore) (write : PatchWrite) (cf : UInt16) (entries : List PatchEntry) :
      Move codec s
        { (s.takeId .l2 cf).2 with l2 := (s.l2.append codec ⟨write, cf, entries, s.nextPatchId⟩).2 }
  | appendL3 (s : FileStore) (write : PatchWrite) (cf : UInt16) (entries : List PatchEntry) :
      Move codec s
        { (s.takeId .l3 cf).2 with l3 := (s.l3.append codec ⟨write, cf, entries, s.nextPatchId⟩).2 }
  | readL2 (s : FileStore) (cf : UInt16) : Move codec s { s with l2 := (s.l2.allVersions codec cf).2 }
  | dropL2 (s : FileStore) (removal : Removal) (cf : UInt16) :
      Move codec s { s with l2 := (s.l2.dropCf removal cf).2 }

/-- Moves one after the other. -/
def FileStore.Moves (codec : PatchCodec) : FileStore → FileStore → Prop :=
  Relation.ReflTransGen (FileStore.Move codec)

namespace FileStore
variable {codec : PatchCodec}

theorem Moves.keep {P : FileStore → Prop} (hMove : ∀ s s', P s → Move codec s s' → P s')
    {s s' : FileStore} (h : Moves codec s s') (hStart : P s) : P s' := by
  induction h with
  | refl => exact hStart
  | tail _ hLast ih => exact hMove _ _ ih hLast

theorem Moves.trans {s s' s'' : FileStore} (h : Moves codec s s') (h' : Moves codec s' s'') :
    Moves codec s s'' := Relation.ReflTransGen.trans h h'

theorem appendGroups_moves (writes : Nat → PatchWrite) (groups : List (UInt16 × List PatchEntry))
    (s : FileStore) : Moves codec s (s.appendGroups codec writes groups).2 := by
  induction groups generalizing s with
  | nil => exact .refl
  | cons group rest ih =>
      obtain ⟨cf, entries⟩ := group
      have hMove := @Move.appendL2 codec s (writes s.nextPatchId) cf entries
      rw [appendGroups]
      dsimp only [takeId, FileLayer.append] at hMove ⊢
      split
      · next halt l2 hEq =>
        rw [hEq] at hMove
        exact .single hMove
      · next l2 hEq =>
        rw [hEq] at hMove
        exact .head hMove (ih _)

theorem flushL1ToL2_moves (writes : Nat → PatchWrite) (s : FileStore) :
    Moves codec s (s.flushL1ToL2 codec writes).2 := by
  have hStage : Move codec s s.stage := .memory s _ _
  have hGroups := @appendGroups_moves codec writes (cfGroups s.stage.recentFlush.values) s.stage
  rw [flushL1ToL2]
  split
  · next halt after hEq =>
    rw [hEq] at hGroups
    exact .head hStage hGroups
  · next after hEq =>
    rw [hEq] at hGroups
    exact .tail (.head hStage hGroups) (.memory after _ ∅)

theorem dropL2_moves (removals : UInt16 → Removal) (counts : Nat × Nat) (s : FileStore) (cf : UInt16) :
    Moves codec s (s.dropL2 removals counts cf).2 := by
  have hMove := @Move.dropL2 codec s (removals cf) cf
  rw [dropL2]
  split
  · next halt l2 hEq =>
    rw [hEq] at hMove
    exact .single hMove
  · next l2 hEq =>
    rw [hEq] at hMove
    exact .single hMove

theorem compactCf_moves (writes : Nat → PatchWrite) (removals : UInt16 → Removal) (watermark : TxnId)
    (s : FileStore) (cf : UInt16) : Moves codec s (s.compactCf codec writes removals watermark cf).2 := by
  have hRead := @Move.readL2 codec s cf
  rw [compactCf]
  split
  · next e l2 hEq =>
    rw [hEq] at hRead
    exact .single hRead
  · next versions l2 hEq =>
    rw [hEq] at hRead
    dsimp only
    split
    · exact .single hRead
    · split
      · exact .head hRead (dropL2_moves removals _ _ cf)
      · have hWrite := @Move.appendL3 codec { s with l2 } (writes s.nextPatchId) cf
          (gcEntries (versions.map PatchEntry.ofZ1Entry) watermark).1
        dsimp only [takeId, FileLayer.append] at hWrite ⊢
        split
        · next halt l3 hAppend =>
          rw [hAppend] at hWrite
          exact .head hRead (.single hWrite)
        · next l3 hAppend =>
          rw [hAppend] at hWrite
          exact .head hRead (.head hWrite (dropL2_moves removals _ _ cf))

theorem compactCfs_moves (writes : Nat → PatchWrite) (removals : UInt16 → Removal) (watermark : TxnId)
    (cfs : List UInt16) (s : FileStore) :
    Moves codec s (s.compactCfs codec writes removals watermark cfs).2 := by
  induction cfs generalizing s with
  | nil => exact .refl
  | cons cf rest ih =>
      have hHere := @compactCf_moves codec writes removals watermark s cf
      rw [compactCfs]
      split
      · next hEq =>
        rw [hEq] at hHere
        exact hHere
      · next after hEq =>
        rw [hEq] at hHere
        have hRest := ih after
        split
        · next hMore =>
          rw [hMore] at hRest
          exact hHere.trans hRest
        · next hMore =>
          rw [hMore] at hRest
          exact hHere.trans hRest

/-- What is kept by the moves of a session. -/
theorem Numbered.move {s s' : FileStore} (h : s.Numbered codec) (hMove : Move codec s s') :
    s'.Numbered codec := by
  cases hMove with
  | memory l1 recentFlush => exact ⟨h.intact2, h.intact3, h.below2, h.below3, h.targets⟩
  | appendL2 write cf entries =>
      obtain ⟨hTaken, hId⟩ := h.takeId .l2 cf
      exact hTaken.appendL2 write cf entries hId
  | appendL3 write cf entries =>
      obtain ⟨hTaken, hId⟩ := h.takeId .l3 cf
      exact hTaken.appendL3 write cf entries hId
  | readL2 cf =>
      apply h.setL2
      rw [FileLayer.allVersions_files]
      exact ⟨h.intact2, h.below2⟩
  | dropL2 removal cf => exact h.setL2 (FileLayer.dropCf_keeps removal cf h.intact2 h.below2)

end FileStore

/-- A file that parses holds its entries in order. -/
def PatchTree.Sorted (codec : PatchCodec) (files : PatchTree) : Prop :=
  ∀ cf, ∀ content ∈ (files.dir cf).readable codec, content.Pairwise PatchEntry.Le

section
variable {codec : PatchCodec} {layer : FileLayer}

theorem PatchDir.mem_readable {dir : PatchDir} {content : List PatchEntry} :
    content ∈ dir.readable codec ↔
      ∃ file bytes, AList.lookup file dir = some bytes ∧ codec.readPatch bytes = .ok content := by
  rw [readable, List.mem_filterMap]
  constructor
  · rintro ⟨⟨file, bytes⟩, hEntry, hParse⟩
    refine ⟨file, bytes, FinMap.mem_entries.mp hEntry, ?_⟩
    cases hRead : codec.readPatch bytes with
    | error e => simp [hRead, Except.toOption] at hParse
    | ok found =>
        simp only [hRead, Except.toOption, Option.some.injEq] at hParse
        rw [hParse]
  · rintro ⟨file, bytes, hLookup, hParse⟩
    refine ⟨⟨file, bytes⟩, FinMap.mem_entries.mpr hLookup, ?_⟩
    rw [hParse]
    rfl

theorem PatchTree.Sorted.append (h : layer.files.Sorted codec) (call : AppendCall)
    (hFresh : .final call.patchId ∉ layer.files.dir call.cf) :
    (layer.append codec call).2.files.Sorted codec := by
  have hStores : layer.files.Stores codec fun cf => ((layer.files.dir cf).readable codec).flatten :=
    ⟨fun _ => .refl _, h⟩
  exact ((FileLayer.append_spec codec layer call).stores hFresh hStores).sorted

theorem PatchTree.Sorted.dropCf (h : layer.files.Sorted codec) (removal : Removal) (dropped : UInt16) :
    (layer.dropCf removal dropped).2.files.Sorted codec := by
  intro cf content hContent
  obtain ⟨file, bytes, hLookup, hParse⟩ := PatchDir.mem_readable.mp hContent
  exact h cf content
    (PatchDir.mem_readable.mpr ⟨file, bytes, FileLayer.dropCf_lookup removal dropped hLookup, hParse⟩)

end

namespace FileStore
variable {codec : PatchCodec} {s s' : FileStore}

/-- The files of both layers are sorted, in a session with numbered patches. -/
structure Ordered (codec : PatchCodec) (s : FileStore) : Prop where
  numbered : s.Numbered codec
  sorted2 : s.l2.files.Sorted codec
  sorted3 : s.l3.files.Sorted codec

theorem Numbered.fresh2 (h : s.Numbered codec) (cf : UInt16) :
    .final s.nextPatchId ∉ s.l2.files.dir cf :=
  fun hThere => Nat.lt_irrefl _ (h.below2 cf s.nextPatchId hThere)

theorem Numbered.fresh3 (h : s.Numbered codec) (cf : UInt16) :
    .final s.nextPatchId ∉ s.l3.files.dir cf :=
  fun hThere => Nat.lt_irrefl _ (h.below3 cf s.nextPatchId hThere)

theorem Ordered.move (h : s.Ordered codec) (hMove : Move codec s s') : s'.Ordered codec := by
  have hNumbered := h.numbered.move hMove
  cases hMove with
  | memory l1 recentFlush => exact ⟨hNumbered, h.sorted2, h.sorted3⟩
  | appendL2 write cf entries =>
      exact ⟨hNumbered, h.sorted2.append ⟨write, cf, entries, s.nextPatchId⟩ (h.numbered.fresh2 cf),
        h.sorted3⟩
  | appendL3 write cf entries =>
      exact ⟨hNumbered, h.sorted2,
        h.sorted3.append ⟨write, cf, entries, s.nextPatchId⟩ (h.numbered.fresh3 cf)⟩
  | readL2 cf =>
      refine ⟨hNumbered, ?_, h.sorted3⟩
      rw [FileLayer.allVersions_files]
      exact h.sorted2
  | dropL2 removal cf => exact ⟨hNumbered, h.sorted2.dropCf removal cf, h.sorted3⟩

end FileStore

/-- The same of a session, or of what one left. -/
structure StoreState.Ordered (codec : PatchCodec) (state : StoreState) : Prop where
  numbered : state.Numbered codec
  sorted : ∀ layer, (state.files layer).Sorted codec

section
variable {codec : PatchCodec} {state : StoreState}

theorem FileStore.Ordered.inSession {s : FileStore} (h : s.Ordered codec) :
    (StoreState.running s).Ordered codec := by
  refine ⟨h.numbered.inSession, fun layer => ?_⟩
  cases layer with
  | l2 => exact h.sorted2
  | l3 => exact h.sorted3

theorem StoreState.Ordered.session {s : FileStore} (h : (StoreState.running s).Ordered codec) :
    s.Ordered codec :=
  ⟨h.numbered.running s rfl, h.sorted .l2, h.sorted .l3⟩

theorem StoreState.Ordered.stop (h : state.Ordered codec) : state.stop.Ordered codec := by
  refine ⟨h.numbered.stop, fun layer => ?_⟩
  cases layer with
  | l2 => exact h.sorted .l2
  | l3 => exact h.sorted .l3

theorem StoreState.Ordered.openStore (h : state.Ordered codec) (listing : ReadDir) (l1 : MemStore) :
    (FileStore.openStore codec listing l1 (state.files .l2) (state.files .l3) state.targets).Ordered
      codec :=
  ⟨h.numbered.openStore listing l1, h.sorted .l2, h.sorted .l3⟩

theorem FileStore.Ordered.ofResult {α : Type} {s : FileStore} (h : s.Ordered codec)
    (result : Except Halt α) : (StoreState.ofResult result s).Ordered codec := by
  unfold StoreState.ofResult
  split
  · exact h.inSession.stop
  · exact h.inSession

theorem StoreState.Ordered.step {call : StoreCall} (h : state.Ordered codec) :
    (state.step codec call).Ordered codec := by
  cases call with
  | kill => cases state <;> exact h.stop
  | openStore listing l1 =>
      have hOpened := (h.openStore listing l1).inSession
      cases state <;> exact hOpened
  | fill l1 =>
      cases state with
      | stopped l2 l3 targets => exact h
      | running s => exact (h.session.move (.memory s l1 s.recentFlush)).inSession
  | flushL1ToL2 writes =>
      cases state with
      | stopped l2 l3 targets => exact h
      | running s =>
          have hAfter := (FileStore.flushL1ToL2_moves writes s).keep
            (fun _ _ hHere hMove => FileStore.Ordered.move hHere hMove) h.session
          exact hAfter.ofResult _
  | compactL2ToL3 writes removals minActiveBeginTs =>
      cases state with
      | stopped l2 l3 targets => exact h
      | running s =>
          have hAfter := (FileStore.compactCfs_moves writes removals minActiveBeginTs s.l2.listCfs s).keep
            (fun _ _ hHere hMove => FileStore.Ordered.move hHere hMove) h.session
          exact hAfter.ofResult _

theorem StoreState.ordered_after (codec : PatchCodec) (calls : List StoreCall) :
    (StoreState.after codec calls).Ordered codec := by
  have hStart : (StoreState.stopped ∅ ∅ []).Ordered codec := by
    refine ⟨StoreState.numbered_after codec [], fun layer => ?_⟩
    cases layer <;> exact fun cf content hContent => by cases hContent
  unfold StoreState.after
  generalize StoreState.stopped ∅ ∅ [] = start at hStart ⊢
  induction calls generalizing start with
  | nil => exact hStart
  | cons call rest ih => exact ih _ hStart.step

end
end Z1Kv
