import Z1Kv.Store.PatchReads

/-! What the files of a directory hold after a write of a patch: its entries under its name
when an attempt came as far as the rename, and once for each attempt that left all bytes in a
temporary file. -/
namespace Z1Kv

theorem DiskFormat.toDiskBytes_ok {α : Type} {format : DiskFormat α} {x : α} {data : Bytes}
    (h : format.toDiskBytes x = .ok data) : ¬ (format.encode x).length > 2 ^ 32 - 1 := by
  intro hLong
  rw [toDiskBytes, if_pos hLong] at h
  cases h

theorem DiskFormat.toDiskBytes_error {α : Type} {format : DiskFormat α} {x : α} {e : DiskFormatError}
    (h : format.toDiskBytes x = .error e) : (format.encode x).length > 2 ^ 32 - 1 := by
  by_contra hFits
  rw [toDiskBytes, if_neg hFits] at h
  cases h

namespace PatchDir
section
variable {dir : PatchDir} {patchId : Nat} {data : Bytes}

theorem readable_insert (codec : PatchCodec) (dir : PatchDir) (file : PatchFile) (data : Bytes) :
    readable codec (AList.insert file data dir) =
      (codec.readPatch data).toOption.toList ++ readable codec (AList.erase file dir) := by
  show List.filterMap _ (⟨file, data⟩ :: List.kerase file dir.entries) = _
  rw [List.filterMap_cons]
  cases codec.readPatch data with
  | error e => rfl
  | ok entries => rfl

/-- A file among the others. -/
theorem readable_perm (codec : PatchCodec) (dir : PatchDir) (file : PatchFile) :
    (readable codec dir).Perm (((AList.lookup file dir).bind fun bytes =>
      (codec.readPatch bytes).toOption).toList ++ readable codec (AList.erase file dir)) := by
  by_cases hFile : file ∈ dir
  · obtain ⟨bytes, before, behind, hBefore, hEntries, hErase⟩ := List.exists_of_kerase hFile
    have hLookup : AList.lookup file dir = some bytes := by
      rw [← FinMap.mem_entries, hEntries]
      simp
    rw [hLookup, Option.bind_some, readable, readable, hEntries]
    show List.Perm _ (_ ++ List.filterMap _ (List.kerase file dir.entries))
    rw [hErase, List.filterMap_append, List.filterMap_append, List.filterMap_cons]
    cases codec.readPatch bytes with
    | error e => exact List.Perm.refl _
    | ok entries => exact List.perm_middle
  · rw [AList.lookup_eq_none.mpr hFile, NamedDir.erase_of_not_mem hFile]
    exact List.Perm.refl _

end

section
variable {codec : PatchCodec} {newUuid : NewUuid} {dir : PatchDir} {patchId : Nat} {data : Bytes}
  {entries : List PatchEntry}

theorem readPatch_toDiskBytes
    (hData : (Z1PatchFormatV4.format codec).toDiskBytes (.sparse entries) = .ok data) :
    codec.readPatch data = .ok entries ∧ data.length = DiskFormat.headerSize +
      (codec.encode (.sparse entries)).length := by
  have hFits : ((Z1PatchFormatV4.format codec).encode (.sparse entries)).length < 2 ^ 32 := by
    have hLong := DiskFormat.toDiskBytes_ok hData
    omega
  obtain ⟨written, hOk, hLength, hFrames⟩ := DiskFormat.toDiskBytes_frames hFits
  obtain rfl : written = data := Except.ok.inj (hOk.symm.trans hData)
  have hWhole := hFrames []
  rw [List.append_nil] at hWhole
  have hRead := hWhole.read (codec.decode_encode (.sparse entries) hFits)
  refine ⟨?_, hLength⟩
  unfold PatchCodec.readPatch
  simp only [hRead, Option.get_some]

/-- What is written of a patch before its end does not parse. -/
theorem readPatch_take
    (hData : (Z1PatchFormatV4.format codec).toDiskBytes (.sparse entries) = .ok data) (count : Nat) :
    (codec.readPatch (data.take count)).toOption = if data.length ≤ count then some entries else none := by
  split
  · next h => rw [List.take_of_length_le h, (readPatch_toDiskBytes hData).1]; rfl
  · next h =>
    have hStrict : data.take count ≠ data := by
      intro hEq
      have hLength := congrArg List.length hEq
      rw [List.length_take] at hLength
      omega
    obtain ⟨e, hRead⟩ := DiskFormat.strict_prefix_rejected hData (List.take_prefix _ _) hStrict
    unfold PatchCodec.readPatch
    simp only [hRead, Option.get_some]
    rfl

/-- The other files after an attempt: one more if it leaves all bytes in a temporary file. -/
theorem readable_after
    (hData : (Z1PatchFormatV4.format codec).toDiskBytes (.sparse entries) = .ok data)
    (attempt : WriteAttempt) :
    readable codec (AList.erase (.final patchId) (NamedDir.after newUuid dir patchId data attempt)) =
      (if attempt.LeavesWhole data.length then [entries] else []) ++
        readable codec (AList.erase (.final patchId) dir) := by
  have hTemp (written : Bytes) :
      readable codec (AList.erase (.final patchId)
        (AList.insert (NamedDir.temp newUuid dir patchId) written dir)) =
        (codec.readPatch written).toOption.toList ++
          readable codec (AList.erase (.final patchId) dir) := by
    have hOther : AList.erase (NamedDir.temp newUuid dir patchId) (AList.erase (.final patchId) dir) =
        AList.erase (.final patchId) dir := by
      apply NamedDir.erase_of_not_mem
      intro h
      exact NamedDir.temp_not_mem newUuid dir patchId (AList.mem_erase.mp h).2
    rw [NamedDir.erase_insert_ne NamedDir.final_ne_temp, readable_insert, hOther]
  have hWhole := hTemp data
  rw [(readPatch_toDiskBytes hData).1] at hWhole
  cases attempt with
  | completes => rw [NamedDir.after, NamedDir.erase_insert_self]; rfl
  | stops point interrupt =>
      cases point with
      | create => rfl
      | write count =>
          rw [NamedDir.after, hTemp, readPatch_take hData]
          by_cases hAll : data.length ≤ count
          · have hWhole : WriteAttempt.LeavesWhole data.length (.stops (.write count) interrupt) := hAll
            rw [if_pos hAll, if_pos hWhole]
            rfl
          · have hWhole : ¬ WriteAttempt.LeavesWhole data.length (.stops (.write count) interrupt) := hAll
            rw [if_neg hAll, if_neg hWhole]
            rfl
      | fsync => exact hWhole
      | rename => exact hWhole
      | syncParent => rw [NamedDir.after, NamedDir.erase_insert_self]; rfl

theorem readable_attempts
    (hData : (Z1PatchFormatV4.format codec).toDiskBytes (.sparse entries) = .ok data)
    (attempts : List WriteAttempt) :
    (readable codec (AList.erase (.final patchId)
      (NamedDir.afterAll newUuid dir patchId data attempts))).Perm
      (List.replicate (attempts.countP (·.LeavesWhole data.length)) entries ++
        readable codec (AList.erase (.final patchId) dir)) := by
  induction attempts generalizing dir with
  | nil => exact List.Perm.refl _
  | cons attempt rest ih =>
      rw [NamedDir.afterAll_cons, List.countP_cons]
      refine ih.trans ?_
      rw [readable_after hData]
      by_cases hLeaves : attempt.LeavesWhole data.length
      · rw [if_pos hLeaves, if_pos (decide_eq_true hLeaves), List.replicate_succ']
        rw [List.append_assoc]
      · rw [if_neg hLeaves, if_neg (by simpa using hLeaves)]
        exact List.Perm.refl _

/-- What the attempts leave: a file for each that kept all bytes to itself, and the patch if
one came as far as the rename. -/
theorem readable_made
    (hData : (Z1PatchFormatV4.format codec).toDiskBytes (.sparse entries) = .ok data)
    (attempts : List WriteAttempt) (hFresh : .final patchId ∉ dir) :
    (readable codec (NamedDir.afterAll newUuid dir patchId data attempts)).Perm
      (List.replicate (attempts.countP (·.LeavesWhole data.length) +
        if ∃ a ∈ attempts, a.Renames then 1 else 0) entries ++ readable codec dir) := by
  refine (readable_perm codec _ (.final patchId)).trans ?_
  rw [NamedDir.lookup_afterAll]
  have hOthers := @readable_attempts codec newUuid dir patchId data entries hData attempts
  rw [NamedDir.erase_of_not_mem hFresh] at hOthers
  split
  · rw [Option.bind_some, (readPatch_toDiskBytes hData).1, List.replicate_succ]
    exact hOthers.cons entries
  · rw [AList.lookup_eq_none.mpr hFresh]
    exact hOthers

/-- No temporary file parses. -/
def TempsUnreadable (codec : PatchCodec) (dir : PatchDir) : Prop :=
  ∀ patchId uuid bytes, AList.lookup (.tmp patchId uuid) dir = some bytes →
    (codec.readPatch bytes).toOption = none

theorem TempsUnreadable.insert_tmp {written : Bytes} {uuid : Nat} (h : TempsUnreadable codec dir)
    (hWritten : (codec.readPatch written).toOption = none) :
    TempsUnreadable codec (AList.insert (.tmp patchId uuid) written dir) := by
  intro other otherUuid bytes hLookup
  by_cases hFile : NamedFile.tmp other otherUuid = .tmp patchId uuid
  · rw [hFile, AList.lookup_insert] at hLookup
    obtain rfl := Option.some.inj hLookup
    exact hWritten
  · rw [AList.lookup_insert_ne hFile] at hLookup
    exact h other otherUuid bytes hLookup

theorem TempsUnreadable.afterAll
    (hData : (Z1PatchFormatV4.format codec).toDiskBytes (.sparse entries) = .ok data)
    {attempts : List WriteAttempt} (h : TempsUnreadable codec dir)
    (hNone : ∀ a ∈ attempts, ¬ a.LeavesWhole data.length) :
    TempsUnreadable codec (NamedDir.afterAll newUuid dir patchId data attempts) := by
  induction attempts generalizing dir with
  | nil => exact h
  | cons attempt rest ih =>
      rw [NamedDir.afterAll_cons]
      refine ih ?_ fun a ha => hNone a (List.mem_cons_of_mem _ ha)
      have hHere := hNone attempt List.mem_cons_self
      have hFinal : TempsUnreadable codec (AList.insert (.final patchId) data dir) := by
        intro other uuid bytes hLookup
        rw [AList.lookup_insert_ne (by simp)] at hLookup
        exact h other uuid bytes hLookup
      cases attempt with
      | completes => exact hFinal
      | stops point interrupt =>
          cases point with
          | create => exact h
          | write count =>
              apply h.insert_tmp
              rw [readPatch_take hData]
              exact if_neg hHere
          | fsync => exact absurd trivial hHere
          | rename => exact absurd trivial hHere
          | syncParent => exact hFinal

end
end PatchDir
end Z1Kv
