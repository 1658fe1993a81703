import Z1Kv.Txn.Traffic

/-! The versions of a run. In each of its states, the last value that a transaction has
written for a version is somewhere between the log and L3, and every other copy of the
version that the next open could find has that value too. -/
namespace Z1Kv

section LastWrites
variable {j : List News} {e v : Z1Entry}

theorem FinalWrite.wrote (h : FinalWrite j e) : .wrote e ∈ j := (mem_writesOf.mp (LastOf.mem h)).1

theorem FinalWrite.eq_of_id (he : FinalWrite j e) (hv : FinalWrite j v)
    (hId : e.id = v.id) : e = v := by
  obtain ⟨i, hi, hAfter⟩ := LastOf.position he
  obtain ⟨k, hk, hAfter'⟩ := LastOf.position hv
  have hTxn : v.txnId = e.txnId := (Prod.mk.inj hId).2.symm
  rw [hTxn] at hk hAfter'
  have hSame : i = k := le_antisymm (hAfter' i e hi hId) (hAfter k v hk hId.symm)
  rw [hSame, hk] at hi
  exact (Option.some.inj hi).symm

theorem finalWrite_concat_wrote :
    FinalWrite (j ++ [.wrote v]) e ↔ e = v ∨ FinalWrite j e ∧ e.id ≠ v.id := by
  unfold FinalWrite
  rw [writesOf_concat]
  dsimp only
  split
  · rw [lastOf_concat, eq_comm, ne_comm]
  · next hTxn =>
    have hNe : e.id ≠ v.id := fun hId => hTxn (Prod.mk.inj hId).2.symm
    constructor
    · exact fun hLast => Or.inr ⟨hLast, hNe⟩
    · rintro (rfl | ⟨hLast, -⟩)
      · exact absurd rfl hNe
      · exact hLast

theorem finalWrite_concat {n : News} (hn : ∀ w, n ≠ .wrote w) :
    FinalWrite (j ++ [n]) e ↔ FinalWrite j e := by
  unfold FinalWrite
  rw [writesOf_concat]
  cases n with
  | wrote w => exact absurd rfl (hn w)
  | _ => exact Iff.rfl

end LastWrites

namespace Traffic
variable {codec : Codec} {s s' : Traffic} {act : Act}

/-- The version has its last value, or is about to get it. -/
def Settled (s : Traffic) (v : Z1Entry) : Prop :=
  FinalWrite s.journal v ∨ ∃ e, s.Underway e ∧ e.id = v.id

/-- Beyond the hot buffer. -/
def Shelf (s : Traffic) (e : Z1Entry) : Prop :=
  s.OnDisk e ∨ s.checkpoint.InHand s.db.store.recentFlush e

/-- Where the versions are, and which values of them. -/
structure Shelved (s : Traffic) : Prop where
  logged : ∀ e, s.Underway e → FinalWrite s.journal e
  hot : ∀ v ∈ s.db.store.l1.hot.values, s.Settled v
  leaving : ∀ v, s.Leaving v → s.Settled v
  cached : ∀ v ∈ s.db.store.recentFlush.values,
    s.Settled v ∨ ∃ u ∈ s.db.store.l1.hot.values, u.id = v.id
  placed : ∀ e, FinalWrite s.journal e → s.Underway e ∨ e ∈ s.db.store.l1.hot.values ∨ s.Shelf e
  grouped : ∀ group ∈ s.checkpoint.groups, ∀ pe ∈ group.2,
    pe.toZ1Entry group.1 ∈ s.db.store.recentFlush.values

namespace Shelved

/-- A step of the checkpoint after the hot buffer has been taken. -/
theorem move (h : s.Shelved) {db : Engine} {phase : CheckpointPhase}
    (hHot : db.store.l1.hot = s.db.store.l1.hot)
    (hLeaving : ∀ v, Leaving { s with db, checkpoint := phase } v → s.Leaving v)
    (hCached : ∀ v ∈ db.store.recentFlush.values, v ∈ s.db.store.recentFlush.values)
    (hShelf : ∀ e, s.Shelf e → Shelf { s with db, checkpoint := phase } e)
    (hGrouped : ∀ group ∈ phase.groups, ∀ pe ∈ group.2,
      pe.toZ1Entry group.1 ∈ db.store.recentFlush.values) :
    Shelved { s with db, checkpoint := phase } := by
  refine ⟨h.logged, ?_, fun v hv => h.leaving v (hLeaving v hv), ?_, ?_, hGrouped⟩
  · dsimp only
    rw [hHot]
    exact h.hot
  · intro v hv
    dsimp only
    rw [hHot]
    exact h.cached v (hCached v hv)
  · intro e he
    dsimp only
    rw [hHot]
    exact (h.placed e he).imp_right (Or.imp_right (hShelf e))

/-- The hot buffer is taken. -/
theorem stage (h : s.Shelved) (hStart : s.checkpoint = .start) :
    Shelved
      { s with
        db := { s.db with store := s.db.store.stage }
        checkpoint := .patching (cfGroups s.db.store.stage.recentFlush.values) } := by
  have hTaken : ∀ v ∈ s.db.store.stage.recentFlush.values, s.Settled v := by
    intro v hv
    rcases VersionMap.mem_values_putAll hv with hHot | ⟨hOld, hNone⟩
    · exact h.hot v hHot
    · refine (h.cached v hOld).resolve_right ?_
      rintro ⟨u, hu, hId⟩
      exact hNone u hu hId
  refine ⟨h.logged, fun v hv => absurd hv List.not_mem_nil, ?_, fun v hv => Or.inl (hTaken v hv),
    ?_, ?_⟩
  · rintro v (hL2 | hL3 | hGroups)
    · exact h.leaving v (Or.inl hL2)
    · exact h.leaving v (Or.inr (Or.inl hL3))
    · exact hTaken v (mem_cfGroups.mpr hGroups)
  · intro e he
    -- a version of the hot buffer or the cache with this id has this value, if no write is underway
    have hHand : e ∈ s.db.store.l1.hot.values ∨ e ∈ s.db.store.recentFlush.values →
        s.Underway e ∨ e ∈ s.db.store.stage.recentFlush.values := by
      intro hIn
      obtain ⟨v, hv, hId⟩ := @VersionMap.exists_putAll s.db.store.recentFlush _ _ hIn
      rcases hTaken v hv with hLast | ⟨w, hUnderway, hSame⟩
      · rw [← hLast.eq_of_id he hId]
        exact Or.inr hv
      · rw [← (h.logged w hUnderway).eq_of_id he (hSame.trans hId)]
        exact Or.inl hUnderway
    rcases h.placed e he with hUnderway | hHot | hDisk | hCache
    · exact Or.inl hUnderway
    · exact (hHand (Or.inl hHot)).imp_right fun hIn => Or.inr (Or.inr (mem_cfGroups.mp hIn))
    · exact Or.inr (Or.inr (Or.inl hDisk))
    · rw [hStart] at hCache
      exact (hHand (Or.inr hCache)).imp_right fun hIn => Or.inr (Or.inr (mem_cfGroups.mp hIn))
  · exact fun group hGroup pe hPe => mem_cfGroups.mpr ⟨group, hGroup, pe, hPe, rfl⟩

/-- A step of the checkpoint that leaves the layers alone. -/
theorem idle (h : s.Shelved) {db : Engine} {phase : CheckpointPhase} (hStore : db.store = s.db.store)
    (hNone : phase.groups = [])
    (hHand : ∀ e, s.checkpoint.InHand s.db.store.recentFlush e →
        phase.InHand s.db.store.recentFlush e) :
    Shelved { s with db, checkpoint := phase } := by
  refine h.move (by rw [hStore]) ?_ (by rw [hStore]; exact fun v hv => hv) ?_ (by simp [hNone])
  · rintro v (hL2 | hL3 | ⟨group, hGroup, -⟩)
    · rw [hStore] at hL2
      exact Or.inl hL2
    · rw [hStore] at hL3
      exact Or.inr (Or.inl hL3)
    · dsimp only at hGroup
      rw [hNone] at hGroup
      cases hGroup
  · intro e he
    dsimp only [Shelf, OnDisk]
    rw [hStore]
    exact he.imp_right (hHand e)

theorem patch (h : s.Shelved) {cf : UInt16} {entries : List PatchEntry}
    {rest : List (UInt16 × List PatchEntry)} {outcome : PatchOutcome} {patchId : Nat} {l2 : DiskLayer}
    {result : Except Z1Error Unit} {next : CheckpointPhase}
    (hPhase : s.checkpoint = .patching ((cf, entries) :: rest))
    (hPatch : s.db.store.l2.appendPatch outcome cf entries patchId = (result, l2))
    (hNext : result = .ok () ∧ next = .patching rest ∨ ∃ e, next = .ended (.error e)) :
    Shelved
      { s with
        db := { s.db with store := { s.db.store with l2, nextPatchId := patchId + 1 } }
        checkpoint := next } := by
  have hGroups : s.checkpoint.groups = (cf, entries) :: rest := by
    rw [hPhase]
    rfl
  have hRest : ∀ group ∈ next.groups, group ∈ (cf, entries) :: rest := by
    rcases hNext with ⟨-, rfl⟩ | ⟨e, rfl⟩
    · exact fun group hGroup => List.mem_cons_of_mem _ hGroup
    · simp [CheckpointPhase.groups]
  refine h.move rfl ?_ (fun v hv => hv) ?_ ?_
  · have hWritten : ∀ v, (∃ pe ∈ entries, pe.toZ1Entry cf = v) → s.Leaving v := by
      rintro v ⟨pe, hPe, rfl⟩
      refine Or.inr (Or.inr ⟨(cf, entries), ?_, pe, hPe, rfl⟩)
      rw [hGroups]
      exact List.mem_cons_self
    rintro v (hL2 | hL3 | ⟨group, hGroup, hPe⟩)
    · obtain rfl : (s.db.store.l2.appendPatch outcome cf entries patchId).2 = l2 := by rw [hPatch]
      rw [DiskLayer.files, List.flatMap_append, List.mem_append] at hL2
      rcases hL2 with hIndexed | hImage
      · rcases DiskLayer.appendPatch_versions hIndexed with hOld | hNew
        · exact Or.inl (DiskLayer.mem_files hOld)
        · exact hWritten v hNew
      · rcases DiskLayer.appendPatch_imageVersions hImage with hOld | hNew
        · refine Or.inl ?_
          rw [DiskLayer.files, List.flatMap_append, List.mem_append]
          exact Or.inr hOld
        · exact hWritten v hNew
    · exact Or.inr (Or.inl hL3)
    · refine Or.inr (Or.inr ⟨group, ?_, hPe⟩)
      rw [hGroups]
      exact hRest group hGroup
  · rintro e (hDisk | hHand)
    · exact Or.inl (hDisk.imp_left (DiskLayer.subset_appendPatch hPatch))
    · rw [hPhase] at hHand
      rcases hNext with ⟨rfl, rfl⟩ | ⟨e', rfl⟩
      · rcases DiskLayer.appendPatch_groups hPatch (Or.inr hHand) with hL2 | hLater
        · exact Or.inl (Or.inl hL2)
        · exact Or.inr hLater
      · obtain ⟨group, hGroup, pe, hPe, rfl⟩ := hHand
        exact Or.inr (h.grouped group (by rw [hGroups]; exact hGroup) pe hPe)
  · intro group hGroup pe hPe
    exact h.grouped group (by rw [hGroups]; exact hRest group hGroup) pe hPe

theorem checkpoint (h : s.Shelved) {db : Engine} {phase : CheckpointPhase}
    (hStep : CheckpointStep codec (s.checkpoint, s.db) (phase, db)) :
    Shelved { s with db, checkpoint := phase } := by
  obtain ⟨before, calls, current, j⟩ := s
  cases hStep with
  | stage => exact h.stage rfl
  | patch _ cf entries rest outcome l2 hPatch => exact h.patch rfl hPatch (Or.inl ⟨rfl, rfl⟩)
  | patchFails _ cf entries rest outcome l2 e hPatch => exact h.patch rfl hPatch (Or.inr ⟨e, rfl⟩)
  | clear =>
      refine h.move rfl (fun v hv => hv) (fun v hv => absurd hv List.not_mem_nil) ?_
        (by simp [CheckpointPhase.groups])
      rintro e (hDisk | ⟨group, hGroup, -⟩)
      · exact Or.inl hDisk
      · cases hGroup
  | _ => exact h.idle rfl rfl fun e hHand => absurd hHand id

end Shelved

theorem underway_afterCall {i : Nat} {phase : CallPhase} {db : Engine} {e : Z1Entry} :
    (s.afterCall i phase db).Underway e ↔
      phase = .loggedWrite e ∨ ∃ k, k ≠ i ∧ s.calls k = .loggedWrite e :=
  @exists_afterCall s i phase db (· = .loggedWrite e)

/-- No two calls write one version. -/
theorem Orderly.id_ne (h : s.Orderly) {i k : Nat} (hNe : k ≠ i) {e v : Z1Entry}
    (hi : (s.calls i).work? = some (e.txnId, some e.key)) (hk : s.calls k = .loggedWrite v) :
    v.id ≠ e.id := by
  intro hId
  obtain ⟨hKey, hTxn⟩ := Prod.mk.inj hId
  refine h.apart i k hNe.symm ⟨e.txnId, some e.key, some v.key, hi, ?_,
    Or.inr (Or.inr (by rw [hKey]))⟩
  rw [hk, ← hTxn]
  rfl

namespace Shelved
variable {i : Nat} {phase : CallPhase} {db : Engine}

/-- The record of a write goes to the log. -/
theorem log (h : s.Shelved) (hOrderly : s.Orderly) {e : Z1Entry}
    (hPhase : s.calls i = .recordedWrite e)
    (hStore : db.store = s.db.store) :
    (s.afterCall i (.loggedWrite e) db).Shelved := by
  have hWork : (s.calls i).work? = some (e.txnId, some e.key) := by
    rw [hPhase]
    rfl
  have hOther : ∀ v, s.Underway v → ∃ k, k ≠ i ∧ s.calls k = .loggedWrite v := by
    rintro v ⟨k, hk⟩
    refine ⟨k, ?_, hk⟩
    rintro rfl
    rw [hPhase] at hk
    cases hk
  have hSettled : ∀ v, s.Settled v → (s.afterCall i (.loggedWrite e) db).Settled v := by
    intro v hv
    by_cases hId : v.id = e.id
    · exact Or.inr ⟨e, underway_afterCall.mpr (Or.inl rfl), hId.symm⟩
    · rcases hv with hLast | ⟨w, hUnderway, hSame⟩
      · exact Or.inl (finalWrite_concat_wrote.mpr (Or.inr ⟨hLast, hId⟩))
      · exact Or.inr ⟨w, underway_afterCall.mpr (Or.inr (hOther w hUnderway)), hSame⟩
  refine ⟨fun v hv => ?_, ?_, fun v hv => ?_, ?_, fun v hv => ?_, ?_⟩
  · rcases underway_afterCall.mp hv with hNew | ⟨k, hNe, hk⟩
    · exact finalWrite_concat_wrote.mpr (Or.inl (CallPhase.loggedWrite.inj hNew).symm)
    · exact finalWrite_concat_wrote.mpr (Or.inr ⟨h.logged v ⟨k, hk⟩, hOrderly.id_ne hNe hWork hk⟩)
  · rw [afterCall_db, hStore]
    exact fun v hv => hSettled v (h.hot v hv)
  · dsimp only [Leaving] at hv
    rw [afterCall_db, hStore] at hv
    exact hSettled v (h.leaving v hv)
  · rw [afterCall_db, hStore]
    exact fun v hv => (h.cached v hv).imp_left (hSettled v)
  · rcases finalWrite_concat_wrote.mp hv with rfl | ⟨hLast, -⟩
    · exact Or.inl (underway_afterCall.mpr (Or.inl rfl))
    · dsimp only [Shelf, OnDisk]
      rw [afterCall_db, hStore]
      exact (h.placed v hLast).imp_left fun hUnderway =>
        underway_afterCall.mpr (Or.inr (hOther v hUnderway))
  · rw [afterCall_db, hStore]
    exact h.grouped

/-- A write comes into the hot buffer. -/
theorem insert (h : s.Shelved) (hOrderly : s.Orderly) {e : Z1Entry}
    (hPhase : s.calls i = .loggedWrite e)
    (hSpares : ∀ v, s.Leaving v → v.id = e.id → v = e)
    (hHot : db.store.l1.hot = s.db.store.l1.hot.put e)
    (hCache : db.store.recentFlush = s.db.store.recentFlush) (hL2 : db.store.l2 = s.db.store.l2)
    (hL3 : db.store.l3 = s.db.store.l3) :
    (s.afterCall i (.insertedWrite e) db).Shelved := by
  have hLast : FinalWrite s.journal e := h.logged e ⟨i, hPhase⟩
  have hWork : (s.calls i).work? = some (e.txnId, some e.key) := by
    rw [hPhase]
    rfl
  have hJournal : ∀ v, FinalWrite (s.journal ++ [.other]) v ↔ FinalWrite s.journal v :=
    fun v => finalWrite_concat (by simp)
  have hUnderway : ∀ v, s.Underway v →
      v = e ∨ v.id ≠ e.id ∧ (s.afterCall i (.insertedWrite e) db).Underway v := by
    rintro v ⟨k, hk⟩
    by_cases hSame : k = i
    · rw [hSame, hPhase] at hk
      exact Or.inl (CallPhase.loggedWrite.inj hk).symm
    · exact Or.inr ⟨hOrderly.id_ne hSame hWork hk, underway_afterCall.mpr (Or.inr ⟨k, hSame, hk⟩)⟩
  -- a version is settled as before, unless the inserted value is what it was waiting for
  have hSettled : ∀ v, s.Settled v →
      v.id = e.id ∨ (s.afterCall i (.insertedWrite e) db).Settled v := by
    rintro v (hLast | ⟨w, hw, hId⟩)
    · exact Or.inr (Or.inl ((hJournal v).mpr hLast))
    · rcases hUnderway w hw with rfl | ⟨-, hw'⟩
      · exact Or.inl hId.symm
      · exact Or.inr (Or.inr ⟨w, hw', hId⟩)
  have hOwn : (s.afterCall i (.insertedWrite e) db).Settled e :=
    Or.inl ((hJournal e).mpr hLast)
  refine ⟨fun v hv => ?_, fun v hv => ?_, fun v hv => ?_, fun v hv => ?_, fun v hv => ?_, ?_⟩
  · rcases underway_afterCall.mp hv with hNew | ⟨k, -, hk⟩
    · cases hNew
    · exact (hJournal v).mpr (h.logged v ⟨k, hk⟩)
  · rw [afterCall_db, hHot] at hv
    rcases VersionMap.mem_values_put.mp hv with rfl | ⟨hOld, hNe⟩
    · exact hOwn
    · exact (hSettled v (h.hot v hOld)).resolve_left hNe
  · dsimp only [Leaving] at hv
    rw [afterCall_db, hL2, hL3] at hv
    by_cases hId : v.id = e.id
    · rw [hSpares v hv hId]
      exact hOwn
    · exact (hSettled v (h.leaving v hv)).resolve_left hId
  · rw [afterCall_db, hCache] at hv
    rw [afterCall_db, hHot]
    by_cases hId : v.id = e.id
    · exact Or.inr ⟨e, VersionMap.mem_values_put.mpr (Or.inl rfl), hId.symm⟩
    · rcases h.cached v hv with hOld | ⟨u, hu, hSame⟩
      · exact Or.inl ((hSettled v hOld).resolve_left hId)
      · refine Or.inr ⟨u, VersionMap.mem_values_put.mpr (Or.inr ⟨hu, ?_⟩), hSame⟩
        rwa [hSame]
  · have hv := (hJournal v).mp hv
    dsimp only [Shelf, OnDisk]
    rw [afterCall_db, hHot, hCache, hL2, hL3]
    rcases h.placed v hv with hOld | hIn | hShelf
    · rcases hUnderway v hOld with rfl | ⟨-, hNew⟩
      · exact Or.inr (Or.inl (VersionMap.mem_values_put.mpr (Or.inl rfl)))
      · exact Or.inl hNew
    · refine Or.inr (Or.inl (VersionMap.mem_values_put.mpr ?_))
      by_cases hId : v.id = e.id
      · exact Or.inl (hv.eq_of_id hLast hId)
      · exact Or.inr ⟨hIn, hId⟩
    · exact Or.inr (Or.inr hShelf)
  · rw [afterCall_db, hCache]
    exact h.grouped

/-- A step of a call that writes nothing. -/
theorem quiet (h : s.Shelved) (hOld : ∀ e, s.calls i ≠ .loggedWrite e)
    (hNew : ∀ e, phase ≠ .loggedWrite e) (hNews : ∀ w, phase.news ≠ .wrote w)
    (hHot : db.store.l1.hot = s.db.store.l1.hot)
    (hCache : db.store.recentFlush = s.db.store.recentFlush) (hL2 : db.store.l2 = s.db.store.l2)
    (hL3 : db.store.l3 = s.db.store.l3) :
    (s.afterCall i phase db).Shelved := by
  have hJournal : ∀ v, FinalWrite (s.journal ++ [phase.news]) v ↔ FinalWrite s.journal v :=
    fun v => finalWrite_concat hNews
  have hUnderway : ∀ v, (s.afterCall i phase db).Underway v ↔ s.Underway v := by
    intro v
    rw [underway_afterCall]
    constructor
    · rintro (hPhase | ⟨k, -, hk⟩)
      · exact absurd hPhase (hNew v)
      · exact ⟨k, hk⟩
    · rintro ⟨k, hk⟩
      refine Or.inr ⟨k, ?_, hk⟩
      rintro rfl
      exact hOld v hk
  have hSettled : ∀ v, (s.afterCall i phase db).Settled v ↔ s.Settled v := by
    intro v
    unfold Settled
    simp only [hUnderway, afterCall_journal, hJournal]
  refine ⟨fun v hv => (hJournal v).mpr (h.logged v ((hUnderway v).mp hv)), ?_, fun v hv => ?_, ?_,
    fun v hv => ?_, ?_⟩
  · rw [afterCall_db, hHot]
    exact fun v hv => (hSettled v).mpr (h.hot v hv)
  · dsimp only [Leaving] at hv
    rw [afterCall_db, hL2, hL3] at hv
    exact (hSettled v).mpr (h.leaving v hv)
  · rw [afterCall_db, hHot, hCache]
    exact fun v hv => (h.cached v hv).imp_left (hSettled v).mpr
  · dsimp only [Shelf, OnDisk]
    rw [afterCall_db, hHot, hCache, hL2, hL3]
    exact (h.placed v ((hJournal v).mp hv)).imp_left (hUnderway v).mpr
  · rw [afterCall_db, hCache]
    exact h.grouped

theorem call (h : s.Shelved) (hOrderly : s.Orderly)
    (hStep : CallStep codec (s.calls i, s.db) (phase, db))
    (hSpares : s.Spares codec (.call i phase)) :
    (s.afterCall i phase db).Shelved := by
  obtain ⟨size, hStore⟩ := hStep.store_eq
  cases hPhase : s.calls i with
  | recordedWrite e =>
      rw [hPhase] at hStep
      cases hStep with
      | logWrite => exact h.log hOrderly hPhase rfl
  | loggedWrite e =>
      rw [hPhase] at hStep
      simp only [Spares, hPhase] at hSpares
      cases hStep with
      | insertWrite => exact h.insert hOrderly hPhase hSpares rfl rfl rfl rfl
  | _ =>
      have hInserts : (s.calls i).inserts = [] := by rw [hPhase]; rfl
      rw [hInserts] at hStore
      rw [hPhase] at hStep
      refine h.quiet (by simp [hPhase]) ?_ ?_ (by rw [hStore]; rfl) (by rw [hStore]) (by rw [hStore])
        (by rw [hStore])
      · rintro e rfl
        cases hStep
      · intro w hNews
        cases hStep <;> cases hNews

/-- Every step of a sparing run keeps the versions where they belong. -/
theorem step (h : s.Shelved) (hOrderly : s.Orderly) (hStep : Step codec s act s')
    (hSpares : s.Spares codec act) : s'.Shelved := by
  cases hStep with
  | call i phase db hCall => exact h.call hOrderly hCall hSpares
  | checkpoint phase db hCheckpoint => exact h.checkpoint hCheckpoint
  | restart result hEnded =>
      refine h.idle rfl rfl fun e hHand => ?_
      rw [hEnded] at hHand
      exact hHand

end Shelved
end Traffic
end Z1Kv
