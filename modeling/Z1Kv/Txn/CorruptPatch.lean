import Z1Kv.Txn.Fallback

/-! An open on a directory with damaged patch files. The index is rebuilt from the files
that parse; one that does not is skipped with a warning, and strict mode is not asked. -/
namespace Z1Kv

/-- The patch files of each layer that `Z1PatchFormatV4::from_disk_bytes` rejects. -/
structure Corruption where
  l2 : Patch → Bool := fun _ => false
  l3 : Patch → Bool := fun _ => false

/-- The directory as `rebuild_index` sees it. -/
def DataDir.parsed (dir : DataDir) (c : Corruption) : DataDir :=
  { dir with l2 := dir.l2.filter fun p => !c.l2 p, l3 := dir.l3.filter fun p => !c.l3 p }

def Engine.openCorrupted (codec : Codec) (maxFileSize : Nat) (env : OpenEnv) (config : Z1Config)
    (dir : DataDir) (c : Corruption) : Except Z1Error Engine :=
  Engine.openWithConfig codec maxFileSize env config (dir.parsed c)

/-- The versions in the damaged files. -/
def DataDir.corruptVersions (dir : DataDir) (c : Corruption) : List Z1Entry :=
  (dir.l2.filter c.l2).flatMap Patch.versions ++ (dir.l3.filter c.l3).flatMap Patch.versions

/-- The version whose value a get returns. -/
def Engine.takes (db : Engine) (key : Z1Key) : Option Z1Entry :=
  maxByKey Z1Entry.txnId (db.store.candidates db.snapshot.1 key.cf key.key)

example (db : Engine) (key : Z1Key) :
    (db.get key.cf key.key).1 = (db.takes key).bind Z1Entry.value := rfl

/-- An open with damaged files fails, or a get still returns every version of a damaged
file that it returned without the damage. -/
def CorruptionSurfaces (codec : Codec) (maxFileSize : Nat) (env : OpenEnv) (config : Z1Config)
    (dir : DataDir) (c : Corruption) : Prop :=
  (∃ e, Engine.openCorrupted codec maxFileSize env config dir c = .error e) ∨
    ∃ db db', Engine.openWithConfig codec maxFileSize env config dir = .ok db ∧
      Engine.openCorrupted codec maxFileSize env config dir c = .ok db' ∧
      ∀ e ∈ dir.corruptVersions c, db.takes e.key = some e → db'.takes e.key = some e

/-- Versions on disk in the order a get goes through them. -/
def DataDir.onDisk (dir : DataDir) (env : OpenEnv) : List Z1Entry :=
  (DiskLayer.open env dir.l2).versions ++ (DiskLayer.open env dir.l3).versions

/-- The last copy of a version: the last one in the patches, or else the last live Put
of its committed transaction in the log. -/
def DataDir.LastCopy (dir : DataDir) (env : OpenEnv) (entries : List WalEntry) (e : Z1Entry) : Prop :=
  LastOf (·.id = e.id) (dir.onDisk env) e ∨
    (∀ v ∈ dir.onDisk env, v.id ≠ e.id) ∧ HasCommit entries e.txnId ∧
      LastOf (·.id = e.id) ((livePuts e.txnId entries).filterMap WalEntry.version?) e

/-- The version that the directory has for its key: the newest committed one, and the
last copy of that. -/
def DataDir.Serves (dir : DataDir) (env : OpenEnv) (entries : List WalEntry) (e : Z1Entry) : Prop :=
  IsNewest Z1Entry.key Z1Entry.txnId (dir.versions entries) (dir.Committed entries) e.key e ∧
    dir.LastCopy env entries e

/-- Every version of a damaged file that the directory had for its key has a copy outside
the damaged files that takes its place. -/
def HasSpareCopies (env : OpenEnv) (dir : DataDir) (entries : List WalEntry) (c : Corruption) : Prop :=
  ∀ e ∈ dir.corruptVersions c, dir.Serves env entries e → (dir.parsed c).LastCopy env entries e

theorem getLast?_filter_iff {α : Type} {p : α → Prop} [DecidablePred p] {l : List α} {x : α} :
    (l.filter (p ·)).getLast? = some x ↔ p x ∧ LastOf p l x := by
  induction l using List.reverseRecOn with
  | nil => simp [LastOf]
  | append_singleton l y ih =>
      rw [lastOf_concat, List.filter_append]
      by_cases hy : p y
      · simp only [hy, decide_true, List.filter_cons_of_pos, List.filter_nil, List.getLast?_concat,
          Option.some.injEq, not_true_eq_false, and_false, or_false]
        constructor
        · rintro rfl
          exact ⟨hy, rfl⟩
        · exact And.right
      · have hNe : p x → y ≠ x := by
          rintro hx rfl
          exact hy hx
        simp only [hy, decide_false, Bool.false_eq_true, not_false_eq_true, List.filter_cons_of_neg,
          List.filter_nil, List.append_nil, and_true, ih]
        constructor
        · exact fun h => ⟨h.1, .inr h.2⟩
        · exact fun h => ⟨h.1, h.2.resolve_left (hNe h.1)⟩

section
variable {codec : Codec} {maxFileSize : Nat} {env : OpenEnv} {config : Z1Config} {dir : DataDir}
  {entries : List WalEntry} {db : Engine}

/-- The layers of an engine that has just been opened. -/
theorem Engine.open_layers (h : openWithConfig codec maxFileSize env config dir = .ok db) :
    db.store.l1.sources = db.store.l1.hot.values ∧ db.store.recentFlush = ∅ ∧
      db.store.l2 = DiskLayer.open env dir.l2 ∧ db.store.l3 = DiskLayer.open env dir.l3 := by
  obtain ⟨entries, hReplay, -⟩ := Engine.Opened.of_open h
  obtain ⟨recovery, l1, hRecovery, hState⟩ := openWithConfig_cases h
  obtain ⟨recovery', txns, hEq, -⟩ := replayCommittedOps_readable hReplay config.strictMode
    (MemStore.new (64 * 1024 * 1024))
  rw [hEq] at hRecovery
  obtain ⟨rfl, rfl⟩ := Prod.mk.inj (Except.ok.inj hRecovery)
  obtain ⟨-, hCold, hSnapshot⟩ := MemStore.replayOps_hot (MemStore.new (64 * 1024 * 1024))
    (txns.flatMap fun t => livePuts t entries)
  refine ⟨?_, by rw [hState], by rw [hState], by rw [hState]⟩
  rw [hState, MemStore.sources, hCold, hSnapshot]
  simp [MemStore.new]

/-- The last copy a get goes through is the last copy of the directory. -/
theorem Engine.copies_getLast (hOpen : openWithConfig codec maxFileSize env config dir = .ok db)
    (h : db.Opened dir entries) {e : Z1Entry} :
    (db.store.copies e.key.cf e.key.key e.txnId).getLast? = some e ↔ dir.LastCopy env entries e := by
  obtain ⟨hSources, hCache, hL2, hL3⟩ := Engine.open_layers hOpen
  have hCopies : db.store.copies e.key.cf e.key.key e.txnId =
      (db.store.l1.hot.values ++ dir.onDisk env).filter fun v => v.id = e.id := by
    have hSame : ∀ v : Z1Entry, (v.key = ⟨e.key.cf, e.key.key⟩ ∧ v.txnId = e.txnId) ↔ v.id = e.id :=
      fun v => by simp [Z1Entry.id]
    simp only [Store.copies, hSources, hCache, hL2, hL3, VersionMap.values_empty, List.append_nil,
      List.append_assoc, DataDir.onDisk, hSame]
  have hHot : LastOf (·.id = e.id) db.store.l1.hot.values e ↔ e ∈ db.store.l1.hot.values := by
    refine ⟨LastOf.mem, fun he => ?_⟩
    obtain ⟨last, hId, hLast⟩ := @exists_lastOf Z1Entry (·.id = e.id) _ e he rfl
    obtain rfl := VersionMap.values_inj hLast.mem he hId
    exact hLast
  rw [hCopies, getLast?_filter_iff, lastOf_append, hHot, h.mem_hot_iff, DataDir.LastCopy]
  simp

/-- A get takes a version just when the directory has it for its key. -/
theorem Engine.takes_iff (hOpen : openWithConfig codec maxFileSize env config dir = .ok db)
    (h : db.Opened dir entries) {e : Z1Entry} :
    db.takes e.key = some e ↔ dir.Serves env entries e := by
  have hSees : ∀ t, db.snapshot.1.sees t = true ↔ dir.Committed entries t := fun t => by
    rw [h.sound.snapshot_sees, h.history]
    rfl
  have hCopies : ∀ w ∈ dir.versions entries, ∃ u ∈ {e | e ∈ db.store.held}, u.id = w.id :=
    fun w hw => h.held_copy hw
  have hLast : ∀ v : Z1Entry, db.takes v.key = some v →
      (db.store.copies v.key.cf v.key.key v.txnId).getLast? = some v := by
    intro v hv
    rw [← Store.candidates_filter (Store.mem_candidates.mp (maxByKey_mem hv)).2.2]
    exact maxByKey_getLast hv
  constructor
  · intro hTakes
    have hFinds := db.store.candidates_finds db.snapshot.1 e.key.cf e.key.key
    rw [Engine.takes] at hTakes
    rw [hTakes] at hFinds
    have hNewest : IsNewest Z1Entry.key Z1Entry.txnId {e | e ∈ db.store.held}
        (dir.Committed entries) e.key e :=
      Finds.congr hFinds fun v _ _ => hSees v.txnId
    exact ⟨hNewest.of_copies (h.mem_versions hNewest.isHeld) rfl hCopies,
      (Engine.copies_getLast hOpen h).mp (hLast e hTakes)⟩
  · rintro ⟨hNewest, hCopy⟩
    have hGetLast := (Engine.copies_getLast hOpen h).mpr hCopy
    have hSeen : db.snapshot.1.sees e.txnId = true := (hSees _).mpr hNewest.isVisible
    have hCandidate : e ∈ db.store.candidates db.snapshot.1 e.key.cf e.key.key := by
      have hMem := List.mem_of_getLast? hGetLast
      rw [← Store.candidates_filter hSeen] at hMem
      exact (List.mem_filter.mp hMem).1
    obtain ⟨top, hTop, hLe⟩ := @maxByKey_exists _ Z1Entry.txnId _ _ hCandidate
    obtain ⟨hHeld, hKey, hTopSeen⟩ := Store.mem_candidates.mp (maxByKey_mem hTop)
    have hKey : top.key = e.key := hKey
    have hTxn : top.txnId = e.txnId :=
      le_antisymm (hNewest.newest top (h.mem_versions hHeld) hKey ((hSees _).mp hTopSeen)) hLe
    have hTopLast := hLast top (by rw [hKey]; exact hTop)
    rw [hKey, hTxn, hGetLast] at hTopLast
    rw [Engine.takes, hTop, Option.some.inj hTopLast]

theorem DataDir.parsed_versions {c : Corruption} {e : Z1Entry}
    (he : e ∈ (dir.parsed c).versions entries) : e ∈ dir.versions entries := by
  have hLayer : ∀ (files : List Patch) (keep : Patch → Bool),
      e ∈ (files.filter keep).flatMap Patch.versions → e ∈ files.flatMap Patch.versions := by
    intro files keep hMem
    obtain ⟨p, hp, hIn⟩ := List.mem_flatMap.mp hMem
    exact List.mem_flatMap.mpr ⟨p, (List.mem_filter.mp hp).1, hIn⟩
  rcases he with he | he | he
  · exact .inl (hLayer _ _ he)
  · exact .inr (.inl (hLayer _ _ he))
  · exact .inr (.inr he)

/-- A last copy is one of the versions of the directory. -/
theorem DataDir.LastCopy.mem_versions {e : Z1Entry} (h : dir.LastCopy env entries e) :
    e ∈ dir.versions entries := by
  rcases h with hDisk | ⟨-, hCommit, hLast⟩
  · rcases List.mem_append.mp hDisk.mem with hIn | hIn
    · exact .inl (DiskLayer.mem_open.mp hIn)
    · exact .inr (.inl (DiskLayer.mem_open.mp hIn))
  · obtain ⟨op, hOp, hVersion⟩ := List.mem_filterMap.mp hLast.mem
    exact .inr (.inr ⟨hCommit, op, hOp, hVersion⟩)

end

/-- Damaged patch files are reported, or nothing a get could return is missing, just when
the log cannot be read or every version they alone would serve has a copy elsewhere; in
strict mode and without it. -/
theorem corruption_surfaces_iff (codec : Codec) (maxFileSize : Nat) (env : OpenEnv)
    (config : Z1Config) (dir : DataDir) (c : Corruption) :
    CorruptionSurfaces codec maxFileSize env config dir c ↔
      ∀ entries, replayAll codec (WalWriter.openLatest dir.wal (sessionConfig maxFileSize)).dir =
        .ok entries → HasSpareCopies env dir entries c := by
  cases hReplay : replayAll codec (WalWriter.openLatest dir.wal (sessionConfig maxFileSize)).dir with
  | error err =>
      refine ⟨fun _ entries hOk => (by cases hOk), fun _ => .inl ⟨.recoveryFailed .fatal err 0, ?_⟩⟩
      simp only [Engine.openCorrupted, Engine.openWithConfig, replayCommittedOps, DataDir.parsed,
        hReplay]
  | ok entries =>
      obtain ⟨db, hOpen, hOpened⟩ := @open_readable codec maxFileSize env config dir entries hReplay
      obtain ⟨db', hOpen', hOpened'⟩ :=
        @open_readable codec maxFileSize env config (dir.parsed c) entries hReplay
      constructor
      · rintro (⟨err, hErr⟩ | ⟨db₁, db₂, hOpen₁, hOpen₂, hTakes⟩) _ ⟨⟩ e he hServes
        · rw [Engine.openCorrupted, hOpen'] at hErr
          cases hErr
        · obtain rfl := Except.ok.inj (hOpen.symm.trans hOpen₁)
          obtain rfl := Except.ok.inj (hOpen'.symm.trans hOpen₂)
          have hLeft := hTakes e he ((Engine.takes_iff hOpen hOpened).mpr hServes)
          exact ((Engine.takes_iff hOpen' hOpened').mp hLeft).2
      · intro hCovered
        refine .inr ⟨db, db', hOpen, hOpen', fun e he hTakes => ?_⟩
        have hServes := (Engine.takes_iff hOpen hOpened).mp hTakes
        have hCopy := hCovered entries rfl e he hServes
        refine (Engine.takes_iff hOpen' hOpened').mpr
          ⟨⟨hCopy.mem_versions, rfl, hServes.1.isVisible, ?_⟩, hCopy⟩
        exact fun w hw => hServes.1.newest w (DataDir.parsed_versions hw)

/-- Every patch file of L2 is damaged. -/
def allOfL2 : Corruption where
  l2 _ := true

/-- On the directory that a life leaves: whether the damaged files hold a version, what a
get of its key takes, and what it takes after the damage. -/
def takesBothWays (maxFileSize : Nat) (ops : List LifeOp) (e : Z1Entry) :
    Option (Bool × Option Z1Entry × Option Z1Entry) :=
  (life Postcard.codec maxFileSize (.listed 0) {} ops).2.bind fun db =>
    (Engine.openWithConfig Postcard.codec maxFileSize (.listed 0) {}
      (db.close Postcard.codec)).toOption.bind fun whole =>
        (Engine.openCorrupted Postcard.codec maxFileSize (.listed 0) {} (db.close Postcard.codec)
          allOfL2).toOption.map fun damaged =>
            (decide (e ∈ (db.close Postcard.codec).corruptVersions allOfL2), whole.takes e.key,
              damaged.takes e.key)

theorem not_corruptionSurfaces {maxFileSize : Nat} {ops : List LifeOp} {e : Z1Entry}
    (hTakes : takesBothWays maxFileSize ops e = some (true, some e, none)) :
    ∃ db, (life Postcard.codec maxFileSize (.listed 0) {} ops).2 = some db ∧
      ¬ CorruptionSurfaces Postcard.codec maxFileSize (.listed 0) {} (db.close Postcard.codec)
        allOfL2 := by
  obtain ⟨db, hDb, hRest⟩ := Option.bind_eq_some_iff.mp hTakes
  obtain ⟨whole, hWhole, hRest⟩ := Option.bind_eq_some_iff.mp hRest
  obtain ⟨damaged, hDamaged, hTuple⟩ := Option.map_eq_some_iff.mp hRest
  obtain ⟨hMem, hTuple⟩ := Prod.mk.inj hTuple
  obtain ⟨hBefore, hAfter⟩ := Prod.mk.inj hTuple
  refine ⟨db, hDb, fun hSurfaces => ?_⟩
  rcases hSurfaces with ⟨err, hErr⟩ | ⟨db₁, db₂, hOpen₁, hOpen₂, hSame⟩
  · rw [ok_of_toOption hDamaged] at hErr
    cases hErr
  · obtain rfl := Except.ok.inj ((ok_of_toOption hWhole).symm.trans hOpen₁)
    obtain rfl := Except.ok.inj ((ok_of_toOption hDamaged).symm.trans hOpen₂)
    have hTaken := hSame e (of_decide_eq_true hMem) hBefore
    rw [hAfter] at hTaken
    cases hTaken

/-- The value of key 107 is committed and only in L2; with its patch damaged the engine
opens in strict mode and does not have it. -/
theorem corrupt_patch_hides_value :
    ({} : Z1Config).strictMode = true ∧
    (∃ db, (life Postcard.codec engineSegmentSize (.listed 0) {} overwrittenRun).2 = some db ∧
      ¬ CorruptionSurfaces Postcard.codec engineSegmentSize (.listed 0) {}
        (db.close Postcard.codec) allOfL2) ∧
    ∃ db, (life Postcard.codec 30 (.listed 0) {} truncatedRun).2 = some db ∧
      ¬ CorruptionSurfaces Postcard.codec 30 (.listed 0) {} (db.close Postcard.codec) allOfL2 := by
  have hOverwritten : takesBothWays engineSegmentSize overwrittenRun ⟨⟨0, [107]⟩, 1, some [1]⟩ =
      some (true, some ⟨⟨0, [107]⟩, 1, some [1]⟩, none) := by
    decide +kernel
  have hTruncated : takesBothWays 30 truncatedRun ⟨⟨0, [107]⟩, 1, some [1]⟩ =
      some (true, some ⟨⟨0, [107]⟩, 1, some [1]⟩, none) := by
    decide +kernel
  exact ⟨rfl, not_corruptionSurfaces hOverwritten, not_corruptionSurfaces hTruncated⟩

end Z1Kv
