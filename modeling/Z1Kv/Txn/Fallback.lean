import Z1Kv.Txn.Clocks

/-! An open without its checkpoint. Recovery then knows the transactions that the
log has with Commit and Put records; those that only the checkpoint knew are gone
from the history, and their versions in L2 and L3 from sight, without an error. -/
namespace Z1Kv

/-- The versions that an open finds: those of the patches, and those that recovery
takes from the log. -/
def DataDir.versions (dir : DataDir) (entries : List WalEntry) : Set Z1Entry :=
  {e | e ∈ dir.l2.flatMap Patch.versions ∨ e ∈ dir.l3.flatMap Patch.versions ∨
    HasCommit entries e.txnId ∧ ∃ op ∈ livePuts e.txnId entries, op.version? = some e}

section
variable {codec : Codec} {maxFileSize : Nat} {env : OpenEnv} {config : Z1Config} {dir : DataDir}
  {entries : List WalEntry} {db : Engine}

theorem Engine.Opened.mem_versions (h : db.Opened dir entries) {e : Z1Entry} (he : e ∈ db.store.held) :
    e ∈ dir.versions entries := by
  rcases Store.mem_held_iff.mp he with he | he
  · exact Or.inr (Or.inr (h.hot e he))
  · rcases (h.beyond e).mp he with he | he
    · exact Or.inl ((h.l2 e).mp he)
    · exact Or.inr (Or.inl ((h.l3 e).mp he))

theorem Engine.Opened.hot_copy (h : db.Opened dir entries) {e : Z1Entry} {op : WalEntry}
    (hCommit : HasCommit entries e.txnId) (hOp : op ∈ livePuts e.txnId entries)
    (hVersion : op.version? = some e) :
    ∃ v ∈ db.store.l1.hot.values, v.id = e.id ∧
      LastOf (·.id = e.id) ((livePuts e.txnId entries).filterMap WalEntry.version?) v := by
  obtain ⟨last, hId, hLast⟩ := @exists_lastOf Z1Entry (·.id = e.id) _ e
    (List.mem_filterMap.mpr ⟨op, hOp, hVersion⟩) rfl
  refine ⟨last, ?_, hId, hLast⟩
  have hTxn : last.txnId = e.txnId := (Prod.mk.inj hId).2
  obtain ⟨before, after, hSplit, hAfter⟩ := hLast
  rw [← hTxn] at hCommit hSplit
  exact h.hotLast last before after hCommit hSplit fun later hLater hSame =>
    hAfter later hLater (hSame.trans hId)

theorem Engine.Opened.mem_hot_iff (h : db.Opened dir entries) {e : Z1Entry} :
    e ∈ db.store.l1.hot.values ↔ HasCommit entries e.txnId ∧
      LastOf (·.id = e.id) ((livePuts e.txnId entries).filterMap WalEntry.version?) e := by
  constructor
  · intro he
    obtain ⟨hCommit, op, hOp, hVersion⟩ := h.hot e he
    obtain ⟨last, hIn, hId, hLast⟩ := h.hot_copy hCommit hOp hVersion
    obtain rfl := VersionMap.values_inj hIn he hId
    exact ⟨hCommit, hLast⟩
  · rintro ⟨hCommit, before, after, hSplit, hAfter⟩
    exact h.hotLast e before after hCommit hSplit hAfter

theorem Engine.Opened.held_of_disk (h : db.Opened dir entries) {e : Z1Entry}
    (he : e ∈ dir.l2.flatMap Patch.versions ∨ e ∈ dir.l3.flatMap Patch.versions) :
    e ∈ db.store.held := by
  refine Store.mem_held_iff.mpr (Or.inr ((h.beyond e).mpr ?_))
  exact he.imp (h.l2 e).mpr (h.l3 e).mpr

theorem Engine.Opened.held_copy (h : db.Opened dir entries) {e : Z1Entry}
    (he : e ∈ dir.versions entries) : ∃ v ∈ db.store.held, v.id = e.id := by
  rcases he with he | he | ⟨hCommit, op, hOp, hVersion⟩
  · exact ⟨e, h.held_of_disk (Or.inl he), rfl⟩
  · exact ⟨e, h.held_of_disk (Or.inr he), rfl⟩
  · obtain ⟨v, hv, hId, -⟩ := h.hot_copy hCommit hOp hVersion
    exact ⟨v, Store.mem_held_iff.mpr (Or.inl hv), hId⟩

/-- The log decides whether an open succeeds and what is in the layers; the
checkpoint has no part in it. -/
theorem Engine.open_congr (h : openWithConfig codec maxFileSize env config dir = .ok db)
    (ckpts : CheckpointDir) :
    ∃ db', openWithConfig codec maxFileSize env config { dir with checkpoints := ckpts } = .ok db' ∧
      db'.store = db.store := by
  obtain ⟨recovery, l1, hRecovery, hState⟩ := openWithConfig_cases h
  unfold openWithConfig
  dsimp only
  rw [hRecovery]
  refine ⟨_, rfl, ?_⟩
  rw [hState]

end

/-- An open without the checkpoint fails, or every key reads as with it. -/
def FallsBack (codec : Codec) (maxFileSize : Nat) (env : OpenEnv) (config : Z1Config) (dir : DataDir)
    (damaged : CheckpointDir) : Prop :=
  (∃ e, Engine.openWithConfig codec maxFileSize env config { dir with checkpoints := damaged } =
      .error e) ∨
    ∃ db db', Engine.openWithConfig codec maxFileSize env config dir = .ok db ∧
      Engine.openWithConfig codec maxFileSize env config { dir with checkpoints := damaged } =
        .ok db' ∧ ∀ cf key, (db'.get cf key).1 = (db.get cf key).1

/-- Committed as the directory has it: by the checkpoint or by the log. -/
def DataDir.Committed (dir : DataDir) (entries : List WalEntry) (t : TxnId) : Prop :=
  t ∈ dir.checkpoints.history ∨ InLog entries t

/-- The newest committed version of every key belongs to a transaction that the log
still knows. -/
def LogKnowsWinners (dir : DataDir) (entries : List WalEntry) : Prop :=
  ∀ key e, IsNewest Z1Entry.key Z1Entry.txnId (dir.versions entries) (dir.Committed entries) key e →
    InLog entries e.txnId

/-- The committed versions of a key have values, each its own. -/
def DataDir.ValuesDiffer (dir : DataDir) (entries : List WalEntry) : Prop :=
  ∀ a ∈ dir.versions entries, dir.Committed entries a.txnId → a.value ≠ none ∧
    ∀ b ∈ dir.versions entries, dir.Committed entries b.txnId → a.key = b.key →
      a.value = b.value → a.txnId = b.txnId

/-- Two reads of one store through snapshots of which one sees less. -/
theorem Store.getAt_restrict {s : Store} {snap less : TxnSnapshot}
    (hLess : ∀ t, less.sees t = true → snap.sees t = true) (cf : UInt16) (key : Bytes)
    (hTop : ∀ e, s.Wins snap ⟨cf, key⟩ e → less.sees e.txnId = true) :
    s.getAt less cf key = s.getAt snap cf key := by
  obtain ⟨found, hFinds, hLast, hGet⟩ := s.getAt_top snap cf key
  obtain ⟨found', hFinds', hLast', hGet'⟩ := s.getAt_top less cf key
  rw [hGet, hGet']
  cases found with
  | none =>
      cases found' with
      | none => rfl
      | some e => exact absurd (hLess _ hFinds'.isVisible) (hFinds e hFinds'.isHeld hFinds'.hasKey)
  | some e =>
      have hSeen := hTop e hFinds
      cases found' with
      | none => exact absurd hSeen (hFinds' e hFinds.isHeld hFinds.hasKey)
      | some e' =>
          have hTxn := le_antisymm
            (hFinds.newest e' hFinds'.isHeld hFinds'.hasKey (hLess _ hFinds'.isVisible))
            (hFinds'.newest e hFinds.isHeld hFinds.hasKey hSeen)
          have hCopy := hLast' e' rfl
          rw [hTxn, hLast e rfl] at hCopy
          rw [Option.some.inj hCopy]

/-- A newest version of a set of versions, among copies of them. -/
theorem IsNewest.of_copies {held held' : Set Z1Entry} {visible : TxnId → Prop} {key : Z1Key}
    {e v : Z1Entry} (h : IsNewest Z1Entry.key Z1Entry.txnId held visible key e) (hv : v ∈ held')
    (hId : v.id = e.id) (hCopies : ∀ w ∈ held', ∃ u ∈ held, u.id = w.id) :
    IsNewest Z1Entry.key Z1Entry.txnId held' visible key v := by
  obtain ⟨hKey, hTxn⟩ := Prod.mk.inj hId
  refine ⟨hv, hKey.trans h.hasKey, by rw [hTxn]; exact h.isVisible, fun w hw hwKey hwSeen => ?_⟩
  obtain ⟨u, hu, hIdU⟩ := hCopies w hw
  obtain ⟨huKey, huTxn⟩ := Prod.mk.inj hIdU
  rw [hTxn, ← huTxn]
  exact h.newest u hu (huKey.trans hwKey) (by rw [huTxn]; exact hwSeen)

/-- Losing the checkpoint loses nothing when the log cannot be read, for then the open
fails, or when it knows the winners; and only then, if values tell the committed
versions of a key apart. -/
theorem checkpoint_is_optional {codec : Codec} {maxFileSize : Nat} {env : OpenEnv} {config : Z1Config}
    {dir : DataDir} {damaged : CheckpointDir} (hDamaged : damaged.loadLatest = none) :
    (∀ err, replayAll codec (WalWriter.openLatest dir.wal (sessionConfig maxFileSize)).dir =
        .error err → FallsBack codec maxFileSize env config dir damaged) ∧
    ∀ entries, replayAll codec (WalWriter.openLatest dir.wal (sessionConfig maxFileSize)).dir =
        .ok entries →
      (LogKnowsWinners dir entries → FallsBack codec maxFileSize env config dir damaged) ∧
      (dir.ValuesDiffer entries → FallsBack codec maxFileSize env config dir damaged →
        LogKnowsWinners dir entries) := by
  constructor
  · intro err hErr
    refine Or.inl ⟨.recoveryFailed .fatal err 0, ?_⟩
    simp only [Engine.openWithConfig, replayCommittedOps, hErr]
  intro entries hReplay
  obtain ⟨db, hOpen, hOpened⟩ := @open_readable codec maxFileSize env config dir entries hReplay
  obtain ⟨db', hOpen', hOpened'⟩ := @open_readable codec maxFileSize env config
    { dir with checkpoints := damaged } entries hReplay
  have hStore : db'.store = db.store := by
    obtain ⟨other, hOther, hStore⟩ := Engine.open_congr hOpen damaged
    obtain rfl := Except.ok.inj (hOther.symm.trans hOpen')
    exact hStore
  have hSees : ∀ t, db.snapshot.1.sees t = true ↔ dir.Committed entries t := fun t => by
    rw [hOpened.sound.snapshot_sees, hOpened.history]
    rfl
  have hNone : damaged.history = [] := by
    simp [CheckpointDir.history, CheckpointDir.recoveryBaseline, hDamaged]
  have hSees' : ∀ t, db'.snapshot.1.sees t = true ↔ InLog entries t := by
    intro t
    rw [hOpened'.sound.snapshot_sees, hOpened'.history, hNone]
    simp
  have hLess : ∀ t, db'.snapshot.1.sees t = true → db.snapshot.1.sees t = true :=
    fun t ht => (hSees t).mpr (Or.inr ((hSees' t).mp ht))
  have hCopies : ∀ w ∈ dir.versions entries, ∃ u ∈ {e | e ∈ db.store.held}, u.id = w.id :=
    fun w hw => hOpened.held_copy hw
  constructor
  · refine fun hKnown => Or.inr ⟨db, db', hOpen, hOpen', fun cf key => ?_⟩
    rw [Engine.get_eq, Engine.get_eq, hStore]
    refine Store.getAt_restrict hLess cf key fun e hWins => (hSees' _).mpr (hKnown ⟨cf, key⟩ e ?_)
    have hFinds : Finds Z1Entry.key Z1Entry.txnId {e | e ∈ db.store.held}
      (db.snapshot.1.sees · = true) ⟨cf, key⟩ (some e) := hWins
    have hNewest : IsNewest Z1Entry.key Z1Entry.txnId {e | e ∈ db.store.held}
      (dir.Committed entries) ⟨cf, key⟩ e := hFinds.congr fun v _ _ => hSees v.txnId
    exact hNewest.of_copies (hOpened.mem_versions hNewest.isHeld) rfl hCopies
  · intro hDiffer hFalls key e hNewest
    rcases hFalls with ⟨err, hErr⟩ | ⟨db₁, db₂, hOpen₁, hOpen₂, hReads⟩
    · rw [hErr] at hOpen'
      cases hOpen'
    obtain rfl := Except.ok.inj (hOpen.symm.trans hOpen₁)
    obtain rfl := Except.ok.inj (hOpen'.symm.trans hOpen₂)
    obtain ⟨cf, key⟩ := key
    obtain ⟨found, hFinds, hGet⟩ := db.store.getAt_finds db.snapshot.1 cf key
    obtain ⟨found', hFinds', hGet'⟩ := db.store.getAt_finds db'.snapshot.1 cf key
    have hSame := hReads cf key
    rw [Engine.get_eq, Engine.get_eq, hStore, hGet, hGet'] at hSame
    obtain ⟨copy, hCopy, hId⟩ := hOpened.held_copy hNewest.isHeld
    obtain ⟨hCopyKey, hCopyTxn⟩ := Prod.mk.inj hId
    have hCopySeen : db.snapshot.1.sees copy.txnId = true := by
      rw [hSees, hCopyTxn]
      exact hNewest.isVisible
    cases found with
    | none => exact absurd hCopySeen (hFinds copy hCopy (hCopyKey.trans hNewest.hasKey))
    | some top =>
        have hTop := (hSees _).mp hFinds.isVisible
        have hIn := hOpened.mem_versions hFinds.isHeld
        have hTxn : top.txnId = e.txnId :=
          le_antisymm (hNewest.newest top hIn hFinds.hasKey hTop)
            (hCopyTxn ▸ hFinds.newest copy hCopy (hCopyKey.trans hNewest.hasKey) hCopySeen)
        obtain ⟨hValue, hApart⟩ := hDiffer top hIn hTop
        cases found' with
        | none => exact absurd hSame.symm hValue
        | some other =>
            have hKnown := (hSees' _).mp hFinds'.isVisible
            have hOther := hApart other (hOpened.mem_versions hFinds'.isHeld) (Or.inr hKnown)
              (hFinds.hasKey.trans hFinds'.hasKey.symm) hSame.symm
            rwa [← hTxn, hOther]

/-- One commit and a checkpoint; nothing is deleted from the log. -/
def checkpointedRun : List LifeOp :=
  [.call .begin, .call (.put 0 [107] [1] 1), .call (.commit 1 ⟨0, 0, 0, .listed, .succeed⟩),
    .call (.checkpoint .succeed)]

theorem whole_log_falls_back :
    ∃ db, (life Postcard.codec engineSegmentSize (.listed 0) {} checkpointedRun).2 = some db ∧
      FallsBack Postcard.codec engineSegmentSize (.listed 0) {} (db.close Postcard.codec) {} := by
  have hRun : (life Postcard.codec engineSegmentSize (.listed 0) {} checkpointedRun).2.bind
      (fun db => (replayAll Postcard.codec (WalWriter.openLatest (db.close Postcard.codec).wal
        (sessionConfig engineSegmentSize)).dir).toOption.map fun entries =>
          (((db.close Postcard.codec).l2.flatMap Patch.versions).map Z1Entry.txnId,
            (db.close Postcard.codec).l3.flatMap Patch.versions, entries)) =
      some ([1], [], [⟨1, .put 0 [107] (some [1])⟩, ⟨1, .commit 1 0⟩, ⟨1, .checkpoint 1⟩]) := by
    decide +kernel
  obtain ⟨db, hDb, hRest⟩ := Option.bind_eq_some_iff.mp hRun
  obtain ⟨entries, hEntries, hState⟩ := Option.map_eq_some_iff.mp hRest
  obtain ⟨hL2, hRest⟩ := Prod.mk.inj hState
  obtain ⟨hL3, rfl⟩ := Prod.mk.inj hRest
  have hFalls := ((@checkpoint_is_optional Postcard.codec engineSegmentSize (.listed 0) {}
    (db.close Postcard.codec) {} rfl).2 _ (ok_of_toOption hEntries)).1
  refine ⟨db, hDb, hFalls fun key e hNewest => ?_⟩
  have hOne : e.txnId = 1 := by
    rcases hNewest.isHeld with he | he | ⟨⟨commitTs, insertedAt, hCommit⟩, -⟩
    · have hTxn := List.mem_map_of_mem (f := Z1Entry.txnId) he
      rw [hL2] at hTxn
      simpa using hTxn
    · rw [hL3] at he
      cases he
    · have hAll : e.txnId = 1 ∧ commitTs = 1 ∧ insertedAt = 0 := by simpa using hCommit
      exact hAll.1
  rw [hOne]
  exact ⟨⟨1, 0, by simp⟩, by decide⟩

/-- Two sessions, the second of which starts at offset 0 of the segment of the first. -/
def overwrittenRun : List LifeOp :=
  checkpointedRun ++ [.reopen none (.listed 0) {}, .call .begin, .call (.put 0 [106] [2] 2),
    .call (.commit 2 ⟨0, 0, 0, .listed, .succeed⟩)]

/-- With segments of 30 bytes the second put rotates, and the checkpoint deletes the
first segment. -/
def truncatedRun : List LifeOp :=
  [.call .begin, .call (.put 0 [107] [1] 1), .call (.commit 1 ⟨0, 0, 0, .listed, .succeed⟩),
    .call .begin, .call (.put 0 [106] [2] 2), .call (.checkpoint .succeed)]

/-- What key 107 reads as on the directory that a life leaves, with its checkpoints
and without them. -/
def readBothWays (maxFileSize : Nat) (ops : List LifeOp) : Option (Option Bytes × Option Bytes) :=
  (life Postcard.codec maxFileSize (.listed 0) {} ops).2.bind fun db =>
    (Engine.openWithConfig Postcard.codec maxFileSize (.listed 0) {}
      (db.close Postcard.codec)).toOption.bind fun whole =>
        (Engine.openWithConfig Postcard.codec maxFileSize (.listed 0) {}
          { db.close Postcard.codec with checkpoints := {} }).toOption.map fun without =>
            ((whole.get 0 [107]).1, (without.get 0 [107]).1)

theorem not_fallsBack {maxFileSize : Nat} {ops : List LifeOp} {values : Option Bytes × Option Bytes}
    (hReads : readBothWays maxFileSize ops = some values) (hDiffer : values.2 ≠ values.1) :
    ∃ db, (life Postcard.codec maxFileSize (.listed 0) {} ops).2 = some db ∧
      ¬ FallsBack Postcard.codec maxFileSize (.listed 0) {} (db.close Postcard.codec) {} := by
  obtain ⟨db, hDb, hRest⟩ := Option.bind_eq_some_iff.mp hReads
  obtain ⟨whole, hWhole, hRest⟩ := Option.bind_eq_some_iff.mp hRest
  obtain ⟨without, hWithout, rfl⟩ := Option.map_eq_some_iff.mp hRest
  refine ⟨db, hDb, fun hFalls => ?_⟩
  rcases hFalls with ⟨err, hErr⟩ | ⟨db₁, db₂, hOpen₁, hOpen₂, hSame⟩
  · rw [ok_of_toOption hWithout] at hErr
    cases hErr
  · obtain rfl := Except.ok.inj ((ok_of_toOption hWhole).symm.trans hOpen₁)
    obtain rfl := Except.ok.inj ((ok_of_toOption hWithout).symm.trans hOpen₂)
    dsimp only at hDiffer
    have hGets := hSame 0 [107]
    exact hDiffer hGets

/-- The value of key 107 is in L2 and committed, and is not read without the checkpoint. -/
theorem lost_checkpoint_hides_value :
    (∃ db, (life Postcard.codec engineSegmentSize (.listed 0) {} overwrittenRun).2 = some db ∧
      ¬ FallsBack Postcard.codec engineSegmentSize (.listed 0) {} (db.close Postcard.codec) {}) ∧
    ∃ db, (life Postcard.codec 30 (.listed 0) {} truncatedRun).2 = some db ∧
      ¬ FallsBack Postcard.codec 30 (.listed 0) {} (db.close Postcard.codec) {} := by
  have hOverwritten : readBothWays engineSegmentSize overwrittenRun = some (some [1], none) := by
    decide +kernel
  have hTruncated : readBothWays 30 truncatedRun = some (some [1], none) := by
    decide +kernel
  exact ⟨not_fallsBack hOverwritten (by decide), not_fallsBack hTruncated (by decide)⟩

end Z1Kv
