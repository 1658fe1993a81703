import Z1Kv.Store.Effects
import Z1Kv.Txn.Scan

/-! Compaction and current reads. The merge keeps the newest version below the
watermark by transaction id; where that one was never committed, the committed
version below it is gone. -/
namespace Z1Kv

def Op.IsFlush : Op → Prop
  | .flushNow _ => True
  | .flush _ => True
  | _ => False

/-- Versions of one id that a snapshot sees carry one value. -/
abbrev Store.SeenConsistent (s : Store) (snap : TxnSnapshot) : Prop :=
  Consistent Z1Entry.key Z1Entry.txnId {e | e ∈ s.held ∧ snap.sees e.txnId = true}

/-- A store that came from another one without new versions that the snapshot
sees, and that still has, outside the L1 snapshot buffer, every version that won
there. -/
structure Store.KeepsWinners (snap : TxnSnapshot) (old new : Store) : Prop where
  held : ∀ e ∈ new.held, snap.sees e.txnId = true → e ∈ old.held
  winners : ∀ key e, old.Wins snap key e → e ∈ new.settled

namespace Store.KeepsWinners
variable {snap : TxnSnapshot} {old new : Store}

/-- Winners win on. -/
theorem wins (h : old.KeepsWinners snap new) {key : Z1Key} {e : Z1Entry}
    (hWins : old.Wins snap key e) : new.Wins snap key e :=
  ⟨Store.mem_held.mpr (Or.inl (h.winners key e hWins)), hWins.hasKey, hWins.isVisible,
    fun w hw hKey hSeen => hWins.newest w (h.held w hw hSeen) hKey hSeen⟩

/-- Another copy of a winner is the winner. -/
theorem eq_of_id (hHeld : ∀ e ∈ new.held, snap.sees e.txnId = true → e ∈ old.held)
    (hConsistent : old.SeenConsistent snap) {key : Z1Key} {e copy : Z1Entry}
    (hWins : old.Wins snap key e) (hCopy : copy ∈ new.held) (hId : copy.id = e.id) : copy = e := by
  obtain ⟨hKey, hTxn⟩ := Prod.mk.inj hId
  have hSeen : snap.sees copy.txnId = true := by
    rw [hTxn]
    exact hWins.isVisible
  exact hConsistent copy ⟨hHeld copy hCopy hSeen, hSeen⟩ e ⟨hWins.isHeld, hWins.isVisible⟩ hKey hTxn

/-- Reads of the two stores agree. -/
theorem getAt (h : old.KeepsWinners snap new) (hConsistent : old.SeenConsistent snap) (cf : UInt16)
    (key : Bytes) : new.getAt snap cf key = old.getAt snap cf key := by
  obtain ⟨found, hFinds, hGet⟩ := old.getAt_finds snap cf key
  obtain ⟨found', hFinds', hGet'⟩ := new.getAt_finds snap cf key
  rw [hGet, hGet']
  cases found with
  | none =>
      cases found' with
      | none => rfl
      | some e =>
          exact absurd hFinds'.isVisible
            (hFinds e (h.held e hFinds'.isHeld hFinds'.isVisible) hFinds'.hasKey)
  | some e =>
      have hWins := h.wins hFinds
      cases found' with
      | none => exact absurd hWins.isVisible (hFinds' e hWins.isHeld hWins.hasKey)
      | some copy =>
          have hTxn := le_antisymm (hWins.newest copy hFinds'.isHeld hFinds'.hasKey hFinds'.isVisible)
            (hFinds'.newest e hWins.isHeld hWins.hasKey hWins.isVisible)
          have hKey := hFinds'.hasKey.trans hWins.hasKey.symm
          rw [eq_of_id h.held hConsistent hFinds hFinds'.isHeld (Prod.ext hKey hTxn)]

theorem of_compacted {watermark : TxnId} (h : old.Compacted watermark new)
    (hConsistent : old.SeenConsistent snap)
    (hSurvive : ∀ key e, old.Wins snap key e → old.Survives watermark e) :
    old.KeepsWinners snap new := by
  refine ⟨fun e he _ => h.held_subset he, fun key e hWins => ?_⟩
  obtain ⟨copy, hCopy, hId⟩ := h.survives (hSurvive key e hWins)
  have hHeld : copy ∈ new.held := Store.mem_held.mpr (Or.inl hCopy)
  rwa [← eq_of_id (fun e he _ => h.held_subset he) hConsistent hWins hHeld hId]

theorem compacted (h : old.KeepsWinners snap new) (hConsistent : old.SeenConsistent snap)
    {watermark : TxnId} {after : Store} (hCompacted : new.Compacted watermark after)
    (hSurvive : ∀ key e, new.Wins snap key e → new.Survives watermark e) :
    old.KeepsWinners snap after := by
  refine ⟨fun e he => h.held e (hCompacted.held_subset he), fun key e hWins => ?_⟩
  obtain ⟨copy, hCopy, hId⟩ := hCompacted.survives (hSurvive key e (h.wins hWins))
  have hHeld : copy ∈ new.held := hCompacted.held_subset (Store.mem_held.mpr (Or.inl hCopy))
  rwa [← eq_of_id h.held hConsistent hWins hHeld hId]

theorem flush (h : old.KeepsWinners snap new) (hConsistent : old.SeenConsistent snap)
    (writes : Nat → PatchOutcome) : old.KeepsWinners snap (new.flushL1ToL2 writes).2 := by
  obtain ⟨-, hStay, -⟩ := new.flush_spec writes
  refine ⟨fun e he => h.held e (Store.flush_held_subset he), fun key e hWins => ?_⟩
  obtain ⟨copy, hCopy, hId⟩ := hStay e (h.winners key e hWins)
  have hHeld : copy ∈ new.held := Store.flush_held_subset (Store.mem_held.mpr (Or.inl hCopy))
  rw [← eq_of_id h.held hConsistent hWins hHeld hId]
  exact hCopy

end Store.KeepsWinners

/-- A flush call keeps the manager, the snapshot cache and the winners. -/
theorem Engine.step_flush {codec : Codec} {db : Engine} {old : Store} {snap : TxnSnapshot} {op : Op}
    (hOp : op.IsFlush) (h : old.KeepsWinners snap db.store) (hConsistent : old.SeenConsistent snap) :
    (db.step codec op).2.mvcc = db.mvcc ∧ (db.step codec op).2.snapshotCache = db.snapshotCache ∧
      old.KeepsWinners snap (db.step codec op).2.store := by
  cases op with
  | flushNow writes => exact ⟨rfl, rfl, h.flush hConsistent writes.patch⟩
  | flush writes =>
      refine ⟨rfl, rfl, ?_⟩
      change old.KeepsWinners snap (db.store.tryFlush writes.patch).2
      rcases db.store.tryFlush_spec writes.patch with hSame | hFlush
      · rw [hSame]
        exact h
      · rw [hFlush]
        exact h.flush hConsistent writes.patch
  | _ => exact absurd hOp id

theorem Engine.snapshot_congr {db db' : Engine} (hMvcc : db'.mvcc = db.mvcc)
    (hCache : db'.snapshotCache = db.snapshotCache) : db'.snapshot.1 = db.snapshot.1 := by
  simp only [Engine.snapshot, hMvcc, hCache]

/-- Compaction and any later flushes leave every current read as it was, if every
current winner survives the merge. -/
theorem compact_preserves_gets (codec : Codec) (db : Engine) (writes : Writes) (watermark : TxnId)
    (later : List Op) (hLater : ∀ op ∈ later, op.IsFlush)
    (hConsistent : db.store.SeenConsistent db.snapshot.1)
    (hSurvive : ∀ key e, db.store.Wins db.snapshot.1 key e → db.store.Survives watermark e)
    (cf : UInt16) (key : Bytes) :
    ((db.run codec (.compact writes watermark :: later)).2.get cf key).1 = (db.get cf key).1 := by
  let Kept (after : Engine) : Prop := after.mvcc = db.mvcc ∧
    after.snapshotCache = db.snapshotCache ∧ db.store.KeepsWinners db.snapshot.1 after.store
  have hStart : Kept (db.step codec (.compact writes watermark)).2 :=
    ⟨rfl, rfl, .of_compacted (Store.compactCfs_spec _ _ _ _) hConsistent hSurvive⟩
  have hKept : Kept (db.run codec (.compact writes watermark :: later)).2 := by
    have hMeets : EachMeets (Engine.step codec) (fun _ _ op => op.IsFlush) []
        (db.step codec (.compact writes watermark)).2 later := EachMeets.of_forall hLater
    change Kept ((db.step codec (.compact writes watermark)).2.run codec later).2
    refine runs_invariant (fun _ => Kept) (fun _ _ op => op.IsFlush) ?_ hStart hMeets
    rintro - after op ⟨hMvcc, hCache, hWinners⟩ hOp
    obtain ⟨hMvcc', hCache', hWinners'⟩ := Engine.step_flush hOp hWinners hConsistent
    exact ⟨hMvcc'.trans hMvcc, hCache'.trans hCache, hWinners'⟩
  obtain ⟨hMvcc, hCache, hWinners⟩ := hKept
  rw [Engine.get_eq, Engine.get_eq, Engine.snapshot_congr hMvcc hCache]
  exact hWinners.getAt hConsistent cf key

/-- Two committed versions of a key, both flushed; the merge keeps the newer. -/
theorem compact_preserves_get_of_newest :
    ∃ db, (life Postcard.codec engineSegmentSize (.listed 0) {}
        [.call .begin, .call (.put 0 [107] [1] 1),
          .call (.commit 1 ⟨0, 0, 0, .listed, .succeed⟩), .call .begin,
          .call (.put 0 [107] [2] 2), .call (.commit 2 ⟨0, 0, 0, .listed, .succeed⟩),
          .call (.flushNow .succeed), .call (.flushNow .succeed)]).2 = some db ∧
      (db.get 0 [107]).1 = some [2] ∧
      ((db.run Postcard.codec [.compact .succeed u64Max, .flushNow .succeed]).2.get 0 [107]).1 =
        (db.get 0 [107]).1 := by
  have hRun : (life Postcard.codec engineSegmentSize (.listed 0) {}
      [.call .begin, .call (.put 0 [107] [1] 1),
        .call (.commit 1 ⟨0, 0, 0, .listed, .succeed⟩), .call .begin,
        .call (.put 0 [107] [2] 2), .call (.commit 2 ⟨0, 0, 0, .listed, .succeed⟩),
        .call (.flushNow .succeed), .call (.flushNow .succeed)]).2.map
      (fun db => (db.store.held, db.store.l2.versions, db.snapshot.1.sees 2, (db.get 0 [107]).1)) =
        some ([⟨⟨0, [107]⟩, 1, some [1]⟩, ⟨⟨0, [107]⟩, 2, some [2]⟩],
          [⟨⟨0, [107]⟩, 1, some [1]⟩, ⟨⟨0, [107]⟩, 2, some [2]⟩], true, some [2]) := by
    decide +kernel
  obtain ⟨db, hDb, hStore⟩ := Option.map_eq_some_iff.mp hRun
  simp only [Prod.mk.injEq] at hStore
  obtain ⟨hHeld, hL2, hSees, hGet⟩ := hStore
  refine ⟨db, hDb, hGet, ?_⟩
  refine compact_preserves_gets Postcard.codec db .succeed u64Max [.flushNow .succeed] ?_ ?_ ?_ 0
    [107]
  · intro op hOp
    obtain rfl := List.mem_singleton.mp hOp
    trivial
  · rintro a ⟨ha, -⟩ b ⟨hb, -⟩ hKey hTxn
    rw [hHeld] at ha hb
    simp only [List.mem_cons, List.not_mem_nil, or_false] at ha hb
    rcases ha with rfl | rfl <;> rcases hb with rfl | rfl <;> simp_all
  · intro key e hWins
    have hSecond := hWins.newest ⟨⟨0, [107]⟩, 2, some [2]⟩ (by simp [hHeld])
    have hMem : e ∈ db.store.held := hWins.isHeld
    rw [hHeld] at hMem
    simp only [List.mem_cons, List.not_mem_nil, or_false] at hMem
    rcases hMem with rfl | rfl
    · exact absurd (hSecond hWins.hasKey hSees) (by decide)
    · refine Or.inr (Or.inr (Or.inr (Or.inr ⟨by rw [hL2]; simp, Or.inr ?_⟩)))
      rw [hL2]
      simp

/-- A committed version and a rolled back one of the same key, both flushed. -/
def rolledBackOnTopRun : List LifeOp :=
  [.call .begin, .call (.put 0 [107] [1] 1),
    .call (.commit 1 ⟨0, 0, 0, .listed, .succeed⟩), .call .begin, .call (.put 0 [107] [2] 2),
    .call (.rollback 2), .call (.flushNow .succeed), .call (.flushNow .succeed)]

/-- The merge keeps the rolled back version and reclaims the committed one. -/
theorem compact_reclaims_committed_version :
    ¬ ∀ ops db, (life Postcard.codec engineSegmentSize (.listed 0) {} ops).2 = some db →
      db.mvcc.activeTxns.keys = [] → ∀ writes watermark later,
        (∀ op ∈ later, Op.IsFlush op) → ∀ cf key,
          ((db.run Postcard.codec (.compact writes watermark :: later)).2.get cf key).1 =
            (db.get cf key).1 := by
  intro h
  have hRun : (life Postcard.codec engineSegmentSize (.listed 0) {} rolledBackOnTopRun).2.map
      (fun db => (db.mvcc.activeTxns.keys, (db.get 0 [107]).1,
        ((db.run Postcard.codec [.compact .succeed u64Max]).2.get 0 [107]).1)) =
        some ([], some [1], none) := by decide +kernel
  obtain ⟨db, hDb, hReads⟩ := Option.map_eq_some_iff.mp hRun
  simp only [Prod.mk.injEq] at hReads
  obtain ⟨hActive, hBefore, hAfter⟩ := hReads
  have hSame := h rolledBackOnTopRun db hDb hActive .succeed u64Max [] (by simp) 0 [107]
  rw [hBefore, hAfter] at hSame
  cases hSame

end Z1Kv
