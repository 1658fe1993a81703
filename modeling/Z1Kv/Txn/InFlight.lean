import Z1Kv.Txn.Balances

/-! What an open makes of the directory that a run leaves, at any moment when no deletion is
under way. -/
namespace Z1Kv

namespace Traffic
variable {codec : Codec} {maxFileSize : Nat} {base : TxnId} {s : Traffic}

namespace Sound
variable {log : SegmentLog} {opened : Engine} (h : s.Sound codec maxFileSize base)
  (hBooked : Booked s.journal s.db.mvcc s.Ending s.Safe log.entries)
  (hOpened : opened.Opened s.db.onDisk log.entries)
include h hBooked

include hOpened

end Sound

theorem leaving_stored {v : Z1Entry} (h : s.Leaving v) (hNone : s.checkpoint.groups = []) :
    v ∈ s.db.store.stored := by
  rcases h with hL2 | hL3 | ⟨group, hGroup, -⟩
  · exact @Engine.stored_of_close s.db Postcard.codec _ (Or.inl hL2)
  · exact @Engine.stored_of_close s.db Postcard.codec _ (Or.inr hL3)
  · rw [hNone] at hGroup
    cases hGroup

/-- A session begins on an empty directory. -/
theorem sound_of_open {env : OpenEnv} {config : Z1Config} {db : Engine}
    (h : Engine.openWithConfig codec maxFileSize env config {} = .ok db) :
    Sound codec maxFileSize db.mvcc.committedTxn { db } := by
  obtain ⟨hKept, hWritten⟩ := Kept.of_open h
  have hNone : ∀ e ∈ db.store.stored, False := by
    intro e he
    rcases hWritten e he with hOld | hNew
    · exact hOld
    · cases hNew
  have hHeld : ∀ e ∈ db.store.held, False := fun e he => hNone e (Store.mem_stored.mpr (Or.inl he))
  have hActive := Engine.active_of_open h
  have hNoWrite : ∀ e, ¬ FinalWrite [] e := by
    intro e hLast
    cases hLast.wrote
  obtain ⟨log, hLogs, hBooked⟩ := hKept.books
  refine ⟨⟨?_, ?_, ?_⟩, ⟨?_, ?_, ?_, ?_, ?_, ?_⟩, ⟨hKept.ledger, hKept.baseline, ?_, ?_, log, hLogs,
    Nat.zero_le _, ?_⟩⟩
  · exact fun i k _ => CallPhase.not_clash_of_idle rfl
  · exact fun k t x hWork => by cases hWork
  · exact fun k e txn hPhase => by cases hPhase
  · rintro e ⟨k, hk⟩
    cases hk
  · exact fun v hv => (hHeld v (Store.mem_held_iff.mpr (Or.inl hv))).elim
  · exact fun v hv => (hNone v (@leaving_stored { db } v hv rfl)).elim
  · exact fun v hv => (hHeld v (Store.mem_held.mpr (Or.inl (Store.mem_settled.mpr
      (Or.inr (Or.inr (Or.inl hv))))))).elim
  · exact fun e hLast => absurd hLast (hNoWrite e)
  · exact fun group hGroup => absurd hGroup List.not_mem_nil
  · exact fun state hRead => by cases hRead
  · exact fun state hPhase => by cases hPhase
  · have hAll : Booked [] db.mvcc (fun _ => False) (· ∈ db.checkpoints.history)
        (log.since 0).entries := by
      rw [SegmentLog.since_zero]
      exact hBooked
    refine hAll.settle ?_ ?_ ?_
    · refine fun t => ⟨?_, False.elim⟩
      rintro ⟨k, insertedAt, hk⟩
      cases hk
    · intro t ht
      rw [hActive] at ht
      exact absurd ht (AList.notMem_empty t)
    · exact fun t hCommitted => absurd hCommitted List.not_mem_nil

section Runs
variable {s' : Traffic} {i n : Nat}

theorem SparingSteps.steps (h : SparingSteps codec s s') : Steps codec s s' := by
  refine Relation.ReflTransGen.mono ?_ _ _ h
  rintro before after ⟨act, hStep, -⟩
  exact ⟨act, hStep⟩

theorem Steps.checkpoint {next : CheckpointPhase × Engine}
    (h : CheckpointSteps codec (s.checkpoint, s.db) next) :
    Steps codec s { s with db := next.2, checkpoint := next.1 } := by
  induction h with
  | refl => exact .refl
  | tail _ hStep ih => exact ih.tail ⟨_, .checkpoint _ _ _ hStep⟩

section Calls
variable {phase phase' : CallPhase} {db' : Engine}

/-- A step of a call in a known phase, after other steps. -/
theorem SparingSteps.call {before : Traffic} (h : SparingSteps codec before s)
    (hPhase : s.calls i = phase) (hStep : CallStep codec (phase, s.db) (phase', db'))
    (hSpares : s.Spares codec (.call i phase')) :
    SparingSteps codec before (s.afterCall i phase' db') :=
  h.tail ⟨_, .call s i phase' db' (by rw [hPhase]; exact hStep), hSpares⟩

/-- No call is at work, and those from `n` on have not begun. -/
structure Idles (s : Traffic) (n : Nat) : Prop where
  quiet : ∀ k, (s.calls k).work? = none
  fresh : ∀ k, n ≤ k → s.calls k = .idle

theorem Idles.congr (h : s.Idles n) (hCalls : s'.calls = s.calls) : s'.Idles n := by
  refine ⟨fun k => ?_, fun k hk => ?_⟩
  · rw [hCalls]
    exact h.quiet k
  · rw [hCalls]
    exact h.fresh k hk

theorem Idles.after (h : s.Idles n) (hNone : phase.work? = none)
    (hCalls : s'.calls = Function.update s.calls n phase) : s'.Idles (n + 1) := by
  refine ⟨fun k => ?_, fun k hk => ?_⟩
  · rw [hCalls]
    by_cases hSame : k = n
    · rw [hSame, Function.update_self]
      exact hNone
    · rw [Function.update_of_ne hSame]
      exact h.quiet k
  · rw [hCalls, Function.update_of_ne (Nat.ne_of_gt hk)]
    exact h.fresh k (Nat.le_of_succ_le hk)

end Calls

section Checkpoints
variable {phase phase' : CheckpointPhase} {db' : Engine}

/-- A step of the checkpoint in a known phase, after other steps. -/
theorem SparingSteps.checkpoint {before : Traffic} (h : SparingSteps codec before s)
    (hPhase : s.checkpoint = phase) (hStep : CheckpointStep codec (phase, s.db) (phase', db'))
    (hSpares : s.Spares codec (.checkpoint phase')) :
    SparingSteps codec before { s with db := db', checkpoint := phase' } :=
  h.tail ⟨_, .checkpoint s phase' db' (by rw [hPhase]; exact hStep), hSpares⟩

/-- A checkpoint may always come as far as to the history that it reads. -/
theorem SparingSteps.capture {next : CheckpointPhase × Engine}
    (h : CheckpointSteps codec (s.checkpoint, s.db) next)
    (hEarly : match next.1 with
      | .start | .patching _ | .flushed | .synced | .captured _ => True
      | _ => False) :
    SparingSteps codec s { s with db := next.2, checkpoint := next.1 } := by
  induction h with
  | refl => exact .refl
  | tail _ hStep ih =>
      cases hStep with
      | stage db => exact (ih trivial).tail ⟨_, .checkpoint _ _ _ (.stage db), trivial⟩
      | patch db cf entries rest outcome l2 hPatch =>
          exact (ih trivial).tail
            ⟨_, .checkpoint _ _ _ (.patch db cf entries rest outcome l2 hPatch), trivial⟩
      | clear db => exact (ih trivial).tail ⟨_, .checkpoint _ _ _ (.clear db), trivial⟩
      | sync db wal hSync => exact (ih trivial).tail ⟨_, .checkpoint _ _ _ (.sync db wal hSync), trivial⟩
      | capture db => exact (ih trivial).tail ⟨_, .checkpoint _ _ _ (.capture db), trivial⟩
      | _ => exact hEarly.elim

end Checkpoints
end Runs
end Traffic

section
open Traffic
variable {maxFileSize n : Nat} {env : OpenEnv} {config : Z1Config} {db : Engine} {s : Traffic}

end
end Z1Kv
