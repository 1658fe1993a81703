import Z1Kv.Txn.BegunIds

/-! The two registries of transactions against each other, and the snapshots that reads take
from one of them, for any number of threads and any order of their steps. -/
namespace Z1Kv

namespace TxnSystem
variable {ι : Type}

/-- Callers end only transactions that a begin has returned. -/
def EndsBegun (past : TxnTrace ι) (_ : TxnSystem ι) (input : ι × TxnAct) : Prop :=
  ∀ t, input.2.ends? = some t → t ∈ past.ids TxnEvent.begun?

instance (past : TxnTrace ι) (s : TxnSystem ι) (input : ι × TxnAct) :
    Decidable (EndsBegun past s input) :=
  inferInstanceAs (Decidable (∀ t ∈ input.2.ends?, t ∈ past.ids TxnEvent.begun?))

/-- The registries name the same transactions but for those that a thread is about to pin or
to unpin. -/
structure Paired (past : TxnTrace ι) (s : TxnSystem ι) : Prop where
  active : ∀ t ∈ s.mvcc.activeTxns, t ∈ s.txnSnapshots ∨ ∃ i, (s.threads i).pins? = some t
  pinned : ∀ t ∈ s.txnSnapshots, t ∈ s.mvcc.activeTxns ∨ ∃ i, (s.threads i).unpins? = some t
  pins : ∀ i t, (s.threads i).pins? = some t → t ∈ s.mvcc.activeTxns
  ends : ∀ i t, (s.threads i).ends? = some t → t ∈ past.ids TxnEvent.begun?
  unpins : ∀ i t, (s.threads i).unpins? = some t → t ∉ s.mvcc.activeTxns

variable [DecidableEq ι] {start : Nat} {past : TxnTrace ι} {s : TxnSystem ι} {i : ι}

/-- What a thread holds after a move to a phase that holds nothing, it held before. -/
theorem held_before {phase : TxnPhase} {j : ι} {t : TxnId} (holds : TxnPhase → Option TxnId)
    (hNew : holds phase = none) (h : holds ((s.move i phase).threads j) = some t) :
    j ≠ i ∧ holds (s.threads j) = some t := by
  by_cases hSelf : j = i
  · subst hSelf
    rw [threads_move_self, hNew] at h
    cases h
  · rw [threads_move_ne s phase hSelf] at h
    exact ⟨hSelf, h⟩

/-- A thread that held nothing may move. -/
theorem held_after {phase : TxnPhase} {j : ι} {t : TxnId} (holds : TxnPhase → Option TxnId)
    (hOld : holds (s.threads i) = none) (h : holds (s.threads j) = some t) :
    holds ((s.move i phase).threads j) = some t := by
  have hSelf : j ≠ i := by
    rintro rfl
    rw [hOld] at h
    cases h
  rw [threads_move_ne s phase hSelf]
  exact h

/-- A step of a thread that neither pins nor unpins and changes neither registry. -/
theorem Paired.keep (h : Paired past s) {s₂ : TxnSystem ι} {old phase : TxnPhase}
    {input : ι × TxnAct} {event : Option TxnEvent} (hPhase : s.threads i = old)
    (hThreads : s₂.threads = s.threads) (hFrom : old.pins? = none ∧ old.unpins? = none)
    (hTo : phase.pins? = none ∧ phase.unpins? = none)
    (hEnds : ∀ t, phase.ends? = some t → t ∈ past.ids TxnEvent.begun?)
    (hActive : ∀ t, t ∈ s₂.mvcc.activeTxns ↔ t ∈ s.mvcc.activeTxns)
    (hPinned : s₂.txnSnapshots = s.txnSnapshots) :
    Paired (past ++ [(input, event)]) (s₂.move i phase) := by
  rw [← hPhase, ← hThreads] at hFrom
  constructor
  · intro t ht
    rcases h.active t ((hActive t).mp ht) with hIn | ⟨j, hj⟩
    · exact .inl (hPinned ▸ hIn)
    · exact .inr ⟨j, held_after TxnPhase.pins? hFrom.1 (hThreads ▸ hj)⟩
  · intro t ht
    rcases h.pinned t (hPinned ▸ ht) with hIn | ⟨j, hj⟩
    · exact .inl ((hActive t).mpr hIn)
    · exact .inr ⟨j, held_after TxnPhase.unpins? hFrom.2 (hThreads ▸ hj)⟩
  · intro j t hj
    exact (hActive t).mpr (h.pins j t (hThreads ▸ (held_before TxnPhase.pins? hTo.1 hj).2))
  · intro j t hj
    rw [TxnTrace.ids_concat]
    refine List.mem_append_left _ ?_
    by_cases hSelf : j = i
    · subst hSelf
      rw [threads_move_self] at hj
      exact hEnds t hj
    · rw [threads_move_ne s₂ phase hSelf, hThreads] at hj
      exact h.ends j t hj
  · intro j t hj hIn
    exact h.unpins j t (hThreads ▸ (held_before TxnPhase.unpins? hTo.2 hj).2) ((hActive t).mp hIn)

/-- The registration of a transaction that no call can have ended yet. -/
theorem Paired.register (h : Paired past s) (hAllotted : Allotted start past s) {attempt : Nat}
    {t : TxnId} {mvcc : VisibilityManager} {input : ι × TxnAct} {event : Option TxnEvent}
    (hPhase : s.threads i = .registering attempt t) (hBegin : s.mvcc.beginTxn t = .ok mvcc) :
    Paired (past ++ [(input, event)]) ({ s with mvcc }.move i (.pinning t mvcc.snapshot)) := by
  obtain ⟨-, -, hMvcc⟩ := VisibilityManager.beginTxn_eq_ok hBegin
  have hActive (u : TxnId) : u ∈ mvcc.activeTxns ↔ u = t ∨ u ∈ s.mvcc.activeTxns := by
    rw [hMvcc]
    exact AList.mem_insert _
  have hNew := (hAllotted.registering i attempt t hPhase).2.2
  constructor
  · intro u hu
    rcases (hActive u).mp hu with rfl | hu
    · exact .inr ⟨i, by rw [threads_move_self]; rfl⟩
    · rcases h.active u hu with hIn | ⟨j, hj⟩
      · exact .inl hIn
      · exact .inr ⟨j, held_after (s := { s with mvcc }) TxnPhase.pins? (by rw [hPhase]; rfl) hj⟩
  · intro u hu
    rcases h.pinned u hu with hIn | ⟨j, hj⟩
    · exact .inl ((hActive u).mpr (.inr hIn))
    · exact .inr ⟨j, held_after (s := { s with mvcc }) TxnPhase.unpins? (by rw [hPhase]; rfl) hj⟩
  · intro j u hj
    refine (hActive u).mpr ?_
    by_cases hSelf : j = i
    · subst hSelf
      rw [threads_move_self] at hj
      exact .inl (Option.some.inj hj).symm
    · rw [threads_move_ne _ _ hSelf] at hj
      exact .inr (h.pins j u hj)
  · intro j u hj
    rw [TxnTrace.ids_concat]
    exact List.mem_append_left _ (h.ends j u (held_before TxnPhase.ends? rfl hj).2)
  · intro j u hj hIn
    have hOld : (s.threads j).unpins? = some u := (held_before TxnPhase.unpins? rfl hj).2
    rcases (hActive u).mp hIn with rfl | hIn
    · exact hNew (hAllotted.begun u (h.ends j u (TxnPhase.ends_of_unpins hOld)))
    · exact h.unpins j u hOld hIn

theorem Paired.pin (h : Paired past s) {t : TxnId} {snap : TxnSnapshot} {input : ι × TxnAct}
    {event : Option TxnEvent} (hPhase : s.threads i = .pinning t snap) :
    Paired (past ++ [(input, event)])
      ({ s with txnSnapshots := AList.insert t snap s.txnSnapshots }.move i .idle) := by
  let s₂ : TxnSystem ι := { s with txnSnapshots := AList.insert t snap s.txnSnapshots }
  have hHeld : (s.threads i).pins? = some t := by
    rw [hPhase]
    rfl
  constructor
  · intro u hu
    rcases h.active u hu with hIn | ⟨j, hj⟩
    · exact .inl ((AList.mem_insert _).mpr (.inr hIn))
    · by_cases hSelf : j = i
      · subst hSelf
        obtain rfl := Option.some.inj (hHeld.symm.trans hj)
        exact .inl ((AList.mem_insert _).mpr (.inl rfl))
      · refine .inr ⟨j, ?_⟩
        rw [threads_move_ne s₂ .idle hSelf]
        exact hj
  · intro u hu
    rcases (AList.mem_insert _).mp hu with rfl | hu
    · exact .inl (h.pins i u hHeld)
    · rcases h.pinned u hu with hIn | ⟨j, hj⟩
      · exact .inl hIn
      · exact .inr ⟨j, held_after (s := s₂) TxnPhase.unpins? (by rw [hPhase]; rfl) hj⟩
  · exact fun j u hj => h.pins j u (held_before TxnPhase.pins? rfl hj).2
  · intro j u hj
    rw [TxnTrace.ids_concat]
    exact List.mem_append_left _ (h.ends j u (held_before TxnPhase.ends? rfl hj).2)
  · exact fun j u hj => h.unpins j u (held_before TxnPhase.unpins? rfl hj).2

/-- The MVCC part of the end of a transaction, whether a commit, a rollback or a conflict. -/
theorem Paired.finish (h : Paired past s) (hAllotted : Allotted start past s) {t : TxnId} {ok : Bool}
    {mvcc : VisibilityManager} {input : ι × TxnAct} {event : Option TxnEvent}
    (hPhase : (s.threads i).ends? = some t) (hPlain : (s.threads i).Plain)
    (hMvcc : mvcc.activeTxns = AList.erase t s.mvcc.activeTxns) :
    Paired (past ++ [(input, event)]) ({ s with mvcc }.move i (.unpinning t ok)) := by
  let s₂ : TxnSystem ι := { s with mvcc }
  have hActive (u : TxnId) : u ∈ mvcc.activeTxns ↔ u ≠ t ∧ u ∈ s.mvcc.activeTxns := by
    rw [hMvcc]
    exact AList.mem_erase
  have hBegun := h.ends i t hPhase
  have hSelfUnpins : ((s₂.move i (.unpinning t ok)).threads i).unpins? = some t := by
    rw [threads_move_self]
    rfl
  constructor
  · intro u hu
    rcases h.active u ((hActive u).mp hu).2 with hIn | ⟨j, hj⟩
    · exact .inl hIn
    · exact .inr ⟨j, held_after (s := s₂) TxnPhase.pins? hPlain.not_pins.1 hj⟩
  · intro u hu
    by_cases hEnded : u = t
    · subst hEnded
      exact .inr ⟨i, hSelfUnpins⟩
    · rcases h.pinned u hu with hIn | ⟨j, hj⟩
      · exact .inl ((hActive u).mpr ⟨hEnded, hIn⟩)
      · exact .inr ⟨j, held_after (s := s₂) TxnPhase.unpins? hPlain.not_pins.2 hj⟩
  · intro j u hj
    have hOld : (s.threads j).pins? = some u := (held_before TxnPhase.pins? rfl hj).2
    refine (hActive u).mpr ⟨?_, h.pins j u hOld⟩
    -- a begin that has not returned, but `t` was returned by one
    rintro rfl
    cases hThread : s.threads j with
    | pinning v snap =>
        rw [hThread] at hOld
        obtain rfl := Option.some.inj hOld
        exact (hAllotted.pinning j v snap hThread).2 hBegun
    | _ =>
        rw [hThread] at hOld
        cases hOld
  · intro j u hj
    rw [TxnTrace.ids_concat]
    refine List.mem_append_left _ ?_
    by_cases hSelf : j = i
    · subst hSelf
      rw [threads_move_self] at hj
      obtain rfl := Option.some.inj hj
      exact hBegun
    · rw [threads_move_ne s₂ _ hSelf] at hj
      exact h.ends j u hj
  · intro j u hj hIn
    obtain ⟨hNe, hIn⟩ := (hActive u).mp hIn
    by_cases hSelf : j = i
    · subst hSelf
      rw [threads_move_self] at hj
      exact hNe (Option.some.inj hj).symm
    · rw [threads_move_ne s₂ _ hSelf] at hj
      exact h.unpins j u hj hIn

theorem Paired.unpin (h : Paired past s) {t : TxnId} {ok : Bool} {input : ι × TxnAct}
    {event : Option TxnEvent} (hPhase : s.threads i = .unpinning t ok) :
    Paired (past ++ [(input, event)])
      ({ s with txnSnapshots := AList.erase t s.txnSnapshots }.move i .idle) := by
  let s₂ : TxnSystem ι := { s with txnSnapshots := AList.erase t s.txnSnapshots }
  have hHeld : (s.threads i).unpins? = some t := by
    rw [hPhase]
    rfl
  constructor
  · intro u hu
    rcases h.active u hu with hIn | ⟨j, hj⟩
    · refine .inl (AList.mem_erase.mpr ⟨?_, hIn⟩)
      rintro rfl
      exact h.unpins i u hHeld hu
    · exact .inr ⟨j, held_after (s := s₂) TxnPhase.pins? (by rw [hPhase]; rfl) hj⟩
  · intro u hu
    obtain ⟨hNe, hIn⟩ := AList.mem_erase.mp hu
    rcases h.pinned u hIn with hIn | ⟨j, hj⟩
    · exact .inl hIn
    · have hSelf : j ≠ i := by
        rintro rfl
        exact hNe (Option.some.inj (hj.symm.trans hHeld))
      refine .inr ⟨j, ?_⟩
      rw [threads_move_ne s₂ .idle hSelf]
      exact hj
  · exact fun j u hj => h.pins j u (held_before TxnPhase.pins? rfl hj).2
  · intro j u hj
    rw [TxnTrace.ids_concat]
    exact List.mem_append_left _ (h.ends j u (held_before TxnPhase.ends? rfl hj).2)
  · exact fun j u hj => h.unpins j u (held_before TxnPhase.unpins? rfl hj).2

theorem Paired.step (h : Paired past s) (hAllotted : Allotted start past s) (input : ι × TxnAct)
    (hEnds : EndsBegun past s input) :
    Paired (past ++ [(input, (s.step input).1)]) (s.step input).2 := by
  have hStay (event : Option TxnEvent) : Paired (past ++ [(input, event)]) s := by
    refine ⟨h.active, h.pinned, h.pins, fun i t hi => ?_, h.unpins⟩
    rw [TxnTrace.ids_concat]
    exact List.mem_append_left _ (h.ends i t hi)
  have hChange := @step_change ι _ s input
  generalize (s.step input).1 = event at hChange
  generalize (s.step input).2 = s' at hChange
  cases hChange with
  | stay => exact hStay none
  | missed txnId => exact hStay _
  | called hPhase => exact h.keep hPhase rfl ⟨rfl, rfl⟩ ⟨rfl, rfl⟩ nofun (fun _ => .rfl) rfl
  | counted hPhase => exact h.keep hPhase rfl ⟨rfl, rfl⟩ ⟨rfl, rfl⟩ nofun (fun _ => .rfl) rfl
  | overflowed hPhase => exact h.keep hPhase rfl ⟨rfl, rfl⟩ ⟨rfl, rfl⟩ nofun (fun _ => .rfl) rfl
  | allocated hPhase =>
      exact h.keep hPhase rfl ⟨rfl, rfl⟩ ⟨rfl, rfl⟩ nofun (fun _ => .rfl) rfl
  | registered hPhase hBegin => exact h.register hAllotted hPhase hBegin
  | retried hPhase => exact h.keep hPhase rfl ⟨rfl, rfl⟩ ⟨rfl, rfl⟩ nofun (fun _ => .rfl) rfl
  | overtaken hPhase => exact h.keep hPhase rfl ⟨rfl, rfl⟩ ⟨rfl, rfl⟩ nofun (fun _ => .rfl) rfl
  | refused hPhase => exact h.keep hPhase rfl ⟨rfl, rfl⟩ ⟨rfl, rfl⟩ nofun (fun _ => .rfl) rfl
  | pinned hPhase => exact h.pin hPhase
  | read hPhase => exact h.keep hPhase rfl ⟨rfl, rfl⟩ ⟨rfl, rfl⟩ nofun (fun _ => .rfl) rfl
  | ends hPhase hAct =>
      refine h.keep hPhase rfl ⟨rfl, rfl⟩ ⟨rfl, rfl⟩ (fun u hu => ?_) (fun _ => .rfl) rfl
      obtain rfl := Option.some.inj hu
      exact hEnds _ hAct
  | plain hFrom hTo hSame hMvcc =>
      refine h.keep rfl rfl hFrom.not_pins hTo.not_pins (fun u hu => h.ends _ u (hSame u hu)) ?_ rfl
      rcases hMvcc with rfl | ⟨t, f, rfl⟩
      · exact fun _ => .rfl
      · exact fun _ => VisibilityManager.mem_modifyActive
  | entered hPhase hActive hMvcc =>
      refine h.finish hAllotted (by rw [hPhase]; rfl) (by rw [hPhase]; trivial) ?_
      rw [hMvcc, VisibilityManager.committed_activeTxns]
  | aborted hPhase hPlain => exact h.finish hAllotted hPhase hPlain rfl
  | unpinned hPhase => exact h.unpin hPhase

theorem paired_run {mvcc : VisibilityManager} (hIdle : mvcc.activeTxns = ∅)
    (hLast : mvcc.committedTxn < u64Max) {acts : List (ι × TxnAct)}
    (hEnds : EachMeets step EndsBegun [] (opened mvcc) acts)
    (hRoom : (run mvcc acts).1.limit (mvcc.committedTxn + 1) ≤ 2 ^ 64) :
    Paired (run mvcc acts).1 (run mvcc acts).2 := by
  have hStart : Paired [] (opened mvcc : TxnSystem ι) := by
    refine ⟨fun t ht => ?_, fun t ht => absurd ht (AList.notMem_empty t), nofun, nofun, nofun⟩
    change t ∈ mvcc.activeTxns at ht
    rw [hIdle] at ht
    exact absurd ht (AList.notMem_empty t)
  refine (runs_invariant (fun (past : TxnTrace ι) s => past.limit (mvcc.committedTxn + 1) ≤ 2 ^ 64 →
    Allotted (mvcc.committedTxn + 1) past s ∧ Paired past s) EndsBegun ?_
      (fun _ => ⟨allotted_opened hIdle hLast, hStart⟩) hEnds hRoom).2
  intro past s input hHere hEndsHere hRoomHere
  obtain ⟨hAllotted, hPaired⟩ := hHere ((TxnTrace.limit_mono _ past _).trans hRoomHere)
  exact ⟨hAllotted.step input hRoomHere, hPaired.step hAllotted input hEndsHere⟩

end TxnSystem

/-- At every moment of every run in which callers end only transactions that were begun, the
registries agree on each transaction that no thread is about to pin or to unpin; so they are
equal whenever all calls have returned. -/
theorem registries_agree_across_threads {ι : Type} [DecidableEq ι] {mvcc : VisibilityManager}
    (hIdle : mvcc.activeTxns = ∅) (hLast : mvcc.committedTxn < u64Max) {acts : List (ι × TxnAct)}
    (hEnds : EachMeets TxnSystem.step TxnSystem.EndsBegun [] (.opened mvcc) acts) :
    let run := TxnSystem.run mvcc acts
    run.1.limit (mvcc.committedTxn + 1) ≤ 2 ^ 64 →
      (∀ t, (∀ i, (run.2.threads i).pins? ≠ some t ∧ (run.2.threads i).unpins? ≠ some t) →
        (t ∈ run.2.txnSnapshots ↔ t ∈ run.2.mvcc.activeTxns)) ∧
      ((∀ i, run.2.threads i = .idle) →
        ∀ t, t ∈ run.2.txnSnapshots ↔ t ∈ run.2.mvcc.activeTxns) := by
  intro run hRoom
  have h : TxnSystem.Paired run.1 run.2 := TxnSystem.paired_run hIdle hLast hEnds hRoom
  have hAgree (t : TxnId)
      (hNone : ∀ i, (run.2.threads i).pins? ≠ some t ∧ (run.2.threads i).unpins? ≠ some t) :
      t ∈ run.2.txnSnapshots ↔ t ∈ run.2.mvcc.activeTxns := by
    constructor
    · intro ht
      exact (h.pinned t ht).resolve_right fun ⟨i, hi⟩ => (hNone i).2 hi
    · intro ht
      exact (h.active t ht).resolve_right fun ⟨i, hi⟩ => (hNone i).1 hi
  refine ⟨hAgree, fun hAllIdle t => hAgree t fun i => ?_⟩
  rw [hAllIdle i]
  exact ⟨nofun, nofun⟩

/-- Two clients begin side by side; one of them reads twice, and the other one commits between
the two reads. -/
def besideCommit : List (Bool × TxnAct) :=
  (false, .begin) :: (true, .begin) :: (List.replicate 4 [(false, .next {}), (true, .next {})]).flatten ++
    [(false, .getForTxn 1 [107]), (true, .commit 2), (false, .next {}), (true, .next {}),
      (true, .next {}), (false, .getForTxn 1 [107]), (false, .next {}), (true, .next {})]

/-- The commit has entered and its snapshot is still pinned; at the end it is not. -/
theorem registries_agree_beside_commit :
    let run := TxnSystem.run (.newWithConfig {}) (besideCommit.take 15)
    let last := TxnSystem.run (.newWithConfig {}) besideCommit
    run.2.txnSnapshots.keys = [2, 1] ∧ run.2.mvcc.activeTxns.keys = [1] ∧
      (∀ t, t ≠ 2 → (t ∈ run.2.txnSnapshots ↔ t ∈ run.2.mvcc.activeTxns)) ∧
      ∀ t, t ∈ last.2.txnSnapshots ↔ t ∈ last.2.mvcc.activeTxns := by
  intro run last
  have hEnds : EachMeets TxnSystem.step TxnSystem.EndsBegun [] (.opened (.newWithConfig {})) besideCommit := by
    decide +kernel
  have hRoom : run.1.limit 1 ≤ 2 ^ 64 := by decide +kernel
  have hRoomLast : last.1.limit 1 ≤ 2 ^ 64 := by decide +kernel
  have hAllIdle (i : Bool) : last.2.threads i = .idle := by cases i <;> rfl
  refine ⟨by decide +kernel, by decide +kernel, fun t hNe => ?_, ?_⟩
  · refine (@registries_agree_across_threads Bool _ (.newWithConfig {}) rfl (by decide) _ (hEnds.take 15)
      hRoom).1 t fun i => ?_
    cases i with
    | false => exact ⟨nofun, nofun⟩
    | true => exact ⟨nofun, fun hUnpins => hNe (Option.some.inj hUnpins).symm⟩
  · exact (@registries_agree_across_threads Bool _ (.newWithConfig {}) rfl (by decide) _ hEnds
      hRoomLast).2 hAllIdle

/-- The snapshots that begins took at their registrations. -/
def TxnEvent.snapshot? : TxnEvent → Option (TxnId × TxnSnapshot)
  | .registered txnId snap => some (txnId, snap)
  | _ => none

theorem TxnEvent.snapshot?_eq_some {event : TxnEvent} {t : TxnId} {snap : TxnSnapshot}
    (h : event.snapshot? = some (t, snap)) : event = .registered t snap := by
  cases event with
  | registered txnId taken =>
      cases h
      rfl
  | _ => cases h

def TxnTrace.registrations {ι : Type} (past : TxnTrace ι) : List (TxnId × TxnSnapshot) :=
  past.filterMap fun e => e.2.bind TxnEvent.snapshot?

theorem TxnTrace.registered_eq {ι : Type} (past : TxnTrace ι) :
    past.ids TxnEvent.registered? = past.registrations.map Prod.fst := by
  unfold ids registrations
  rw [List.map_filterMap]
  congr 1
  funext e
  obtain ⟨input, event⟩ := e
  rcases event with - | event
  · rfl
  · cases event <;> rfl

namespace TxnSystem
variable {ι : Type} [DecidableEq ι] {past : TxnTrace ι} {s : TxnSystem ι}

/-- What is pinned, or about to be, was taken at a registration. -/
structure Remembered (past : TxnTrace ι) (s : TxnSystem ι) : Prop where
  pinning : ∀ i t snap, s.threads i = .pinning t snap → (t, snap) ∈ past.registrations
  pinned : ∀ t snap, AList.lookup t s.txnSnapshots = some snap → (t, snap) ∈ past.registrations

omit [DecidableEq ι] in
theorem Remembered.keep (h : Remembered past s) {s' : TxnSystem ι} {input : ι × TxnAct}
    {event : Option TxnEvent}
    (hPinning : ∀ i t snap, s'.threads i = .pinning t snap → s.threads i = .pinning t snap)
    (hPinned : ∀ t snap, AList.lookup t s'.txnSnapshots = some snap →
      AList.lookup t s.txnSnapshots = some snap) : Remembered (past ++ [(input, event)]) s' := by
  constructor
  · intro i t snap hi
    rw [TxnTrace.registrations, List.filterMap_append]
    exact List.mem_append_left _ (h.pinning i t snap (hPinning i t snap hi))
  · intro t snap ht
    rw [TxnTrace.registrations, List.filterMap_append]
    exact List.mem_append_left _ (h.pinned t snap (hPinned t snap ht))

theorem pinning_before {i : ι} {phase : TxnPhase} (hNew : phase.pins? = none) (j : ι) (t : TxnId)
    (snap : TxnSnapshot) (h : (s.move i phase).threads j = .pinning t snap) :
    s.threads j = .pinning t snap := by
  have hSelf : j ≠ i := (held_before (t := t) TxnPhase.pins? hNew (by rw [h]; rfl)).1
  rw [threads_move_ne s phase hSelf] at h
  exact h

theorem Remembered.step (h : Remembered past s) (input : ι × TxnAct) :
    Remembered (past ++ [(input, (s.step input).1)]) (s.step input).2 := by
  have hChange := @step_change ι _ s input
  generalize (s.step input).1 = event at hChange
  generalize (s.step input).2 = s' at hChange
  cases hChange with
  | stay => exact h.keep (fun _ _ _ hi => hi) fun _ _ ht => ht
  | missed => exact h.keep (fun _ _ _ hi => hi) fun _ _ ht => ht
  | called => exact h.keep (pinning_before rfl) fun _ _ ht => ht
  | counted => exact h.keep (pinning_before rfl) fun _ _ ht => ht
  | overflowed => exact h.keep (pinning_before rfl) fun _ _ ht => ht
  | allocated => exact h.keep (pinning_before rfl) fun _ _ ht => ht
  | @registered attempt t mvcc hPhase hBegin =>
      have hGrows : (past ++ [(input, some (TxnEvent.registered t mvcc.snapshot))]).registrations =
          past.registrations ++ [(t, mvcc.snapshot)] := by
        rw [TxnTrace.registrations, List.filterMap_append]
        rfl
      constructor
      · intro j u snap hj
        rw [hGrows]
        by_cases hSelf : j = input.1
        · subst hSelf
          rw [threads_move_self] at hj
          cases hj
          exact List.mem_append_right _ (List.mem_singleton.mpr rfl)
        · rw [threads_move_ne _ _ hSelf] at hj
          exact List.mem_append_left _ (h.pinning j u snap hj)
      · intro u snap hu
        rw [hGrows]
        exact List.mem_append_left _ (h.pinned u snap hu)
  | retried => exact h.keep (pinning_before rfl) fun _ _ ht => ht
  | overtaken => exact h.keep (pinning_before rfl) fun _ _ ht => ht
  | refused => exact h.keep (pinning_before rfl) fun _ _ ht => ht
  | @pinned t snap hPhase =>
      have hKept : past.registrations ⊆ (past ++ [(input, some (TxnEvent.begun t))]).registrations := by
        rw [TxnTrace.registrations, TxnTrace.registrations, List.filterMap_append]
        exact List.subset_append_left _ _
      refine ⟨fun j u snap' hj => hKept (h.pinning j u snap' (pinning_before rfl j u snap' hj)), ?_⟩
      intro u snap' hu
      change AList.lookup u (AList.insert t snap s.txnSnapshots) = _ at hu
      by_cases hSame : u = t
      · subst hSame
        rw [AList.lookup_insert] at hu
        obtain rfl := Option.some.inj hu
        exact hKept (h.pinning _ u _ hPhase)
      · rw [AList.lookup_insert_ne hSame] at hu
        exact hKept (h.pinned u snap' hu)
  | read => exact h.keep (pinning_before rfl) fun _ _ ht => ht
  | ends => exact h.keep (pinning_before rfl) fun _ _ ht => ht
  | plain hFrom hTo => exact h.keep (pinning_before hTo.not_pins.1) fun _ _ ht => ht
  | entered => exact h.keep (pinning_before rfl) fun _ _ ht => ht
  | aborted => exact h.keep (pinning_before rfl) fun _ _ ht => ht
  | @unpinned t ok event hPhase =>
      refine h.keep (pinning_before rfl) fun u snap hu => ?_
      change AList.lookup u (AList.erase t s.txnSnapshots) = _ at hu
      by_cases hSame : u = t
      · subst hSame
        rw [AList.lookup_erase] at hu
        cases hu
      · rw [AList.lookup_erase_ne hSame] at hu
        exact hu

theorem step_coherent (h : s.mvcc.Coherent) (input : ι × TxnAct) : (s.step input).2.mvcc.Coherent := by
  have hChange := @step_change ι _ s input
  generalize (s.step input).1 = event at hChange
  generalize (s.step input).2 = s' at hChange
  cases hChange with
  | registered hPhase hBegin => exact h.beginTxn hBegin
  | plain hFrom hTo hEnds hMvcc =>
      rcases hMvcc with rfl | ⟨t, f, rfl⟩
      · exact h
      · exact h.modifyActive t f
  | entered hPhase hActive hMvcc =>
      subst hMvcc
      exact h.committed ..
  | aborted => exact h.abortTxn _
  | _ => exact h

/-- A transaction that has ended stays so, and its commit does not go through again. -/
theorem step_settled {u : TxnId} (h : s.mvcc.Settled u) (input : ι × TxnAct) :
    (s.step input).2.mvcc.Settled u ∧ (s.step input).1 ≠ some (.entered u) := by
  have hChange := @step_change ι _ s input
  generalize (s.step input).1 = event at hChange
  generalize (s.step input).2 = s' at hChange
  cases hChange with
  | registered hPhase hBegin => exact ⟨(h.beginTxn hBegin).toSettled, nofun⟩
  | plain hFrom hTo hEnds hMvcc hEvent =>
      refine ⟨?_, by rcases hEvent with rfl | ⟨t, rfl⟩ <;> nofun⟩
      rcases hMvcc with rfl | ⟨t, f, rfl⟩
      · exact h
      · exact (h.modifyActive t f).toSettled
  | @entered t mvcc order insertedAt ts nowMs hPhase hActive hMvcc =>
      have hSettled : mvcc.Settled u := by
        constructor
        · rw [hMvcc, VisibilityManager.committed_activeTxns]
          exact fun hIn => h.ended (AList.mem_erase.mp hIn).2
        · rw [hMvcc, VisibilityManager.committed_committedTxn]
          exact le_max_of_le_left h.overtaken
      refine ⟨hSettled, fun hSame => ?_⟩
      cases hSame
      exact h.ended hActive
  | aborted => exact ⟨(h.abortTxn _).toSettled, nofun⟩
  | unpinned hPhase hEvent => exact ⟨h, by rcases hEvent with rfl | rfl <;> nofun⟩
  | _ => exact ⟨h, nofun⟩

theorem settled_runs {u : TxnId} (h : s.mvcc.Settled u) (acts : List (ι × TxnAct)) :
    (runs step s acts).2.mvcc.Settled u := by
  induction acts generalizing s with
  | nil => exact h
  | cons input rest ih => exact ih (step_settled h input).1

theorem coherent_run {mvcc : VisibilityManager} (h : mvcc.Coherent) (acts : List (ι × TxnAct)) :
    (run mvcc acts).2.mvcc.Coherent :=
  @runs_invariant _ _ _ step (fun _ (s : TxnSystem ι) => s.mvcc.Coherent) (fun _ _ _ => True)
    (fun _ _ input hHere _ => step_coherent hHere input) [] _ _ h
    (EachMeets.of_forall fun _ _ => trivial)

theorem remembered_run (mvcc : VisibilityManager) (acts : List (ι × TxnAct)) :
    Remembered (run mvcc acts).1 (run mvcc acts).2 :=
  @runs_invariant _ _ _ step (fun (past : TxnTrace ι) s => Remembered past s) (fun _ _ _ => True)
    (fun _ _ input hHere _ => hHere.step input) [] _ _ ⟨nofun, fun _ _ ht => by cases ht⟩
    (EachMeets.of_forall fun _ _ => trivial)

/-- The event at a position of a run is that of one step from the state before it. -/
theorem run_getElem? {mvcc : VisibilityManager} {acts : List (ι × TxnAct)} {n : Nat}
    {input : ι × TxnAct} {event : Option TxnEvent}
    (h : (run mvcc acts).1[n]? = some (input, event)) :
    ((run mvcc (acts.take n)).2.step input).1 = event := by
  have hEvent := @runs_getElem? _ _ _ (step (ι := ι)) (opened mvcc) acts n
  rw [run] at h
  rw [hEvent] at h
  cases hInput : acts[n]? with
  | none =>
      rw [hInput] at h
      cases h
  | some here =>
      rw [hInput] at h
      cases h
      rfl

/-- A snapshot that a registration takes sees the history as it is then, and no commit that
goes through later. -/
theorem registered_snapshot {mvcc : VisibilityManager} (hCoherent : mvcc.Coherent)
    {acts : List (ι × TxnAct)} {k : Nat} {input : ι × TxnAct} {t : TxnId} {snap : TxnSnapshot}
    (h : (run mvcc acts).1[k]? = some (input, some (TxnEvent.registered t snap))) :
    (∀ u, snap.sees u = true ↔ u ∈ (run mvcc (acts.take k)).2.mvcc.committedHistory) ∧
      ∀ m ≥ k, ∀ input u, (run mvcc acts).1[m]? = some (input, some (.entered u)) →
        snap.sees u = false := by
  have hHere := coherent_run hCoherent (acts.take k)
  have hSees : ∀ u, snap.sees u = true ↔ u ∈ (run mvcc (acts.take k)).2.mvcc.committedHistory := by
    have hChange := @step_change ι _ (run mvcc (acts.take k)).2 input
    rw [run_getElem? h] at hChange
    generalize ((run mvcc (acts.take k)).2.step input).2 = s' at hChange
    cases hChange with
    | registered hPhase hBegin =>
        intro u
        obtain ⟨-, -, rfl⟩ := VisibilityManager.beginTxn_eq_ok hBegin
        exact (hHere.beginTxn hBegin).snapshot_sees u
    | plain hFrom hTo hEnds hMvcc hEvent => rcases hEvent with hEvent | ⟨_, hEvent⟩ <;> cases hEvent
    | unpinned hPhase hEvent => rcases hEvent with hEvent | hEvent <;> cases hEvent
  refine ⟨hSees, fun m hLater input' u hEntered => ?_⟩
  by_contra hSeen
  have hIn := (hSees u).mp (Bool.not_eq_false _ ▸ hSeen)
  have hSettled : (run mvcc (acts.take m)).2.mvcc.Settled u := by
    have hSplit : acts.take m = acts.take k ++ (acts.take m).drop k := by
      have hTake := List.take_append_drop k (acts.take m)
      rw [List.take_take, Nat.min_eq_left hLater] at hTake
      exact hTake.symm
    rw [run, hSplit, runs_append]
    exact settled_runs ⟨hHere.ended u hIn, hHere.below u hIn⟩ _
  exact (step_settled hSettled input').2 (run_getElem? hEntered)

end TxnSystem

/-- Every read of a transaction, on whatever thread and whatever the others do, uses one and the
same snapshot, taken when its begin registered it: it sees the commits that were in the
history then, and none that went through after. -/
theorem reads_use_registered_snapshot {ι : Type} [DecidableEq ι] {mvcc : VisibilityManager}
    (hIdle : mvcc.activeTxns = ∅) (hLast : mvcc.committedTxn < u64Max) (hCoherent : mvcc.Coherent)
    (acts : List (ι × TxnAct)) {t : TxnId} {snap : TxnSnapshot} {n : Nat} {input : ι × TxnAct} :
    let run := TxnSystem.run mvcc acts
    run.1.limit (mvcc.committedTxn + 1) ≤ 2 ^ 64 → run.1[n]? = some (input, some (TxnEvent.read t snap)) →
      (∃ k < n, (∃ input, run.1[k]? = some (input, some (TxnEvent.registered t snap))) ∧
        (∀ u, snap.sees u = true ↔ u ∈ (TxnSystem.run mvcc (acts.take k)).2.mvcc.committedHistory) ∧
        ∀ m ≥ k, ∀ input u, run.1[m]? = some (input, some (TxnEvent.entered u)) → snap.sees u = false) ∧
      ∀ (m : Nat) input snap', run.1[m]? = some (input, some (TxnEvent.read t snap')) → snap' = snap := by
  intro run hRoom hRead
  have hRemembered (m : Nat) (input : ι × TxnAct) (snap : TxnSnapshot)
      (hRead : run.1[m]? = some (input, some (TxnEvent.read t snap))) :
      (t, snap) ∈ TxnTrace.registrations (run.1.take m) := by
    have hTake : (TxnSystem.run mvcc (acts.take m)).1 = run.1.take m := runs_take _ _ _
    have hChange := @TxnSystem.step_change ι _ (TxnSystem.run mvcc (acts.take m)).2 input
    rw [TxnSystem.run_getElem? hRead] at hChange
    generalize ((TxnSystem.run mvcc (acts.take m)).2.step input).2 = s' at hChange
    rw [← hTake]
    cases hChange with
    | read hPhase hPinned => exact (TxnSystem.remembered_run mvcc (acts.take m)).pinned t snap hPinned
    | plain hFrom hTo hEnds hMvcc hEvent => rcases hEvent with hEvent | ⟨_, hEvent⟩ <;> cases hEvent
    | unpinned hPhase hEvent => rcases hEvent with hEvent | hEvent <;> cases hEvent
  have hOnce : (run.1.registrations.map Prod.fst).Nodup := by
    rw [← TxnTrace.registered_eq]
    exact (TxnSystem.allotted_run hIdle hLast acts hRoom).1.registeredOnce
  have hWhole (m : Nat) : TxnTrace.registrations (run.1.take m) ⊆ run.1.registrations :=
    ((List.take_sublist m run.1).filterMap _).subset
  constructor
  · obtain ⟨e, hIn, hEvent⟩ := List.mem_filterMap.mp (hRemembered n input snap hRead)
    obtain ⟨input', event⟩ := e
    obtain ⟨k, hk⟩ := List.mem_iff_getElem?.mp hIn
    have hBefore : k < n := by
      by_contra hNot
      rw [List.getElem?_take_eq_none (Nat.le_of_not_lt hNot)] at hk
      cases hk
    rw [List.getElem?_take_of_lt hBefore] at hk
    obtain ⟨event, rfl, hSnapshot⟩ := Option.bind_eq_some_iff.mp hEvent
    obtain rfl := TxnEvent.snapshot?_eq_some hSnapshot
    exact ⟨k, hBefore, ⟨input', hk⟩, TxnSystem.registered_snapshot hCoherent hk⟩
  · intro m input' snap' hRead'
    have hSame := List.inj_on_of_nodup_map hOnce (hWhole m (hRemembered m input' snap' hRead'))
      (hWhole n (hRemembered n input snap hRead)) rfl
    exact (Prod.ext_iff.mp hSame).2

theorem reads_use_registered_snapshot_twice :
    let run := TxnSystem.run (.newWithConfig {}) besideCommit
    ∃ snap, run.1[10]? = some ((false, .getForTxn 1 [107]), some (TxnEvent.read 1 snap)) ∧
      run.1[14]? = some ((true, .next {}), some (TxnEvent.entered 2)) ∧
      run.1[15]? = some ((false, .getForTxn 1 [107]), some (TxnEvent.read 1 snap)) ∧
      snap.sees 2 = false ∧
      ∃ k < 10, ∃ input, run.1[k]? = some (input, some (TxnEvent.registered 1 snap)) := by
  intro run
  have hRoom : run.1.limit 1 ≤ 2 ^ 64 := by decide +kernel
  have hCoherent : (VisibilityManager.newWithConfig {}).Coherent := ⟨nofun, nofun⟩
  have hEntered : run.1[14]? = some ((true, .next {}), some (TxnEvent.entered 2)) := rfl
  have hFirst : ∃ snap, run.1[10]? = some ((false, .getForTxn 1 [107]), some (TxnEvent.read 1 snap)) :=
    ⟨_, rfl⟩
  have hSecond : ∃ snap, run.1[15]? = some ((false, .getForTxn 1 [107]), some (TxnEvent.read 1 snap)) :=
    ⟨_, rfl⟩
  obtain ⟨snap, hFirst⟩ := hFirst
  obtain ⟨snap', hSecond⟩ := hSecond
  obtain ⟨⟨k, hBefore, hRegistered, -, hLater⟩, hSame⟩ := @reads_use_registered_snapshot Bool _
    (.newWithConfig {}) rfl (by decide) hCoherent besideCommit 1 snap 10 _ hRoom hFirst
  obtain rfl := hSame 15 _ snap' hSecond
  exact ⟨snap', hFirst, hEntered, hSecond, hLater 14 (by omega) _ 2 hEntered, k, hBefore, hRegistered⟩

end Z1Kv
