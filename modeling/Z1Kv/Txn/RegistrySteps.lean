import Z1Kv.Library.Runs
import Z1Kv.Txn.CacheSteps

/-! The id counter and the two registries of transactions under concurrency: begin, commit,
rollback and the calls in between, cut at the accesses to the atomic counter and at the locks
of the manager and of the pinned snapshots. The snapshot cache, which a begin invalidates
between two of these steps, stays out: neither registry depends on it. -/
namespace Z1Kv

/-- Where a thread stands in its call. `next_txn_id` loads the counter to see whether it has
run out, and adds to it in a second step. -/
inductive TxnPhase
  | idle
  | counting (attempt : Nat)
  | allocating (attempt : Nat)
  | registering (attempt : Nat) (txnId : TxnId)
  | pinning (txnId : TxnId) (snap : TxnSnapshot)
  | logging (txnId : TxnId) (commits : Bool)
  | committing (txnId : TxnId)
  | rollingBack (txnId : TxnId)
  | unpinning (txnId : TxnId) (ok : Bool)
  | recordingRead (txnId : TxnId) (key : Bytes)
  | recordingWrite (txnId : TxnId) (key : Bytes)

/-- An idle thread makes a call, or a thread takes the next step of its call. -/
inductive TxnAct
  | begin
  | commit (txnId : TxnId)
  | rollback (txnId : TxnId)
  | getForTxn (txnId : TxnId) (key : Bytes)
  | write (txnId : TxnId) (key : Bytes)
  | next (env : CacheEnv)

/-- What a step brings about, as far as a caller or another thread can tell. `entered` is a
commit whose MVCC part succeeded, `ended` a commit or rollback that returned `Ok`. -/
inductive TxnEvent
  | called
  | allocated (txnId : TxnId)
  | registered (txnId : TxnId) (snap : TxnSnapshot)
  | begun (txnId : TxnId)
  | counterOverflow
  | alreadyActive (txnId : TxnId)
  | overtaken
  | read (txnId : TxnId) (snap : TxnSnapshot)
  | notFound (txnId : TxnId)
  | entered (txnId : TxnId)
  | ended (txnId : TxnId)
  | failed (txnId : TxnId)

structure TxnSystem (ι : Type) where
  mvcc : VisibilityManager
  txnCounter : Nat
  txnSnapshots : FinMap TxnId TxnSnapshot := ∅
  threads : ι → TxnPhase := fun _ => .idle

namespace TxnSystem
variable {ι : Type} [DecidableEq ι]

/-- After an open the counter stands behind the highest committed id. -/
def opened (mvcc : VisibilityManager) : TxnSystem ι :=
  { mvcc, txnCounter := min (mvcc.committedTxn + 1) u64Max }

def move (s : TxnSystem ι) (i : ι) (phase : TxnPhase) : TxnSystem ι :=
  { s with threads := Function.update s.threads i phase }

/-- Registration and snapshot under one write lock. -/
def register (s : TxnSystem ι) (i : ι) (attempt : Nat) (txnId : TxnId) :
    Option TxnEvent × TxnSystem ι :=
  match s.mvcc.beginTxnWithSnapshot txnId with
  | .ok (snap, mvcc) => (some (.registered txnId snap), { s with mvcc }.move i (.pinning txnId snap))
  | .error (.alreadyCommitted _) =>
      if attempt + 1 < 16 then (none, s.move i (.counting (attempt + 1)))
      else (some .overtaken, s.move i .idle)
  | .error _ => (some (.alreadyActive txnId), s.move i .idle)

/-- The MVCC commit under the write lock. Its failure goes on to unpin the snapshot too. -/
def mvccCommit (s : TxnSystem ι) (i : ι) (env : CacheEnv) (txnId : TxnId) :
    Option TxnEvent × TxnSystem ι :=
  match s.mvcc.commitTxn env.order txnId env.insertedAt env.ts env.nowMs with
  | (.ok _, mvcc) => (some (.entered txnId), { s with mvcc }.move i (.unpinning txnId true))
  | (.error _, mvcc) => (none, { s with mvcc }.move i (.unpinning txnId false))

/-- The next step of a thread in this phase. -/
def advance (s : TxnSystem ι) (i : ι) (env : CacheEnv) : TxnPhase → Option TxnEvent × TxnSystem ι
  | .idle => (none, s)
  | .counting attempt =>
      if s.txnCounter = u64Max then (some .counterOverflow, s.move i .idle)
      else (none, s.move i (.allocating attempt))
  | .allocating attempt =>
      (some (.allocated s.txnCounter),
        { s with txnCounter := (s.txnCounter + 1) % 2 ^ 64 }.move i
          (.registering attempt s.txnCounter))
  | .registering attempt txnId => s.register i attempt txnId
  | .pinning txnId snap =>
      (some (.begun txnId),
        { s with txnSnapshots := AList.insert txnId snap s.txnSnapshots }.move i .idle)
  | .logging txnId commits =>
      if env.logged then
        (none, s.move i (if commits then .committing txnId else .rollingBack txnId))
      else (some (.failed txnId), s.move i .idle)
  | .committing txnId => s.mvccCommit i env txnId
  | .rollingBack txnId =>
      (none, { s with mvcc := s.mvcc.rollbackTxn txnId }.move i (.unpinning txnId true))
  | .unpinning txnId ok =>
      (some (if ok then .ended txnId else .failed txnId),
        { s with txnSnapshots := AList.erase txnId s.txnSnapshots }.move i .idle)
  | .recordingRead txnId key => (none, { s with mvcc := s.mvcc.recordRead txnId key }.move i .idle)
  | .recordingWrite txnId key => (none, { s with mvcc := s.mvcc.recordWrite txnId key }.move i .idle)

/-- A call for a transaction that is not active goes to `phase` only if it is. -/
def ifActive (s : TxnSystem ι) (i : ι) (txnId : TxnId) (phase : TxnPhase) :
    Option TxnEvent × TxnSystem ι :=
  if (s.mvcc.getBeginTs txnId).isSome then (none, s.move i phase) else (some (.notFound txnId), s)

/-- A call by an idle thread. A read takes the snapshot that is pinned. -/
def call (s : TxnSystem ι) (i : ι) : TxnAct → Option TxnEvent × TxnSystem ι
  | .begin => (some .called, s.move i (.counting 0))
  | .commit txnId => s.ifActive i txnId (.logging txnId true)
  | .rollback txnId => s.ifActive i txnId (.logging txnId false)
  | .getForTxn txnId key =>
      match AList.lookup txnId s.txnSnapshots with
      | some snap => (some (.read txnId snap), s.move i (.recordingRead txnId key))
      | none => (some (.notFound txnId), s)
  | .write txnId key => s.ifActive i txnId (.recordingWrite txnId key)
  | .next _ => (none, s)

/-- A call by a thread that is not idle changes nothing. -/
def step (s : TxnSystem ι) (input : ι × TxnAct) : Option TxnEvent × TxnSystem ι :=
  let (i, act) := input
  match act, s.threads i with
  | .next env, phase => s.advance i env phase
  | act, .idle => s.call i act
  | _, _ => (none, s)

end TxnSystem

namespace TxnPhase

/-- The transaction that a begin is about to register or to pin. -/
def fresh? : TxnPhase → Option TxnId
  | registering _ txnId | pinning txnId _ => some txnId
  | _ => none

/-- A phase of a begin that has not registered yet. -/
def Attempting : TxnPhase → Prop
  | counting _ | allocating _ | registering _ _ => True
  | _ => False

/-- The transaction that a commit or rollback is about to end. -/
def ends? : TxnPhase → Option TxnId
  | logging txnId _ | committing txnId | rollingBack txnId | unpinning txnId _ => some txnId
  | _ => none

/-- The registered transaction whose snapshot is about to be pinned. -/
def pins? : TxnPhase → Option TxnId
  | pinning txnId _ => some txnId
  | _ => none

/-- The ended transaction whose snapshot is about to be unpinned. -/
def unpins? : TxnPhase → Option TxnId
  | unpinning txnId _ => some txnId
  | _ => none

theorem ends_of_unpins {phase : TxnPhase} {t : TxnId} (h : phase.unpins? = some t) :
    phase.ends? = some t := by
  cases phase with
  | unpinning txnId ok => exact h
  | _ => cases h

/-- A phase outside a begin and before the end of a transaction. -/
def Plain : TxnPhase → Prop
  | counting _ | allocating _ | registering _ _ | pinning _ _ | unpinning _ _ => False
  | _ => True

theorem Plain.not_fresh {phase : TxnPhase} (h : phase.Plain) : phase.fresh? = none := by
  cases phase <;> first | rfl | cases h

theorem Plain.not_pins {phase : TxnPhase} (h : phase.Plain) :
    phase.pins? = none ∧ phase.unpins? = none := by
  cases phase <;> first | exact ⟨rfl, rfl⟩ | cases h

theorem Plain.not_attempting {phase : TxnPhase} (h : phase.Plain) : ¬ phase.Attempting := by
  cases phase <;> first | exact id | cases h

end TxnPhase

/-- The transaction that a call is to end. -/
def TxnAct.ends? : TxnAct → Option TxnId
  | .commit txnId | .rollback txnId => some txnId
  | _ => none

/-- The changes a step of thread `i` can make. -/
inductive TxnSystem.Change {ι : Type} [DecidableEq ι] (s : TxnSystem ι) (i : ι) (act : TxnAct) :
    Option TxnEvent → TxnSystem ι → Prop
  | stay : Change s i act none s
  | missed (txnId : TxnId) : Change s i act (some (.notFound txnId)) s
  | called (hPhase : s.threads i = .idle) (hAct : act = .begin) :
      Change s i act (some .called) (s.move i (.counting 0))
  | counted {attempt : Nat} (hPhase : s.threads i = .counting attempt) :
      Change s i act none (s.move i (.allocating attempt))
  | overflowed {attempt : Nat} (hPhase : s.threads i = .counting attempt) :
      Change s i act (some .counterOverflow) (s.move i .idle)
  | allocated {attempt : Nat} (hPhase : s.threads i = .allocating attempt) :
      Change s i act (some (.allocated s.txnCounter))
        ({ s with txnCounter := (s.txnCounter + 1) % 2 ^ 64 }.move i
          (.registering attempt s.txnCounter))
  | registered {attempt : Nat} {txnId : TxnId} {mvcc : VisibilityManager}
      (hPhase : s.threads i = .registering attempt txnId) (hBegin : s.mvcc.beginTxn txnId = .ok mvcc) :
      Change s i act (some (.registered txnId mvcc.snapshot))
        ({ s with mvcc }.move i (.pinning txnId mvcc.snapshot))
  | retried {attempt : Nat} {txnId : TxnId} (hPhase : s.threads i = .registering attempt txnId)
      (hPassed : txnId ≤ s.mvcc.committedTxn) : Change s i act none (s.move i (.counting (attempt + 1)))
  | overtaken {attempt : Nat} {txnId : TxnId} (hPhase : s.threads i = .registering attempt txnId)
      (hPassed : txnId ≤ s.mvcc.committedTxn) (hLast : 16 ≤ attempt + 1) :
      Change s i act (some .overtaken) (s.move i .idle)
  | refused {attempt : Nat} {txnId : TxnId} (hPhase : s.threads i = .registering attempt txnId)
      (hActive : txnId ∈ s.mvcc.activeTxns) :
      Change s i act (some (.alreadyActive txnId)) (s.move i .idle)
  | pinned {txnId : TxnId} {snap : TxnSnapshot} (hPhase : s.threads i = .pinning txnId snap) :
      Change s i act (some (.begun txnId))
        ({ s with txnSnapshots := AList.insert txnId snap s.txnSnapshots }.move i .idle)
  | read {txnId : TxnId} {key : Bytes} {snap : TxnSnapshot} (hPhase : s.threads i = .idle)
      (hPinned : AList.lookup txnId s.txnSnapshots = some snap) :
      Change s i act (some (.read txnId snap)) (s.move i (.recordingRead txnId key))
  | ends {txnId : TxnId} (hPhase : s.threads i = .idle) (hAct : act.ends? = some txnId)
      (hActive : txnId ∈ s.mvcc.activeTxns) (commits : Bool) :
      Change s i act none (s.move i (.logging txnId commits))
  | plain {mvcc : VisibilityManager} {phase : TxnPhase} {event : Option TxnEvent}
      (hFrom : (s.threads i).Plain) (hTo : phase.Plain)
      (hEnds : ∀ t, phase.ends? = some t → (s.threads i).ends? = some t)
      (hMvcc : mvcc = s.mvcc ∨ ∃ t f, mvcc = s.mvcc.modifyActive t f)
      (hEvent : event = none ∨ ∃ t, event = some (.failed t)) :
      Change s i act event ({ s with mvcc }.move i phase)
  | entered {txnId : TxnId} {mvcc : VisibilityManager} {order : HashOrder} {insertedAt ts nowMs : Nat}
      (hPhase : s.threads i = .committing txnId) (hActive : txnId ∈ s.mvcc.activeTxns)
      (hMvcc : mvcc = s.mvcc.committed order txnId insertedAt ts nowMs) :
      Change s i act (some (.entered txnId)) ({ s with mvcc }.move i (.unpinning txnId true))
  | aborted {txnId : TxnId} (hPhase : (s.threads i).ends? = some txnId) (hPlain : (s.threads i).Plain)
      (ok : Bool) :
      Change s i act none ({ s with mvcc := s.mvcc.abortTxn txnId }.move i (.unpinning txnId ok))
  | unpinned {txnId : TxnId} {ok : Bool} {event : TxnEvent} (hPhase : s.threads i = .unpinning txnId ok)
      (hEvent : event = .ended txnId ∨ event = .failed txnId) :
      Change s i act (some event)
        ({ s with txnSnapshots := AList.erase txnId s.txnSnapshots }.move i .idle)

namespace TxnSystem
variable {ι : Type} [DecidableEq ι] {s : TxnSystem ι} {i : ι} {act : TxnAct}

theorem register_change {attempt : Nat} {txnId : TxnId}
    (hPhase : s.threads i = .registering attempt txnId) :
    s.Change i act (s.register i attempt txnId).1 (s.register i attempt txnId).2 := by
  unfold register VisibilityManager.beginTxnWithSnapshot
  cases hBegin : s.mvcc.beginTxn txnId with
  | ok mvcc => exact .registered hPhase hBegin
  | error conflict =>
      unfold VisibilityManager.beginTxn at hBegin
      split at hBegin
      · next hActive =>
        cases hBegin
        exact .refused hPhase hActive
      · split at hBegin
        · next hPassed =>
          cases hBegin
          simp only [Except.map]
          split
          · exact .retried hPhase hPassed
          · next hLast => exact .overtaken hPhase hPassed (Nat.le_of_not_lt hLast)
        · cases hBegin

/-- An erase of an absent transaction is no change, so a commit that finds its transaction
gone is an abort too. -/
theorem mvccCommit_change {env : CacheEnv} {txnId : TxnId} (hPhase : s.threads i = .committing txnId) :
    s.Change i act (s.mvccCommit i env txnId).1 (s.mvccCommit i env txnId).2 := by
  have hAborted (mvcc : VisibilityManager) (hEq : mvcc = s.mvcc.abortTxn txnId) :
      s.Change i act none ({ s with mvcc }.move i (.unpinning txnId false)) := by
    subst hEq
    refine .aborted ?_ ?_ false
    · rw [hPhase]
      rfl
    · rw [hPhase]
      trivial
  unfold mvccCommit
  rcases s.mvcc.commitTxn_cases env.order txnId env.insertedAt env.ts env.nowMs with
    ⟨hNot, hEq⟩ | ⟨txn, conflict, -, -, hEq⟩ | ⟨txn, hActive, -, hEq⟩
  · rw [hEq]
    refine hAborted s.mvcc ?_
    have hErase : AList.erase txnId s.mvcc.activeTxns = s.mvcc.activeTxns :=
      AList.ext (List.kerase_of_notMem_keys hNot)
    rw [VisibilityManager.abortTxn, hErase]
  · rw [hEq]
    exact hAborted _ rfl
  · rw [hEq]
    exact .entered hPhase (FinMap.mem_iff_lookup.mpr ⟨txn, hActive⟩) rfl

theorem advance_change {env : CacheEnv} :
    s.Change i act (s.advance i env (s.threads i)).1 (s.advance i env (s.threads i)).2 := by
  cases hPhase : s.threads i with
  | idle => exact .stay
  | counting attempt =>
      rw [advance]
      split
      · exact .overflowed hPhase
      · exact .counted hPhase
  | allocating attempt => exact .allocated hPhase
  | registering attempt txnId => exact register_change hPhase
  | pinning txnId snap => exact .pinned hPhase
  | logging txnId commits =>
      have hFrom : (s.threads i).Plain := by
        rw [hPhase]
        trivial
      rw [advance]
      split
      · refine .plain hFrom ?_ ?_ (.inl rfl) (.inl rfl)
        · cases commits <;> trivial
        · rw [hPhase]
          cases commits <;> exact fun t ht => ht
      · exact .plain hFrom trivial nofun (.inl rfl) (.inr ⟨txnId, rfl⟩)
  | committing txnId => exact mvccCommit_change hPhase
  | rollingBack txnId =>
      refine .aborted ?_ ?_ true
      · rw [hPhase]
        rfl
      · rw [hPhase]
        trivial
  | unpinning txnId ok =>
      refine .unpinned hPhase ?_
      cases ok
      · exact .inr rfl
      · exact .inl rfl
  | recordingRead txnId key =>
      exact .plain (by rw [hPhase]; trivial) trivial nofun (.inr ⟨_, _, rfl⟩) (.inl rfl)
  | recordingWrite txnId key =>
      exact .plain (by rw [hPhase]; trivial) trivial nofun (.inr ⟨_, _, rfl⟩) (.inl rfl)

theorem ifActive_change {txnId : TxnId} {phase : TxnPhase}
    (h : txnId ∈ s.mvcc.activeTxns → s.Change i act none (s.move i phase)) :
    s.Change i act (s.ifActive i txnId phase).1 (s.ifActive i txnId phase).2 := by
  unfold ifActive
  split
  · next hActive =>
    rw [VisibilityManager.getBeginTs, Option.isSome_map] at hActive
    exact h (AList.lookup_isSome.mp hActive)
  · exact .missed txnId

theorem call_change (hPhase : s.threads i = .idle) :
    s.Change i act (s.call i act).1 (s.call i act).2 := by
  cases act with
  | begin => exact .called hPhase rfl
  | commit txnId => exact ifActive_change fun hActive => .ends hPhase rfl hActive true
  | rollback txnId => exact ifActive_change fun hActive => .ends hPhase rfl hActive false
  | getForTxn txnId key =>
      rw [call]
      split
      · next snap hPinned => exact .read hPhase hPinned
      · exact .missed txnId
  | write txnId key =>
      refine ifActive_change fun _ => .plain ?_ trivial nofun (.inl rfl) (.inl rfl)
      rw [hPhase]
      trivial
  | next env => exact .stay

/-- Every step makes one of the changes. -/
theorem step_change (input : ι × TxnAct) : s.Change input.1 input.2 (s.step input).1 (s.step input).2 := by
  obtain ⟨i, act⟩ := input
  cases act with
  | next env => exact advance_change
  | _ =>
      cases hPhase : s.threads i with
      | idle =>
          simp only [step, hPhase]
          exact call_change hPhase
      | _ =>
          simp only [step, hPhase]
          exact .stay

end TxnSystem
end Z1Kv
