import Mathlib.Logic.Function.Basic
import Z1Kv.Mvcc.Rules
import Z1Kv.Txn.Engine

/-! The snapshot cache under concurrency: the calls that touch it, cut at the points
where another thread can come in between. An invalidation clears the entry, loads the
generation and stores it again as three steps; a snapshot holds the MVCC read lock from
its first step to its return; each MVCC mutation takes the write lock for one step. -/
namespace Z1Kv

/-- What a call goes on to do after its invalidation. -/
inductive AfterInvalidate
  | register (attempt : Nat) (txnId : TxnId)
  | returnOk (txnId : TxnId)
  | logRollback (txnId : TxnId)

/-- Where a thread stands in its call. A snapshot call keeps a note of the commits that
had returned when it started. -/
inductive CachePhase
  | idle
  | allocating (attempt : Nat)
  | clearing (next : AfterInvalidate)
  | loading (next : AfterInvalidate)
  | storing (next : AfterInvalidate) (old : Nat)
  | invalidated (next : AfterInvalidate)
  | logging (txnId : TxnId)
  | committing (txnId : TxnId)
  | rollingBack (txnId : TxnId)
  | starting (known : List TxnId)
  | locked (known : List TxnId)
  | looking (known : List TxnId) (gen : Nat)
  | building (known : List TxnId) (gen : Nat)
  | rechecking (known : List TxnId) (gen : Nat) (snap : TxnSnapshot)
  | caching (known : List TxnId) (gen : Nat) (snap : TxnSnapshot)
  | answering (known : List TxnId) (snap : TxnSnapshot)

/-- What a step reads from its surroundings: clocks, hash orders, and whether the WAL
append succeeds. -/
structure CacheEnv where
  insertedAt : Nat := 0
  ts : Nat := 0
  nowMs : Nat := 0
  order : HashOrder := .listed
  logged : Bool := true

/-- An idle thread makes a call, or a thread takes the next step of its call. -/
inductive CacheAct
  | begin
  | commit (txnId : TxnId)
  | rollback (txnId : TxnId)
  | snapshot
  | recordRead (txnId : TxnId) (key : Bytes)
  | recordWrite (txnId : TxnId) (key : Bytes)
  | next (env : CacheEnv)

/-- The shared state with its threads. `readers` are the holders of the MVCC read lock,
`returned` the commits that have returned Ok. -/
structure CacheSystem (ι : Type) where
  mvcc : VisibilityManager
  cache : SnapshotCache := {}
  txnCounter : Nat
  readers : List ι := []
  returned : List TxnId := []
  threads : ι → CachePhase := fun _ => .idle

namespace CacheSystem
variable {ι : Type} [DecidableEq ι]

def move (s : CacheSystem ι) (i : ι) (phase : CachePhase) : CacheSystem ι :=
  { s with threads := Function.update s.threads i phase }

/-- Registration under the write lock; an id that a commit has overtaken is given up. -/
def register (s : CacheSystem ι) (i : ι) (attempt : Nat) (txnId : TxnId) : CacheSystem ι :=
  match s.mvcc.beginTxnWithSnapshot txnId with
  | .ok (_, mvcc) => { s with mvcc }.move i .idle
  | .error (.alreadyCommitted _) =>
      if attempt + 1 < 16 then s.move i (.allocating (attempt + 1)) else s.move i .idle
  | .error _ => s.move i .idle

/-- The MVCC commit under the write lock. -/
def mvccCommit (s : CacheSystem ι) (i : ι) (env : CacheEnv) (txnId : TxnId) : CacheSystem ι :=
  match s.mvcc.commitTxn env.order txnId env.insertedAt env.ts env.nowMs with
  | (.ok _, mvcc) => { s with mvcc }.move i (.clearing (.returnOk txnId))
  | (.error _, mvcc) => { s with mvcc }.move i .idle

/-- The next step of a thread in this phase. A step that needs the write lock waits for
the readers. -/
def advance (s : CacheSystem ι) (i : ι) (env : CacheEnv) : CachePhase → CacheSystem ι
  | .idle => s
  | .allocating attempt =>
      if s.txnCounter = u64Max then s.move i .idle
      else
        { s with txnCounter := s.txnCounter + 1 }.move i (.clearing (.register attempt s.txnCounter))
  | .clearing next => { s with cache := { s.cache with fullCache := none } }.move i (.loading next)
  | .loading next => s.move i (.storing next s.cache.generation)
  | .storing next old =>
      { s with cache := { s.cache with generation := old + 1 } }.move i (.invalidated next)
  | .invalidated (.register attempt txnId) =>
      if s.readers = [] then s.register i attempt txnId else s
  | .invalidated (.returnOk txnId) => { s with returned := txnId :: s.returned }.move i .idle
  | .invalidated (.logRollback txnId) =>
      if env.logged then s.move i (.rollingBack txnId) else s.move i .idle
  | .logging txnId => if env.logged then s.move i (.committing txnId) else s.move i .idle
  | .committing txnId => if s.readers = [] then s.mvccCommit i env txnId else s
  | .rollingBack txnId =>
      if s.readers = [] then { s with mvcc := s.mvcc.rollbackTxn txnId }.move i .idle else s
  | .starting known => { s with readers := i :: s.readers }.move i (.locked known)
  | .locked known => s.move i (.looking known s.cache.generation)
  | .looking known gen =>
      match s.cache.fullCache with
      | some (generation, snap) =>
          if generation = gen then s.move i (.answering known snap)
          else s.move i (.building known gen)
      | none => s.move i (.building known gen)
  | .building known gen => s.move i (.rechecking known gen s.mvcc.snapshot)
  | .rechecking known gen snap =>
      if s.cache.generation = gen then s.move i (.caching known gen snap)
      else s.move i (.locked known)
  | .caching known gen snap =>
      { s with cache := { s.cache with fullCache := some (gen, snap) } }.move i (.answering known snap)
  | .answering _ _ => { s with readers := s.readers.erase i }.move i .idle

/-- A call by a thread that is not idle, and a call for a transaction that is not
active, change nothing. -/
def step (s : CacheSystem ι) (event : ι × CacheAct) : CacheSystem ι :=
  let (i, act) := event
  match act, s.threads i with
  | .next env, phase => s.advance i env phase
  | .begin, .idle => s.move i (.allocating 0)
  | .commit txnId, .idle =>
      if (s.mvcc.getBeginTs txnId).isSome then s.move i (.logging txnId) else s
  | .rollback txnId, .idle =>
      if (s.mvcc.getBeginTs txnId).isSome then s.move i (.clearing (.logRollback txnId)) else s
  | .snapshot, .idle => s.move i (.starting s.returned)
  | .recordRead txnId key, .idle =>
      if s.readers = [] then { s with mvcc := s.mvcc.recordRead txnId key } else s
  | .recordWrite txnId key, .idle =>
      if s.readers = [] then { s with mvcc := s.mvcc.recordWrite txnId key } else s
  | _, _ => s

def run (s : CacheSystem ι) (events : List (ι × CacheAct)) : CacheSystem ι := events.foldl step s

end CacheSystem

namespace VisibilityManager

/-- The transaction has ended and cannot be registered again. -/
structure Settled (m : VisibilityManager) (t : TxnId) : Prop where
  ended : t ∉ m.activeTxns
  overtaken : t ≤ m.committedTxn

/-- A change of the manager that does not bring the transaction back. -/
structure KeepsSettled (m m' : VisibilityManager) (t : TxnId) : Prop extends m'.Settled t where
  history : t ∈ m'.committedHistory → t ∈ m.committedHistory

namespace Settled
variable {m : VisibilityManager} {t : TxnId} (h : m.Settled t)
include h

theorem beginTxn {m' : VisibilityManager} {txnId : TxnId} (hBegin : m.beginTxn txnId = .ok m') :
    m.KeepsSettled m' t := by
  obtain ⟨-, hNew, rfl⟩ := beginTxn_eq_ok hBegin
  refine ⟨⟨fun hActive => ?_, h.overtaken⟩, id⟩
  rcases (AList.mem_insert _).mp hActive with rfl | hActive
  · exact Nat.not_le.mpr hNew h.overtaken
  · exact h.ended hActive

theorem modifyActive (txnId : TxnId) (f : TxnMeta → TxnMeta) :
    m.KeepsSettled (m.modifyActive txnId f) t :=
  ⟨⟨by simpa using h.ended, by simpa using h.overtaken⟩, by simp⟩

theorem abortTxn (txnId : TxnId) : m.KeepsSettled (m.abortTxn txnId) t :=
  ⟨⟨fun hActive => h.ended (AList.mem_erase.mp hActive).2, h.overtaken⟩, id⟩

theorem commitTxn (order : HashOrder) (txnId : TxnId) (insertedAt ts nowMs : Nat) :
    m.KeepsSettled (m.commitTxn order txnId insertedAt ts nowMs).2 t := by
  rcases m.commitTxn_cases order txnId insertedAt ts nowMs with
    ⟨-, hEq⟩ | ⟨txn, conflict, -, -, hEq⟩ | ⟨txn, hActive, -, hEq⟩
  · rw [hEq]
    exact ⟨h, id⟩
  · rw [hEq]
    exact h.abortTxn txnId
  · rw [hEq]
    have hNe : t ≠ txnId := by
      rintro rfl
      exact h.ended (FinMap.mem_iff_lookup.mpr ⟨txn, hActive⟩)
    refine ⟨⟨fun hIn => ?_, ?_⟩, fun hIn => (mem_committed hIn).resolve_left hNe⟩
    · rw [committed_activeTxns, AList.mem_erase] at hIn
      exact h.ended hIn.2
    · rw [committed_committedTxn]
      exact le_max_of_le_left h.overtaken

end Settled

/-- A commit that succeeds settles its transaction. -/
theorem settled_of_commitTxn {m m' : VisibilityManager} {order : HashOrder} {txnId : TxnId}
    {insertedAt ts nowMs : Nat} {snap : TxnSnapshot}
    (h : m.commitTxn order txnId insertedAt ts nowMs = (.ok snap, m')) : m'.Settled txnId := by
  rcases m.commitTxn_cases order txnId insertedAt ts nowMs with
    ⟨-, hEq⟩ | ⟨txn, conflict, -, -, hEq⟩ | ⟨txn, hActive, -, hEq⟩
  · rw [hEq] at h
    cases h
  · rw [hEq] at h
    cases h
  · rw [hEq] at h
    cases h
    refine ⟨fun hIn => ?_, ?_⟩
    · rw [committed_activeTxns, AList.mem_erase] at hIn
      exact hIn.1 rfl
    · rw [committed_committedTxn]
      exact le_max_right _ _

theorem mem_snapshot {m : VisibilityManager} {t : TxnId} (h : t ∈ m.committedHistory) :
    t ∈ m.snapshot.commitTsMap := by
  obtain ⟨e, he⟩ := FinMap.mem_iff_lookup.mp h
  exact FinMap.mem_iff_lookup.mpr ⟨e.commitTs, lookup_snapshot.mpr ⟨e, he, rfl, le_snapshotId_of_mem he⟩⟩

end VisibilityManager

namespace CachePhase

def reading : CachePhase → Bool
  | locked _ | looking _ _ | building _ _ | rechecking _ _ _ | caching _ _ _ | answering _ _ => true
  | _ => false

/-- The commit whose MVCC part is done. -/
def committed : CachePhase → Option TxnId
  | clearing (.returnOk t) | loading (.returnOk t) | storing (.returnOk t) _
  | invalidated (.returnOk t) => some t
  | _ => none

/-- The commit that has cleared the cache after its MVCC part. -/
def cleared : CachePhase → Option TxnId
  | loading (.returnOk t) | storing (.returnOk t) _ | invalidated (.returnOk t) => some t
  | _ => none

def known : CachePhase → List TxnId
  | starting known | locked known | looking known _ | building known _ | rechecking known _ _
  | caching known _ _ | answering known _ => known
  | _ => []

/-- The snapshot a reader has built but not answered with. -/
def built : CachePhase → Option TxnSnapshot
  | rechecking _ _ snap | caching _ _ snap => some snap
  | _ => none

theorem committed_of_cleared {phase : CachePhase} {t : TxnId} (h : phase.cleared = some t) :
    phase.committed = some t := by
  unfold cleared at h
  split at h <;> simp_all [committed]

theorem reading_of_built {phase : CachePhase} {snap : TxnSnapshot} (h : phase.built = some snap) :
    phase.reading = true := by
  unfold built at h
  split at h <;> simp_all [reading]

end CachePhase

/-- The snapshot has the transaction if the history does. -/
def TxnSnapshot.Covers (snap : TxnSnapshot) (mvcc : VisibilityManager) (t : TxnId) : Prop :=
  t ∈ mvcc.committedHistory → t ∈ snap.commitTsMap

namespace CacheSystem
variable {ι : Type}

def CacheCovers (s : CacheSystem ι) (t : TxnId) : Prop :=
  ∀ gen snap, s.cache.fullCache = some (gen, snap) → snap.Covers s.mvcc t

/-- What holds of a thread in this phase. -/
structure ThreadOk (s : CacheSystem ι) (i : ι) (phase : CachePhase) : Prop where
  reading : phase.reading = true → i ∈ s.readers
  committed : ∀ t ∈ phase.committed, s.mvcc.Settled t
  cleared : ∀ t ∈ phase.cleared, s.CacheCovers t
  known : ∀ t ∈ phase.known, t ∈ s.returned
  built : ∀ snap ∈ phase.built, snap = s.mvcc.snapshot
  answers : ∀ known snap, phase = .answering known snap → ∀ t ∈ known, snap.Covers s.mvcc t

/-- Commits that have returned are settled, and no cached snapshot lacks them. -/
structure Consistent (s : CacheSystem ι) : Prop where
  settled : ∀ t ∈ s.returned, s.mvcc.Settled t
  covered : ∀ t ∈ s.returned, s.CacheCovers t
  threads : ∀ i, s.ThreadOk i (s.threads i)

section
variable {s : CacheSystem ι} {i : ι}

/-- A thread outside the lock whose call has not committed anything is not constrained. -/
theorem ThreadOk.plain {phase : CachePhase} (hReading : phase.reading = false)
    (hCommitted : phase.committed = none) (hKnown : ∀ t ∈ phase.known, t ∈ s.returned) :
    s.ThreadOk i phase where
  reading h := by simp [hReading] at h
  committed := by simp [hCommitted]
  cleared t ht := by
    rw [Option.mem_def] at ht
    rw [CachePhase.committed_of_cleared ht] at hCommitted
    cases hCommitted
  known := hKnown
  built snap hSnap := by
    rw [CachePhase.reading_of_built hSnap] at hReading
    cases hReading
  answers known snap hPhase := by
    subst hPhase
    cases hReading

namespace Consistent
variable (h : s.Consistent)
include h

theorem not_reading (hFree : s.readers = []) : (s.threads i).reading = false := by
  by_contra hReading
  have hMem := (h.threads i).reading (Bool.not_eq_false _ ▸ hReading)
  simp [hFree] at hMem

/-- A mutation under the write lock that brings back no settled transaction. -/
theorem withMvcc {mvcc : VisibilityManager} (hFree : s.readers = [])
    (hKeeps : ∀ t, s.mvcc.Settled t → s.mvcc.KeepsSettled mvcc t) :
    Consistent { s with mvcc } := by
  have hCovers : ∀ t, s.mvcc.Settled t → s.CacheCovers t → CacheCovers { s with mvcc } t :=
    fun t hSettled hCovers gen snap hEntry hIn =>
      hCovers gen snap hEntry ((hKeeps t hSettled).history hIn)
  refine ⟨fun t ht => (hKeeps t (h.settled t ht)).toSettled,
    fun t ht => hCovers t (h.settled t ht) (h.covered t ht), fun j => ?_⟩
  have hNot := h.not_reading (i := j) hFree
  refine ⟨(h.threads j).reading, fun t ht => (hKeeps t ((h.threads j).committed t ht)).toSettled,
    fun t ht => hCovers t ((h.threads j).committed t (CachePhase.committed_of_cleared ht))
      ((h.threads j).cleared t ht), (h.threads j).known, ?_, ?_⟩
  · intro snap hSnap
    rw [CachePhase.reading_of_built hSnap] at hNot
    cases hNot
  · intro known snap hPhase
    simp only at hPhase
    rw [hPhase] at hNot
    cases hNot

/-- Whatever is cached was cached before or is the current snapshot. -/
theorem withCache {cache : SnapshotCache}
    (hCache : ∀ gen snap, cache.fullCache = some (gen, snap) →
      s.cache.fullCache = some (gen, snap) ∨ snap = s.mvcc.snapshot) :
    Consistent { s with cache } := by
  have hCovers : ∀ t, s.CacheCovers t → CacheCovers { s with cache } t := by
    intro t hCovers gen snap hEntry hIn
    rcases hCache gen snap hEntry with hOld | rfl
    · exact hCovers gen snap hOld hIn
    · exact VisibilityManager.mem_snapshot hIn
  refine ⟨h.settled, fun t ht => hCovers t (h.covered t ht), fun j => ?_⟩
  exact ⟨(h.threads j).reading, (h.threads j).committed,
    fun t ht => hCovers t ((h.threads j).cleared t ht), (h.threads j).known, (h.threads j).built,
    (h.threads j).answers⟩

theorem withCounter (txnCounter : Nat) : Consistent { s with txnCounter } :=
  ⟨h.settled, h.covered, fun j => ⟨(h.threads j).reading, (h.threads j).committed,
    (h.threads j).cleared, (h.threads j).known, (h.threads j).built, (h.threads j).answers⟩⟩

theorem withReturned {txnId : TxnId} (hSettled : s.mvcc.Settled txnId)
    (hCovered : s.CacheCovers txnId) : Consistent { s with returned := txnId :: s.returned } := by
  refine ⟨fun t ht => ?_, fun t ht => ?_, fun j => ?_⟩
  · rcases List.mem_cons.mp ht with rfl | ht
    · exact hSettled
    · exact h.settled t ht
  · rcases List.mem_cons.mp ht with rfl | ht
    · exact hCovered
    · exact h.covered t ht
  · exact ⟨(h.threads j).reading, (h.threads j).committed, (h.threads j).cleared,
      fun t ht => List.mem_cons_of_mem _ ((h.threads j).known t ht), (h.threads j).built,
      (h.threads j).answers⟩

/-- The holders of the read lock may change as long as every reading thread is one. -/
theorem withReaders {readers : List ι}
    (hReaders : ∀ j, (s.threads j).reading = true → j ∈ readers) : Consistent { s with readers } :=
  ⟨h.settled, h.covered, fun j => ⟨hReaders j, (h.threads j).committed, (h.threads j).cleared,
    (h.threads j).known, (h.threads j).built, (h.threads j).answers⟩⟩

end Consistent

variable [DecidableEq ι]

theorem Consistent.move (h : s.Consistent) {phase : CachePhase} (hPhase : s.ThreadOk i phase) :
    (s.move i phase).Consistent := by
  refine ⟨h.settled, h.covered, fun j => ?_⟩
  by_cases hThread : j = i
  · subst hThread
    simp only [CacheSystem.move, Function.update_self]
    exact ⟨hPhase.reading, hPhase.committed, hPhase.cleared, hPhase.known, hPhase.built,
      hPhase.answers⟩
  · simp only [CacheSystem.move, Function.update_of_ne hThread]
    have hOld := h.threads j
    exact ⟨hOld.reading, hOld.committed, hOld.cleared, hOld.known, hOld.built, hOld.answers⟩

/-- A call that ends, or stands before anything it did. -/
theorem Consistent.movePlain (h : s.Consistent) {phase : CachePhase}
    (hReading : phase.reading = false) (hCommitted : phase.committed = none)
    (hKnown : phase.known = []) : (s.move i phase).Consistent :=
  h.move (.plain hReading hCommitted (by simp [hKnown]))

theorem Consistent.register (h : s.Consistent) (hFree : s.readers = []) (attempt : Nat)
    (txnId : TxnId) : (s.register i attempt txnId).Consistent := by
  unfold CacheSystem.register VisibilityManager.beginTxnWithSnapshot
  cases hBegin : s.mvcc.beginTxn txnId with
  | ok mvcc =>
      exact (h.withMvcc hFree fun t hSettled => hSettled.beginTxn hBegin).movePlain rfl rfl rfl
  | error conflict =>
      cases conflict with
      | alreadyCommitted id =>
          simp only [Except.map]
          split
          · exact h.movePlain rfl rfl rfl
          · exact h.movePlain rfl rfl rfl
      | _ => exact h.movePlain rfl rfl rfl

theorem Consistent.mvccCommit (h : s.Consistent) (hFree : s.readers = []) (env : CacheEnv)
    (txnId : TxnId) : (s.mvccCommit i env txnId).Consistent := by
  have hKeeps := fun t (hSettled : s.mvcc.Settled t) =>
    hSettled.commitTxn env.order txnId env.insertedAt env.ts env.nowMs
  unfold CacheSystem.mvccCommit
  rcases hCommit : s.mvcc.commitTxn env.order txnId env.insertedAt env.ts env.nowMs with
    ⟨conflict | snap, mvcc⟩
  all_goals rw [hCommit] at hKeeps
  · exact (h.withMvcc hFree hKeeps).movePlain rfl rfl rfl
  · refine (h.withMvcc hFree hKeeps).move ⟨nofun, ?_, nofun, nofun, nofun, nofun⟩
    rintro t ⟨⟩
    exact VisibilityManager.settled_of_commitTxn hCommit

/-- Every step of a thread keeps what holds of all of them. -/
theorem Consistent.advance (h : s.Consistent) (env : CacheEnv) :
    (s.advance i env (s.threads i)).Consistent := by
  have hThread := h.threads i
  cases hPhase : s.threads i with
  | idle => exact h
  | allocating attempt =>
      rw [CacheSystem.advance]
      split
      · exact h.movePlain rfl rfl rfl
      · exact (h.withCounter _).movePlain rfl rfl rfl
  | clearing next =>
      rw [hPhase] at hThread
      refine Consistent.move (h.withCache (by simp)) ⟨nofun, ?_, ?_, nofun, nofun, nofun⟩
      · cases next <;> exact hThread.committed
      · intro t _ gen snap hEntry
        cases hEntry
  | loading next =>
      rw [hPhase] at hThread
      refine h.move ⟨nofun, ?_, ?_, nofun, nofun, nofun⟩
      · cases next <;> exact hThread.committed
      · cases next <;> exact hThread.cleared
  | storing next old =>
      rw [hPhase] at hThread
      refine Consistent.move (h.withCache ?_) ⟨nofun, ?_, ?_, nofun, nofun, nofun⟩
      · exact fun gen snap hEntry => .inl hEntry
      · cases next <;> exact hThread.committed
      · cases next <;> exact hThread.cleared
  | invalidated next =>
      rw [hPhase] at hThread
      cases next with
      | register attempt txnId =>
          rw [CacheSystem.advance]
          split
          · next hFree => exact h.register hFree attempt txnId
          · exact h
      | returnOk txnId =>
          exact (h.withReturned (hThread.committed txnId rfl) (hThread.cleared txnId rfl)).movePlain
            rfl rfl rfl
      | logRollback txnId =>
          rw [CacheSystem.advance]
          split
          · exact h.movePlain rfl rfl rfl
          · exact h.movePlain rfl rfl rfl
  | logging txnId =>
      rw [CacheSystem.advance]
      split
      · exact h.movePlain rfl rfl rfl
      · exact h.movePlain rfl rfl rfl
  | committing txnId =>
      rw [CacheSystem.advance]
      split
      · next hFree => exact h.mvccCommit hFree env txnId
      · exact h
  | rollingBack txnId =>
      rw [CacheSystem.advance]
      split
      · next hFree =>
        exact (h.withMvcc hFree fun t hSettled => hSettled.abortTxn txnId).movePlain rfl rfl rfl
      · exact h
  | starting known =>
      rw [hPhase] at hThread
      refine Consistent.move (h.withReaders fun j hj => List.mem_cons_of_mem _ ((h.threads j).reading hj))
        ⟨fun _ => by simp, nofun, nofun, hThread.known, nofun, nofun⟩
  | locked known =>
      rw [hPhase] at hThread
      exact h.move ⟨hThread.reading, nofun, nofun, hThread.known, nofun, nofun⟩
  | looking known gen =>
      rw [hPhase] at hThread
      have hBuilding : (s.move i (.building known gen)).Consistent :=
        h.move ⟨hThread.reading, nofun, nofun, hThread.known, nofun, nofun⟩
      rw [CacheSystem.advance]
      cases hEntry : s.cache.fullCache with
      | none => exact hBuilding
      | some entry =>
          obtain ⟨generation, snap⟩ := entry
          simp only
          split
          · refine h.move ⟨hThread.reading, nofun, nofun, hThread.known, nofun, ?_⟩
            rintro _ _ ⟨⟩ t ht
            exact h.covered t (hThread.known t ht) generation snap hEntry
          · exact hBuilding
  | building known gen =>
      rw [hPhase] at hThread
      refine h.move ⟨hThread.reading, nofun, nofun, hThread.known, ?_, nofun⟩
      rintro _ ⟨⟩
      rfl
  | rechecking known gen snap =>
      rw [hPhase] at hThread
      rw [CacheSystem.advance]
      split
      · exact h.move ⟨hThread.reading, nofun, nofun, hThread.known, hThread.built, nofun⟩
      · exact h.move ⟨hThread.reading, nofun, nofun, hThread.known, nofun, nofun⟩
  | caching known gen snap =>
      rw [hPhase] at hThread
      obtain rfl := hThread.built snap rfl
      refine Consistent.move (h.withCache ?_) ⟨hThread.reading, nofun, nofun, hThread.known, nofun, ?_⟩
      · rintro _ _ ⟨⟩
        exact .inr rfl
      · rintro _ _ ⟨⟩ t _ hIn
        exact VisibilityManager.mem_snapshot hIn
  | answering known snap =>
      have hIdle : (s.move i .idle).Consistent := h.movePlain rfl rfl rfl
      refine hIdle.withReaders fun j hj => ?_
      have hNe : j ≠ i := by
        rintro rfl
        simp [CacheSystem.move, CachePhase.reading] at hj
      exact (List.mem_erase_of_ne hNe).mpr ((hIdle.threads j).reading hj)

theorem Consistent.step (h : s.Consistent) (event : ι × CacheAct) : (s.step event).Consistent := by
  obtain ⟨i, act⟩ := event
  cases act with
  | next env => exact h.advance env
  | begin =>
      simp only [CacheSystem.step]
      cases s.threads i with
      | idle => exact h.movePlain rfl rfl rfl
      | _ => exact h
  | commit txnId =>
      simp only [CacheSystem.step]
      cases s.threads i with
      | idle =>
          simp only
          split
          · exact h.movePlain rfl rfl rfl
          · exact h
      | _ => exact h
  | rollback txnId =>
      simp only [CacheSystem.step]
      cases s.threads i with
      | idle =>
          simp only
          split
          · exact h.movePlain rfl rfl rfl
          · exact h
      | _ => exact h
  | snapshot =>
      simp only [CacheSystem.step]
      cases s.threads i with
      | idle => exact h.move (.plain rfl rfl fun t ht => ht)
      | _ => exact h
  | recordRead txnId key =>
      simp only [CacheSystem.step]
      cases s.threads i with
      | idle =>
          simp only
          split
          · next hFree => exact h.withMvcc hFree fun t hSettled => hSettled.modifyActive _ _
          · exact h
      | _ => exact h
  | recordWrite txnId key =>
      simp only [CacheSystem.step]
      cases s.threads i with
      | idle =>
          simp only
          split
          · next hFree => exact h.withMvcc hFree fun t hSettled => hSettled.modifyActive _ _
          · exact h
      | _ => exact h

theorem Consistent.run (h : s.Consistent) (events : List (ι × CacheAct)) :
    (s.run events).Consistent := by
  induction events generalizing s with
  | nil => exact h
  | cons event rest ih => exact ih (h.step event)

omit [DecidableEq ι] in
theorem consistent_opened (mvcc : VisibilityManager) (txnCounter : Nat) :
    Consistent ({ mvcc, txnCounter } : CacheSystem ι) :=
  ⟨by simp, by simp, fun i => .plain rfl rfl (by simp [CachePhase.known])⟩

/-- Without another thread in between, an invalidation is `SnapshotCache.invalidate`. -/
theorem invalidate_alone {next : AfterInvalidate} (hPhase : s.threads i = .clearing next) :
    (s.run (List.replicate 3 (i, .next {}))).cache = s.cache.invalidate ∧
      (s.run (List.replicate 3 (i, .next {}))).threads i = .invalidated next := by
  simp [run, List.replicate, step, hPhase, advance, move, SnapshotCache.invalidate]

/-- Without another thread in between, a snapshot is `SnapshotCache.snapshot`. -/
theorem snapshot_alone {known : List TxnId} (hPhase : s.threads i = .locked known) :
    ∃ n, (s.run (List.replicate n (i, .next {}))).cache = (s.cache.snapshot s.mvcc).2 ∧
      (s.run (List.replicate n (i, .next {}))).threads i =
        .answering known (s.cache.snapshot s.mvcc).1 := by
  cases hEntry : s.cache.fullCache with
  | none =>
      refine ⟨5, ?_⟩
      simp [run, List.replicate, step, hPhase, advance, move, SnapshotCache.snapshot, hEntry]
  | some entry =>
      obtain ⟨generation, snap⟩ := entry
      by_cases hGen : generation = s.cache.generation
      · refine ⟨2, ?_⟩
        simp [run, List.replicate, step, hPhase, advance, move, SnapshotCache.snapshot, hEntry, hGen]
      · refine ⟨5, ?_⟩
        simp [run, List.replicate, step, hPhase, advance, move, SnapshotCache.snapshot, hEntry, hGen]

/-- Whatever the threads of an engine do, in any order of their steps: a snapshot call
answers with every commit that had returned when the call started and is still in the
history. -/
theorem snapshot_reads_returned_commits (mvcc : VisibilityManager) (txnCounter : Nat)
    (events : List (ι × CacheAct)) (i : ι) (known : List TxnId) (snap : TxnSnapshot) (t : TxnId) :
    let s := run ({ mvcc, txnCounter } : CacheSystem ι) events
    s.threads i = .answering known snap → t ∈ known → t ∈ s.mvcc.committedHistory →
      t ∈ snap.commitTsMap := by
  intro s hAnswers hKnown hHistory
  have hThread := ((consistent_opened mvcc txnCounter).run events).threads i
  exact hThread.answers known snap hAnswers t hKnown hHistory

/-- A commit on thread 0 while thread 1 begins: both load the same generation, so one
increment is lost. Then thread 2 takes a snapshot. -/
def lostIncrement : List (Nat × CacheAct) :=
  (0, .begin) :: List.replicate 5 (0, .next {}) ++
    [(0, .commit 1), (0, .next {}), (0, .next {}), (1, .begin), (1, .next {}), (1, .next {}),
      (0, .next {}), (0, .next {}), (1, .next {}), (0, .next {}), (1, .next {}), (0, .next {}),
      (2, .snapshot)] ++ List.replicate 6 (2, .next {})

theorem lost_increment_reads_commit :
    ∃ snap, (run ({ mvcc := .newWithConfig {}, txnCounter := 1 } : CacheSystem Nat)
        lostIncrement).threads 2 = .answering [1] snap ∧ 1 ∈ snap.commitTsMap :=
  ⟨_, rfl, snapshot_reads_returned_commits (.newWithConfig {}) 1 lostIncrement 2 [1] _ 1 rfl (by simp)
    (by decide)⟩

end

end CacheSystem

end Z1Kv
