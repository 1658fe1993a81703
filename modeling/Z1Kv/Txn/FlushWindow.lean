import Z1Kv.Store.Migration
import Z1Kv.Txn.Calls
import Z1Kv.Txn.Journal

/-! Flushes, point gets, puts and commits side by side: each call of each kind takes its
steps whenever its locks allow it. What has been written is readable all the time, and is
in L2 when a flush returns. -/
namespace Z1Kv

/-- The engine, the gate, and how far every call has got. `written` is not a part of the
program: it lists the versions in the order in which they came into the hot buffer. -/
structure Window where
  db : Engine
  gate : MigrationGate := {}
  calls : Nat → CallPhase := fun _ => .idle
  flushes : Nat → FlushPhase := fun _ => .idle
  readers : Nat → ReadPhase := fun _ => .idle
  written : List Z1Entry

namespace Window

/-- No call has begun; the cache and the hot buffer are what has been written so far. -/
def start (db : Engine) : Window :=
  { db, written := db.store.recentFlush.values ++ db.store.l1.hot.values }

inductive Step (codec : Codec) : Window → Window → Prop
  | call (w : Window) (i : Nat) (phase : CallPhase) (db : Engine)
      (h : CallStep codec (w.calls i, w.db) (phase, db)) :
      Step codec w
        { w with
          db
          calls := Function.update w.calls i phase
          written := w.written ++ (w.calls i).inserts }
  | flush (w : Window) (i : Nat) (phase : FlushPhase) (store : Store) (gate : MigrationGate)
      (h : FlushStep i (w.flushes i, w.db.store, w.gate) (phase, store, gate)) :
      Step codec w
        { w with
          db := { w.db with store }
          gate
          flushes := Function.update w.flushes i phase }
  | read (w : Window) (i : Nat) (phase : ReadPhase) (gate : MigrationGate)
      (h : ReadStep w.db.store i (w.readers i, w.gate) (phase, gate)) :
      Step codec w { w with gate, readers := Function.update w.readers i phase }

abbrev Steps (codec : Codec) := Relation.ReflTransGen (Step codec)

/-- The calls in the middle of their work hold the gate, and nobody reads beside a
flush. -/
structure Exclusive (w : Window) : Prop where
  flush : ∀ i, (w.flushes i).holdsGate = true → w.gate.writer = some i
  read : ∀ i, (w.readers i).holdsGate = true → i ∈ w.gate.readers
  apart : w.gate.writer ≠ none → w.gate.readers = ∅

/-- What the flush that holds the gate has in its hands. -/
def inHand (w : Window) : VersionMap := (w.gate.writer.map fun i => (w.flushes i).inHand).getD ∅

/-- The value of a version on its way to L2. -/
def pending (w : Window) (version : Z1Key × TxnId) : Option (Option Bytes) :=
  w.db.store.pending w.inHand version

/-- The last value written for each version is on its way to L2 or has arrived. -/
structure Sound (w : Window) : Prop where
  exclusive : w.Exclusive
  writes : ∀ i, (w.flushes i).Writes w.db.store
  placed : ∀ e, LastOf (·.id = e.id) w.written e →
    w.pending e.id = some e.value ∨ w.pending e.id = none ∧ e ∈ w.db.store.l2.versions

variable {codec : Codec} {w w' : Window}

theorem Exclusive.writer_eq (h : w.Exclusive) {i j : Nat} (hi : (w.flushes i).holdsGate = true)
    (hj : (w.flushes j).holdsGate = true) : i = j :=
  Option.some.inj ((h.flush i hi).symm.trans (h.flush j hj))

/-- Nobody reads while a flush is at work. -/
theorem Exclusive.not_reading (h : w.Exclusive) {i j : Nat} (hi : (w.flushes i).holdsGate = true)
    (hj : (w.readers j).holdsGate = true) : False := by
  have hNone := h.apart (by rw [h.flush i hi]; simp)
  have hIn := h.read j hj
  rw [hNone] at hIn
  cases hIn

end Window

theorem FlushStep.gate_cases {id : Nat} {phase phase' : FlushPhase} {s s' : Store}
    {gate gate' : MigrationGate} (h : FlushStep id (phase, s, gate) (phase', s', gate')) :
    (phase.holdsGate = false ∧ phase'.holdsGate = true ∧ gate.readers = ∅ ∧ gate.writer = none ∧
      gate' = { gate with writer := some id }) ∨
    (phase.holdsGate = true ∧ phase'.holdsGate = true ∧ gate' = gate) ∨
    (phase.holdsGate = true ∧ phase'.holdsGate = false ∧ gate' = { gate with writer := none }) := by
  cases h with
  | enter _ _ hReaders hWriter => exact Or.inl ⟨rfl, rfl, hReaders, hWriter, rfl⟩
  | leave => exact Or.inr (Or.inr ⟨rfl, rfl, rfl⟩)
  | leaveFailed => exact Or.inr (Or.inr ⟨rfl, rfl, rfl⟩)
  | _ => exact Or.inr (Or.inl ⟨rfl, rfl, rfl⟩)

theorem ReadStep.gate_cases {s : Store} {id : Nat} {phase phase' : ReadPhase}
    {gate gate' : MigrationGate} (h : ReadStep s id (phase, gate) (phase', gate')) :
    (phase.holdsGate = false ∧ phase'.holdsGate = true ∧ gate.writer = none ∧
      gate' = { gate with readers := insert id gate.readers }) ∨
    (phase.holdsGate = true ∧ phase'.holdsGate = true ∧ gate' = gate) ∨
    (phase.holdsGate = true ∧ phase'.holdsGate = false ∧
      gate' = { gate with readers := gate.readers.erase id }) := by
  cases h with
  | enter _ call hWriter => exact Or.inl ⟨rfl, rfl, hWriter, rfl⟩
  | leave => exact Or.inr (Or.inr ⟨rfl, rfl, rfl⟩)
  | _ => exact Or.inr (Or.inl ⟨rfl, rfl, rfl⟩)

theorem FlushPhase.inHand_of_not_holding {phase : FlushPhase} (h : phase.holdsGate = false) :
    phase.inHand = ∅ := by
  cases phase with
  | idle => rfl
  | returned => rfl
  | _ => cases h

namespace Window
variable {codec : Codec} {w w' : Window}

theorem Exclusive.step (h : w.Exclusive) (hStep : Step codec w w') : w'.Exclusive := by
  cases hStep with
  | call i phase db hCall => exact ⟨h.flush, h.read, h.apart⟩
  | flush i phase store gate hFlush =>
      rcases hFlush.gate_cases with ⟨hOut, hIn, hReaders, hWriter, rfl⟩ | ⟨hHeld, hHolds, rfl⟩ |
        ⟨hHeld, hOut, rfl⟩
      · refine ⟨fun j hj => ?_, h.read, fun _ => hReaders⟩
        by_cases hSame : j = i
        · rw [hSame]
        · dsimp only at hj
          rw [Function.update_of_ne hSame] at hj
          have hOther := h.flush j hj
          rw [hWriter] at hOther
          cases hOther
      · refine ⟨fun j hj => ?_, h.read, h.apart⟩
        by_cases hSame : j = i
        · rw [hSame]
          exact h.flush i hHeld
        · dsimp only at hj
          rw [Function.update_of_ne hSame] at hj
          exact h.flush j hj
      · refine ⟨fun j hj => ?_, h.read, fun hNot => absurd rfl hNot⟩
        by_cases hSame : j = i
        · dsimp only at hj
          rw [hSame, Function.update_self, hOut] at hj
          cases hj
        · dsimp only at hj
          rw [Function.update_of_ne hSame] at hj
          exact absurd (h.writer_eq hj hHeld) hSame
  | read i phase gate hRead =>
      have hWriter : gate.writer = w.gate.writer := by
        rcases hRead.gate_cases with ⟨-, -, -, rfl⟩ | ⟨-, -, rfl⟩ | ⟨-, -, rfl⟩ <;> rfl
      refine ⟨fun j hj => hWriter.trans (h.flush j hj), fun j hj => ?_, fun hNot => ?_⟩
      · by_cases hSame : j = i
        · subst hSame
          dsimp only at hj
          rw [Function.update_self] at hj
          rcases hRead.gate_cases with ⟨-, -, -, rfl⟩ | ⟨hHeld, -, rfl⟩ | ⟨-, hOut, rfl⟩
          · exact Finset.mem_insert_self _ _
          · exact h.read _ hHeld
          · rw [hOut] at hj
            cases hj
        · dsimp only at hj
          rw [Function.update_of_ne hSame] at hj
          rcases hRead.gate_cases with ⟨-, -, -, rfl⟩ | ⟨-, -, rfl⟩ | ⟨-, -, rfl⟩
          · exact Finset.mem_insert_of_mem (h.read j hj)
          · exact h.read j hj
          · exact Finset.mem_erase.mpr ⟨hSame, h.read j hj⟩
      · dsimp only at hNot
        rcases hRead.gate_cases with ⟨-, -, hNone, rfl⟩ | ⟨-, -, rfl⟩ | ⟨hHeld, -, rfl⟩
        · exact absurd hNone hNot
        · exact h.apart hNot
        · dsimp only
          rw [h.apart hNot]
          rfl

theorem inHand_some {i : Nat} (h : w.gate.writer = some i) : w.inHand = (w.flushes i).inHand := by
  simp [inHand, h]

theorem inHand_none (h : w.gate.writer = none) : w.inHand = ∅ := by
  simp [inHand, h]

/-- The flush that takes a step has all that is in hand, before it and after it. -/
theorem Exclusive.inHand_flush (h : w.Exclusive) {i : Nat} {phase : FlushPhase} {store : Store}
    {gate : MigrationGate} (hFlush : FlushStep i (w.flushes i, w.db.store, w.gate) (phase, store, gate)) :
    w.inHand = (w.flushes i).inHand ∧
      inHand
        { w with
          db := { w.db with store }
          gate
          flushes := Function.update w.flushes i phase } = phase.inHand := by
  rcases hFlush.gate_cases with ⟨hOut, hIn, -, hWriter, rfl⟩ | ⟨hHeld, hHolds, rfl⟩ | ⟨hHeld, hOut, rfl⟩
  · refine ⟨?_, ?_⟩
    · rw [inHand_none hWriter, FlushPhase.inHand_of_not_holding hOut]
    · simp [inHand]
  · refine ⟨inHand_some (h.flush i hHeld), ?_⟩
    simp [inHand, h.flush i hHeld]
  · refine ⟨inHand_some (h.flush i hHeld), ?_⟩
    rw [inHand_none rfl, FlushPhase.inHand_of_not_holding hOut]

/-- What a step does to the versions on their way: a write adds one, a flush moves them,
and the last step of a flush takes away those that are in L2. -/
theorem Step.pending_cases (h : w.Exclusive) (hStep : Step codec w w') :
    (∃ e, w'.written = w.written ++ [e] ∧ w'.db.store.l2 = w.db.store.l2 ∧
      ∀ version, w'.pending version = if version = e.id then some e.value else w.pending version) ∨
    (w'.written = w.written ∧ (∀ e ∈ w.db.store.l2.versions, e ∈ w'.db.store.l2.versions) ∧
      ∀ version, w'.pending version = w.pending version) ∨
    ∃ i numGroups, w.flushes i = .patching numGroups [] ∧ w'.written = w.written ∧
      w'.db.store.l2 = w.db.store.l2 ∧
      ∀ version, w'.pending version = AList.lookup version w.db.store.l1.hot ∧
        w.pending version = (AList.lookup version w.db.store.l1.hot).or
          (AList.lookup version w.db.store.recentFlush) := by
  cases hStep with
  | call i phase db hCall =>
      obtain ⟨size, hStore⟩ := hCall.store_eq
      cases hPhase : w.calls i with
      | loggedWrite e =>
          rw [hPhase] at hStore
          refine Or.inl ⟨e, by simp [CallPhase.inserts], by simp [hStore], fun version => ?_⟩
          dsimp only [pending, inHand]
          rw [hStore]
          by_cases hSame : version = e.id
          · subst hSame
            simp [Store.pending, CallPhase.inserts, VersionMap.putAll, VersionMap.put]
          · simp [Store.pending, CallPhase.inserts, VersionMap.putAll, VersionMap.put, hSame,
              AList.lookup_insert_ne hSame]
      | _ =>
          rw [hPhase] at hStore
          refine Or.inr (Or.inl ⟨by simp [CallPhase.inserts], by simp [hStore], fun version => ?_⟩)
          dsimp only [pending, inHand]
          rw [hStore]
          rfl
  | flush i phase store gate hFlush =>
      obtain ⟨hBefore, hAfter⟩ := h.inHand_flush hFlush
      rcases hFlush.pending with hSame | ⟨numGroups, hPhase, hHand, hStore⟩
      · refine Or.inr (Or.inl ⟨rfl, fun e he => hFlush.l2_subset he, fun version => ?_⟩)
        rw [pending, pending, hBefore, hAfter]
        exact hSame version
      · refine Or.inr (Or.inr ⟨i, numGroups, hPhase, rfl, by simp [hStore], fun version => ?_⟩)
        rw [pending, pending, hBefore, hAfter, hHand, hPhase, hStore]
        simp [Store.pending, FlushPhase.inHand]
  | read i phase gate hRead =>
      refine Or.inr (Or.inl ⟨rfl, fun e he => he, fun version => ?_⟩)
      have hWriter : gate.writer = w.gate.writer := by
        rcases hRead.gate_cases with ⟨-, -, -, rfl⟩ | ⟨-, -, rfl⟩ | ⟨-, -, rfl⟩ <;> rfl
      simp [pending, inHand, hWriter]

/-- Only the flush that takes the step is writing patches. -/
theorem Sound.writes_step (h : w.Sound) (hStep : Step codec w w') (i : Nat) :
    (w'.flushes i).Writes w'.db.store := by
  cases hStep with
  | call j phase db hCall =>
      obtain ⟨size, hStore⟩ := hCall.store_eq
      have hOld := h.writes i
      dsimp only
      rw [hStore]
      cases hPhase : w.flushes i with
      | patching numGroups groups =>
          rw [hPhase] at hOld
          exact hOld
      | _ => exact trivial
  | flush j phase store gate hFlush =>
      dsimp only
      by_cases hSame : i = j
      · subst hSame
        rw [Function.update_self]
        exact hFlush.writes (h.writes i)
      · rw [Function.update_of_ne hSame]
        cases hPhase : w.flushes i with
        | patching numGroups groups =>
            have hHolds : (w.flushes i).holdsGate = true := by rw [hPhase]; rfl
            have hWriter := h.exclusive.flush i hHolds
            rcases hFlush.gate_cases with ⟨-, -, -, hNone, -⟩ | ⟨hOther, -⟩ | ⟨hOther, -⟩
            · rw [hWriter] at hNone
              cases hNone
            · exact absurd (h.exclusive.writer_eq hHolds hOther) hSame
            · exact absurd (h.exclusive.writer_eq hHolds hOther) hSame
        | _ => exact trivial
  | read j phase gate hRead => exact h.writes i

theorem Sound.step (h : w.Sound) (hStep : Step codec w w') : w'.Sound := by
  refine ⟨h.exclusive.step hStep, h.writes_step hStep, fun e hLast => ?_⟩
  rcases hStep.pending_cases h.exclusive with ⟨new, hWritten, hL2, hPending⟩ |
    ⟨hWritten, hL2, hPending⟩ | ⟨i, numGroups, hPhase, hWritten, hL2, hPending⟩
  · rw [hWritten] at hLast
    rw [hPending, hL2]
    rcases lastOf_concat.mp hLast with rfl | ⟨hLast, hOther⟩
    · exact Or.inl (if_pos rfl)
    · rw [if_neg (fun hSame => hOther hSame.symm)]
      exact h.placed e hLast
  · rw [hWritten] at hLast
    rw [hPending]
    exact (h.placed e hLast).imp_right fun hDone => ⟨hDone.1, hL2 e hDone.2⟩
  · rw [hWritten] at hLast
    obtain ⟨hAfter, hBefore⟩ := hPending e.id
    rw [hAfter, hL2]
    have hPlaced := h.placed e hLast
    rw [hBefore] at hPlaced
    cases hHot : AList.lookup e.id w.db.store.l1.hot with
    | some value => simpa [hHot] using hPlaced
    | none =>
        rw [hHot, Option.none_or] at hPlaced
        refine Or.inr ⟨rfl, ?_⟩
        rcases hPlaced with hCached | ⟨-, hIn⟩
        · have hWrites := h.writes i
          rw [hPhase] at hWrites
          rcases hWrites e (VersionMap.mem_values.mpr hCached) with hIn | ⟨group, hGroup, -⟩
          · exact hIn
          · cases hGroup
        · exact hIn

theorem sound_start (db : Engine) : (start db).Sound := by
  refine ⟨⟨fun i hi => (by cases hi), fun i hi => (by cases hi), fun hNot => absurd rfl hNot⟩,
    fun i => trivial, fun e hLast => Or.inl ?_⟩
  change (AList.lookup e.id db.store.l1.hot).or ((AList.lookup e.id (∅ : VersionMap)).or
    (AList.lookup e.id db.store.recentFlush)) = some e.value
  rw [AList.lookup_empty, Option.none_or]
  rcases lastOf_append.mp hLast with hHot | ⟨hNone, hCached⟩
  · rw [VersionMap.mem_values.mp hHot.mem]
    rfl
  · have hMem : e ∈ db.store.recentFlush.values := hCached.mem
    cases hHot : AList.lookup e.id db.store.l1.hot with
    | none =>
        rw [Option.none_or]
        exact VersionMap.mem_values.mp hMem
    | some value =>
        have hIn : (⟨e.key, e.txnId, value⟩ : Z1Entry) ∈ db.store.l1.hot.values :=
          VersionMap.mem_values.mpr hHot
        exact (hNone _ hIn rfl).elim

/-- A reader that goes through the layers now finds the version. -/
def Available (w : Window) (version : Z1Key × TxnId) : Prop :=
  w.pending version ≠ none ∨ ∃ v : Z1Entry, v.id = version ∧
    (v ∈ w.db.store.l1.cold.values ∨ v ∈ w.db.store.l2.versions ∨ v ∈ w.db.store.l3.versions)

theorem Step.frame (hStep : Step codec w w') :
    w'.db.store.l1.cold = w.db.store.l1.cold ∧ w'.db.store.l3 = w.db.store.l3 := by
  cases hStep with
  | call i phase db hCall =>
      obtain ⟨size, hStore⟩ := hCall.store_eq
      dsimp only
      rw [hStore]
      exact ⟨rfl, rfl⟩
  | flush i phase store gate hFlush => exact hFlush.frame
  | read i phase gate hRead => exact ⟨rfl, rfl⟩

theorem Available.step (h : w.Sound) {version : Z1Key × TxnId} (hThere : w.Available version)
    (hStep : Step codec w w') : w'.Available version := by
  obtain ⟨hCold, hL3⟩ := hStep.frame
  rw [Available, hCold, hL3]
  rcases hStep.pending_cases h.exclusive with ⟨new, -, hL2, hPending⟩ | ⟨-, hL2, hPending⟩ |
    ⟨i, numGroups, hPhase, -, hL2, hPending⟩
  · rw [hPending, hL2]
    refine hThere.imp_left fun hSome => ?_
    split
    · simp
    · exact hSome
  · rw [hPending]
    refine hThere.imp_right ?_
    rintro ⟨v, hId, hIn⟩
    exact ⟨v, hId, hIn.imp_right (Or.imp_left (hL2 v))⟩
  · obtain ⟨hAfter, hBefore⟩ := hPending version
    rw [hAfter, hL2]
    rcases hThere with hSome | hDisk
    · rw [hBefore] at hSome
      cases hHot : AList.lookup version w.db.store.l1.hot with
      | some value => exact Or.inl (by simp)
      | none =>
          rw [hHot, Option.none_or] at hSome
          obtain ⟨value, hValue⟩ := Option.ne_none_iff_exists'.mp hSome
          have hWrites := h.writes i
          rw [hPhase] at hWrites
          rcases hWrites ⟨version.1, version.2, value⟩ (VersionMap.mem_values.mpr hValue) with
            hIn | ⟨group, hGroup, -⟩
          · exact Or.inr ⟨_, rfl, Or.inr (Or.inl hIn)⟩
          · cases hGroup
    · exact Or.inr hDisk

theorem Sound.available (h : w.Sound) {e : Z1Entry} (he : e ∈ w.written) : w.Available e.id := by
  obtain ⟨last, hId, hLast⟩ := @exists_lastOf Z1Entry (·.id = e.id) _ e he rfl
  have hPlaced := h.placed last (by rwa [hId])
  rw [hId] at hPlaced
  rcases hPlaced with hSome | ⟨-, hIn⟩
  · exact Or.inl (by simp [hSome])
  · exact Or.inr ⟨last, hId, Or.inr (Or.inl hIn)⟩

theorem available_start {db : Engine} {e : Z1Entry} (he : e ∈ db.store.settled) :
    (start db).Available e.id := by
  rcases Store.mem_settled.mp he with hHot | hCold | hCached | hL2 | hL3
  · exact (sound_start db).available (List.mem_append_right _ hHot)
  · exact Or.inr ⟨e, rfl, Or.inl hCold⟩
  · exact (sound_start db).available (List.mem_append_left _ hCached)
  · exact Or.inr ⟨e, rfl, Or.inr (Or.inl hL2)⟩
  · exact Or.inr ⟨e, rfl, Or.inr (Or.inr hL3)⟩

end Window

/-- The version is among the candidates, or in a layer the get has still to read. -/
def ReadPhase.Offers (s : Store) (version : Z1Key × TxnId) : ReadPhase → Prop
  | .idle | .gated _ => True
  | .readL1 call candidates => version.1 = ⟨call.cf, call.key⟩ → call.snap.sees version.2 = true →
      (∃ c ∈ candidates, c.id = version) ∨ ∃ v : Z1Entry, v.id = version ∧
        (v ∈ s.recentFlush.values ∨ v ∈ s.l2.versions ∨ v ∈ s.l3.versions)
  | .readCache call candidates => version.1 = ⟨call.cf, call.key⟩ → call.snap.sees version.2 = true →
      (∃ c ∈ candidates, c.id = version) ∨ ∃ v : Z1Entry, v.id = version ∧
        (v ∈ s.l2.versions ∨ v ∈ s.l3.versions)
  | .readL2 call candidates => version.1 = ⟨call.cf, call.key⟩ → call.snap.sees version.2 = true →
      (∃ c ∈ candidates, c.id = version) ∨ ∃ v : Z1Entry, v.id = version ∧ v ∈ s.l3.versions
  | .readL3 call candidates | .returned call candidates _ =>
      version.1 = ⟨call.cf, call.key⟩ → call.snap.sees version.2 = true →
        ∃ c ∈ candidates, c.id = version

/-- Reading one more layer. -/
theorem mem_append_visible {candidates layer : List Z1Entry} {call : ReadCall}
    {version : Z1Key × TxnId} {v : Z1Entry} (hId : v.id = version) (hv : v ∈ layer)
    (hKey : version.1 = ⟨call.cf, call.key⟩) (hSeen : call.snap.sees version.2 = true) :
    ∃ c ∈ candidates ++ (layer.filter fun e => e.key = ⟨call.cf, call.key⟩).filter
      (·.isVisibleAtCommit call.snap), c.id = version := by
  subst hId
  refine ⟨v, List.mem_append_right _ (List.mem_filter.mpr ⟨List.mem_filter.mpr ⟨hv, ?_⟩, hSeen⟩), rfl⟩
  exact decide_eq_true hKey

theorem ReadStep.offers {s : Store} {id : Nat} {phase phase' : ReadPhase} {gate gate' : MigrationGate}
    {version : Z1Key × TxnId} (h : ReadStep s id (phase, gate) (phase', gate'))
    (hThere : ∀ call, phase = .gated call → ∃ v : Z1Entry, v.id = version ∧
      (v ∈ s.l1.sources ∨ v ∈ s.recentFlush.values ∨ v ∈ s.l2.versions ∨ v ∈ s.l3.versions))
    (hOffers : phase.Offers s version) : phase'.Offers s version := by
  have hOld : ∀ {candidates more : List Z1Entry}, (∃ c ∈ candidates, c.id = version) →
      ∃ c ∈ candidates ++ more, c.id = version := by
    rintro candidates more ⟨c, hc, hId⟩
    exact ⟨c, List.mem_append_left _ hc, hId⟩
  cases h with
  | enter => exact trivial
  | l1 _ call =>
      intro hKey hSeen
      obtain ⟨v, rfl, hL1 | hLater⟩ := hThere call rfl
      · exact Or.inl ⟨v, MemStore.mem_getVersions.mpr ⟨hL1, hKey, hSeen⟩, rfl⟩
      · exact Or.inr ⟨v, rfl, hLater⟩
  | cache _ call candidates =>
      intro hKey hSeen
      rcases hOffers hKey hSeen with hFound | ⟨v, hId, hCached | hLater⟩
      · exact Or.inl (hOld hFound)
      · exact Or.inl (mem_append_visible hId hCached hKey hSeen)
      · exact Or.inr ⟨v, hId, hLater⟩
  | l2 _ call candidates =>
      intro hKey hSeen
      rw [DiskLayer.getVersions_eq]
      rcases hOffers hKey hSeen with hFound | ⟨v, hId, hL2 | hL3⟩
      · exact Or.inl (hOld hFound)
      · exact Or.inl (mem_append_visible hId hL2 hKey hSeen)
      · exact Or.inr ⟨v, hId, hL3⟩
  | l3 _ call candidates =>
      intro hKey hSeen
      rw [DiskLayer.getVersions_eq]
      rcases hOffers hKey hSeen with hFound | ⟨v, hId, hL3⟩
      · exact hOld hFound
      · exact mem_append_visible hId hL3 hKey hSeen
  | leave _ call candidates => exact hOffers

/-- Where a version written before the flush took the hot buffer is. -/
def FlushPhase.Carries (s : Store) (e : Z1Entry) : FlushPhase → Prop
  | .idle | .gated => False
  | .taken map | .resized map | .published map =>
      (AList.lookup e.id map).or (AList.lookup e.id s.recentFlush) = some e.value ∨ e ∈ s.l2.versions
  | .merged => AList.lookup e.id s.recentFlush = some e.value ∨ e ∈ s.l2.versions
  | .patching _ groups => e ∈ s.l2.versions ∨ ∃ group ∈ groups, ∃ pe ∈ group.2, pe.toZ1Entry group.1 = e
  | .cleared _ | .returned (.ok _) => e ∈ s.l2.versions
  | .failed _ | .returned (.error _) => True

theorem FlushStep.carries {id : Nat} {phase phase' : FlushPhase} {s s' : Store}
    {gate gate' : MigrationGate} {e : Z1Entry} (h : FlushStep id (phase, s, gate) (phase', s', gate'))
    (hCarries : phase.Carries s e) : phase'.Carries s' e := by
  cases h with
  | take => exact hCarries.elim
  | cacheMerge _ _ swapped =>
      refine hCarries.imp_left fun hFound => ?_
      rwa [VersionMap.lookup_putAll]
  | getAll => exact hCarries.symm.imp_right fun hFound => mem_cfGroups.mp (VersionMap.mem_values.mpr hFound)
  | appendPatch _ _ numGroups cf entries rest written l2 hPatch =>
      exact DiskLayer.appendPatch_groups hPatch hCarries
  | appendFails => exact trivial
  | clear _ _ numGroups =>
      rcases hCarries with hIn | ⟨group, hGroup, -⟩
      · exact hIn
      · cases hGroup
  | _ => exact hCarries

namespace Window
variable {codec : Codec} {w w' : Window}

/-- With no flush at work an available version is in one of the layers. -/
theorem Available.in_layers {version : Z1Key × TxnId} (h : w.Available version)
    (hWriter : w.gate.writer = none) : ∃ v : Z1Entry, v.id = version ∧
      (v ∈ w.db.store.l1.sources ∨ v ∈ w.db.store.recentFlush.values ∨ v ∈ w.db.store.l2.versions ∨
        v ∈ w.db.store.l3.versions) := by
  rcases h with hPending | ⟨v, hId, hCold | hDisk⟩
  · obtain ⟨value, hValue⟩ := Option.ne_none_iff_exists'.mp hPending
    rw [pending, inHand_none hWriter, Store.pending, AList.lookup_empty, Option.none_or] at hValue
    refine ⟨⟨version.1, version.2, value⟩, rfl, ?_⟩
    rcases Option.or_eq_some_iff.mp hValue with hHot | ⟨-, hCached⟩
    · exact Or.inl (List.mem_append_left _ (List.mem_append_left _ (VersionMap.mem_values.mpr hHot)))
    · exact Or.inr (Or.inl (VersionMap.mem_values.mpr hCached))
  · exact ⟨v, hId, Or.inl (List.mem_append_left _ (List.mem_append_right _ hCold))⟩
  · exact ⟨v, hId, Or.inr (Or.inr hDisk)⟩

/-- While a reader is at work nothing moves under it. -/
theorem Exclusive.offers_step (h : w.Exclusive) {version : Z1Key × TxnId} {i : Nat}
    (hThere : w.Available version) (hOffers : (w.readers i).Offers w.db.store version)
    (hStep : Step codec w w') : (w'.readers i).Offers w'.db.store version := by
  cases hStep with
  | call j phase db hCall =>
      obtain ⟨size, hStore⟩ := hCall.store_eq
      dsimp only
      rw [hStore]
      cases hPhase : w.readers i with
      | idle => exact trivial
      | gated call => exact trivial
      | _ =>
          rw [hPhase] at hOffers
          exact hOffers
  | flush j phase store gate hFlush =>
      by_cases hHolds : (w.readers i).holdsGate = true
      · rcases hFlush.gate_cases with ⟨-, -, hNone, -, -⟩ | ⟨hHeld, -⟩ | ⟨hHeld, -⟩
        · have hIn := h.read i hHolds
          rw [hNone] at hIn
          cases hIn
        · exact (h.not_reading hHeld hHolds).elim
        · exact (h.not_reading hHeld hHolds).elim
      · dsimp only
        cases hPhase : w.readers i with
        | idle => exact trivial
        | returned call candidates value =>
            rw [hPhase] at hOffers
            exact hOffers
        | _ =>
            rw [hPhase] at hHolds
            exact absurd rfl hHolds
  | read j phase gate hRead =>
      dsimp only
      by_cases hSame : i = j
      · subst hSame
        rw [Function.update_self]
        refine hRead.offers (fun call hPhase => ?_) hOffers
        refine hThere.in_layers ?_
        by_contra hWriter
        have hIn := h.read i (by rw [hPhase]; rfl)
        rw [h.apart hWriter] at hIn
        cases hIn
      · rw [Function.update_of_ne hSame]
        exact hOffers

theorem Exclusive.carries_step (h : w.Exclusive) {e : Z1Entry} {i : Nat}
    (hCarries : (w.flushes i).Carries w.db.store e) (hStep : Step codec w w') :
    (w'.flushes i).Carries w'.db.store e := by
  cases hStep with
  | call j phase db hCall =>
      obtain ⟨size, hStore⟩ := hCall.store_eq
      dsimp only
      rw [hStore]
      cases hPhase : w.flushes i with
      | returned result =>
          rw [hPhase] at hCarries
          cases result with
          | ok numGroups => exact hCarries
          | error e => exact trivial
      | _ =>
          rw [hPhase] at hCarries
          exact hCarries
  | flush j phase store gate hFlush =>
      dsimp only
      by_cases hSame : i = j
      · subst hSame
        rw [Function.update_self]
        exact hFlush.carries hCarries
      · rw [Function.update_of_ne hSame]
        by_cases hHolds : (w.flushes i).holdsGate = true
        · rcases hFlush.gate_cases with ⟨-, -, -, hNone, -⟩ | ⟨hOther, -⟩ | ⟨hOther, -⟩
          · rw [h.flush i hHolds] at hNone
            cases hNone
          · exact absurd (h.writer_eq hHolds hOther) hSame
          · exact absurd (h.writer_eq hHolds hOther) hSame
        · cases hPhase : w.flushes i with
          | returned result =>
              rw [hPhase] at hCarries
              cases result with
              | ok numGroups => exact hFlush.l2_subset hCarries
              | error e => exact trivial
          | idle =>
              rw [hPhase] at hCarries
              exact hCarries.elim
          | _ =>
              rw [hPhase] at hHolds
              exact absurd rfl hHolds
  | read j phase gate hRead => exact hCarries

/-- The steps of one flush, with nothing between them. -/
theorem Steps.flush (w : Window) (i : Nat) {finish : FlushPhase × Store × MigrationGate}
    (h : Relation.ReflTransGen (FlushStep i) (w.flushes i, w.db.store, w.gate) finish) :
    Steps codec w
      { w with
        db := { w.db with store := finish.2.1 }
        gate := finish.2.2
        flushes := Function.update w.flushes i finish.1 } := by
  induction h with
  | refl =>
      rw [Function.update_eq_self]
  | @tail middle finish _ hStep ih =>
      obtain ⟨phase, store, gate⟩ := finish
      refine ih.tail ?_
      have hNext := @Step.flush codec
        { w with
          db := { w.db with store := middle.2.1 }
          gate := middle.2.2
          flushes := Function.update w.flushes i middle.1 } i phase store gate
        (by dsimp only; rw [Function.update_self]; exact hStep)
      dsimp only at hNext
      rwa [Function.update_idem] at hNext

/-- The steps of one get, with nothing between them. -/
theorem Steps.read (w : Window) (i : Nat) {finish : ReadPhase × MigrationGate}
    (h : Relation.ReflTransGen (ReadStep w.db.store i) (w.readers i, w.gate) finish) :
    Steps codec w
      { w with
        gate := finish.2
        readers := Function.update w.readers i finish.1 } := by
  induction h with
  | refl =>
      rw [Function.update_eq_self]
  | @tail middle finish _ hStep ih =>
      obtain ⟨phase, gate⟩ := finish
      refine ih.tail ?_
      have hNext := @Step.read codec
        { w with
          gate := middle.2
          readers := Function.update w.readers i middle.1 } i phase gate
        (by dsimp only; rw [Function.update_self]; exact hStep)
      dsimp only at hNext
      rwa [Function.update_idem] at hNext

/-- A get that nothing interrupts. -/
theorem exists_read (codec : Codec) {w : Window} {i : Nat} (hGate : w.gate = {})
    (hIdle : w.readers i = .idle) (call : ReadCall) :
    ∃ read, Steps codec w read ∧ read.db = w.db ∧ read.gate = {} ∧ read.flushes = w.flushes ∧
      read.written = w.written ∧
      read.readers i = .returned call (w.db.store.candidates call.snap call.cf call.key)
        (w.db.store.getAt call.snap call.cf call.key) := by
  have hGet := getAt_steps i w.db.store call
  rw [← hIdle, ← hGate] at hGet
  exact ⟨_, Steps.read w i hGet, rfl, hGate, rfl, rfl, Function.update_self ..⟩

/-- A flush that nothing interrupts, with the states around its take. -/
theorem exists_flush (codec : Codec) {w : Window} {i : Nat} (hGate : w.gate = {})
    (hIdle : w.flushes i = .idle) (writes : Nat → PatchOutcome) :
    ∃ gated taken flushed, Step codec w gated ∧ Step codec gated taken ∧ Steps codec taken flushed ∧
      gated.written = w.written ∧ gated.flushes i = .gated ∧
      taken.flushes i = .taken w.db.store.l1.hot ∧
      flushed.flushes i = .returned (w.db.store.flushL1ToL2 writes).1 := by
  let gated : Window :=
    { w with gate := { writer := some i }, flushes := Function.update w.flushes i .gated }
  let taken : Window :=
    { gated with
      db := { w.db with store := { w.db.store with l1 := { w.db.store.l1 with hot := ∅ } } }
      flushes := Function.update gated.flushes i (.taken w.db.store.l1.hot) }
  have hGated : gated.flushes i = .gated := Function.update_self ..
  have hTaken : taken.flushes i = .taken w.db.store.l1.hot := Function.update_self ..
  have hEnter : Step codec w gated := by
    refine .flush w i .gated w.db.store { writer := some i } ?_
    rw [hIdle, hGate]
    exact .enter w.db.store {} rfl rfl
  have hTake : Step codec gated taken := by
    refine .flush gated i _ _ _ ?_
    rw [hGated]
    exact .take w.db.store _
  have hRest := flush_taken_steps i writes w.db.store
  rw [← hTaken] at hRest
  exact ⟨gated, taken, _, hEnter, hTake, Steps.flush taken i hRest, rfl, hGated, hTaken,
    Function.update_self ..⟩

theorem Steps.sound {db : Engine} (h : Steps codec (start db) w) : w.Sound := by
  induction h with
  | refl => exact sound_start db
  | tail _ hStep ih => exact ih.step hStep

theorem Steps.available (h : Steps codec w w') (hSound : w.Sound) {version : Z1Key × TxnId}
    (hThere : w.Available version) : w'.Sound ∧ w'.Available version := by
  induction h with
  | refl => exact ⟨hSound, hThere⟩
  | tail _ hStep ih => exact ⟨ih.1.step hStep, ih.2.step ih.1 hStep⟩

/-- A get that has not read L1 yet will find the version. -/
theorem Steps.offers (h : Steps codec w w') (hSound : w.Sound) {version : Z1Key × TxnId} {i : Nat}
    (hThere : w.Available version) (hUnread : (w.readers i).isUnread = true) :
    (w'.readers i).Offers w'.db.store version := by
  induction h with
  | refl =>
      cases hPhase : w.readers i with
      | idle => exact trivial
      | gated call => exact trivial
      | _ =>
          rw [hPhase] at hUnread
          cases hUnread
  | tail hBefore hStep ih =>
      obtain ⟨hSound', hThere'⟩ := Steps.available hBefore hSound hThere
      exact hSound'.exclusive.offers_step hThere' ih hStep

theorem Steps.carries (h : Steps codec w w') (hSound : w.Sound) {e : Z1Entry} {i : Nat}
    (hCarries : (w.flushes i).Carries w.db.store e) :
    w'.Sound ∧ (w'.flushes i).Carries w'.db.store e := by
  induction h with
  | refl => exact ⟨hSound, hCarries⟩
  | tail _ hStep ih => exact ⟨ih.1.step hStep, ih.1.exclusive.carries_step ih.2 hStep⟩

/-- What was last written for a version when a flush takes the hot buffer is in its hands,
in the cache, or in L2. -/
theorem Sound.carries_taken (h : w.Sound) (hStep : Step codec w w') {i : Nat} {oldHot : VersionMap}
    (hGated : w.flushes i = .gated) (hTaken : w'.flushes i = .taken oldHot) {e : Z1Entry}
    (hLast : LastOf (·.id = e.id) w.written e) : (w'.flushes i).Carries w'.db.store e := by
  cases hStep with
  | call j phase db hCall =>
      dsimp only at hTaken
      rw [hGated] at hTaken
      cases hTaken
  | read j phase gate hRead =>
      dsimp only at hTaken
      rw [hGated] at hTaken
      cases hTaken
  | flush j phase store gate hFlush =>
      dsimp only at hTaken ⊢
      by_cases hSame : i = j
      · subst hSame
        rw [Function.update_self] at hTaken ⊢
        have hHand : w.inHand = ∅ := by rw [(h.exclusive.inHand_flush hFlush).1, hGated]; rfl
        have hPlaced := h.placed e hLast
        rw [pending, hHand, Store.pending, AList.lookup_empty, Option.none_or] at hPlaced
        rw [hGated] at hFlush
        cases hFlush with
        | take => exact hPlaced.imp_right And.right
      · rw [Function.update_of_ne hSame, hGated] at hTaken
        cases hTaken

end Window

/-- In every interleaving of flushes, gets, puts and commits: when no flush is at work, the
last value written for a version is in the hot buffer, the cache or L2; a get finds a
candidate for every version that its snapshot sees and that was written before it read L1,
or was there from the start; and a flush that returns Ok leaves in L2 what was written
before it took the hot buffer. -/
theorem flush_window_hides_nothing {codec : Codec} {db : Engine} {w : Window}
    (hRun : Window.Steps codec (.start db) w) :
    (w.gate.writer = none → ∀ e, LastOf (·.id = e.id) w.written e →
      e ∈ w.db.store.l1.hot.values ∨ e ∈ w.db.store.recentFlush.values ∨ e ∈ w.db.store.l2.versions) ∧
    (∀ w' i call candidates value, Window.Steps codec w w' → (w.readers i).isUnread = true →
      w'.readers i = .returned call candidates value →
      ∀ e, e ∈ w.written ∨ e ∈ db.store.settled → e.key = ⟨call.cf, call.key⟩ →
        call.snap.sees e.txnId = true → ∃ c ∈ candidates, c.key = e.key ∧ e.txnId ≤ c.txnId) ∧
    ∀ taken w' i oldHot numGroups, Window.Step codec w taken → w.flushes i = .gated →
      taken.flushes i = .taken oldHot → Window.Steps codec taken w' →
      w'.flushes i = .returned (.ok numGroups) →
      ∀ e, LastOf (·.id = e.id) w.written e → e ∈ w'.db.store.l2.versions := by
  have hSound : w.Sound := Window.Steps.sound hRun
  refine ⟨fun hWriter e hLast => ?_,
    fun w' i call candidates value hLater hUnread hReturned e he hKey hSeen => ?_,
    fun taken w' i oldHot numGroups hTake hGated hTaken hLater hReturned e hLast => ?_⟩
  · have hPlaced := hSound.placed e hLast
    rw [Window.pending, Window.inHand_none hWriter, Store.pending, AList.lookup_empty,
      Option.none_or] at hPlaced
    rcases hPlaced with hPending | ⟨-, hL2⟩
    · rcases Option.or_eq_some_iff.mp hPending with hHot | ⟨-, hCached⟩
      · exact Or.inl (VersionMap.mem_values.mpr hHot)
      · exact Or.inr (Or.inl (VersionMap.mem_values.mpr hCached))
    · exact Or.inr (Or.inr hL2)
  · have hThere : w.Available e.id := by
      rcases he with hWritten | hSettled
      · exact hSound.available hWritten
      · exact (Window.Steps.available hRun (Window.sound_start db) (Window.available_start hSettled)).2
    have hOffers := Window.Steps.offers hLater hSound hThere hUnread
    rw [hReturned] at hOffers
    obtain ⟨c, hc, hId⟩ := hOffers hKey hSeen
    obtain ⟨hSameKey, hSameTxn⟩ := Prod.mk.inj hId
    exact ⟨c, hc, hSameKey, hSameTxn.ge⟩
  · have hCarries := hSound.carries_taken hTake hGated hTaken hLast
    have hAfter := (Window.Steps.carries hLater (hSound.step hTake) hCarries).2
    rw [hReturned] at hAfter
    exact hAfter

/-- One committed write, still in the hot buffer, and a second transaction. -/
def unflushedWrite : List LifeOp :=
  [.call .begin, .call (.put 0 [107] [1] 1), .call (.commit 1 ⟨0, 0, 0, .listed, .succeed⟩),
    .call .begin]

/-- The layers after the failed flush of `flushed_write_reaches_l2`. -/
def betweenFlushes (s : Store) : Store :=
  { s with
    l1 := { s.l1 with
      hot := VersionMap.put ∅ ⟨⟨0, [107]⟩, 2, some [2]⟩
      snapshot := s.l1.hot
      hotSizeBytes := 0 }
    recentFlush := s.recentFlush.putAll s.l1.hot.values
    l2 := (s.l2.appendPatch .fails 0 [⟨[107], some [1], 1⟩] s.nextPatchId).2
    nextPatchId := s.nextPatchId + 1 }

/-- The second transaction writes the key while a flush is at work, whose patch fails; a get
finds the first write, and the next flush brings both to L2. -/
theorem flushed_write_reaches_l2 :
    ∃ db between read flushed candidates value,
      (life Postcard.codec engineSegmentSize (.listed 0) {} unflushedWrite).2 = some db ∧
      Window.Steps Postcard.codec (.start db) between ∧
      between.flushes 0 = .returned (.error (.io .other)) ∧
      (⟨⟨0, [107]⟩, 2, some [2]⟩ ∈ between.db.store.l1.hot.values ∨
        ⟨⟨0, [107]⟩, 2, some [2]⟩ ∈ between.db.store.recentFlush.values ∨
        ⟨⟨0, [107]⟩, 2, some [2]⟩ ∈ between.db.store.l2.versions) ∧
      Window.Steps Postcard.codec between read ∧
      read.readers 0 = .returned ⟨⟨1, ∅, AList.insert 1 1 ∅⟩, 0, [107]⟩ candidates value ∧
      (∃ c ∈ candidates, c.key = ⟨0, [107]⟩ ∧ 1 ≤ c.txnId) ∧
      Window.Steps Postcard.codec read flushed ∧ flushed.flushes 1 = .returned (.ok 1) ∧
      ∀ e ∈ ([⟨⟨0, [107]⟩, 1, some [1]⟩, ⟨⟨0, [107]⟩, 2, some [2]⟩] : List Z1Entry),
        e ∈ flushed.db.store.l2.versions := by
  have hRun : (life Postcard.codec engineSegmentSize (.listed 0) {} unflushedWrite).2.map
      (fun db => (db.ensureActiveTxn 2, db.store.l1.hot.values, db.store.stage.recentFlush.values,
        ((betweenFlushes db.store).flushL1ToL2 fun _ => .succeeds).1.toOption)) =
      some (.ok (), [⟨⟨0, [107]⟩, 1, some [1]⟩], [⟨⟨0, [107]⟩, 1, some [1]⟩], some 1) := by
    decide +kernel
  obtain ⟨db, hDb, hState⟩ := Option.map_eq_some_iff.mp hRun
  simp only [Prod.mk.injEq] at hState
  obtain ⟨hActive, hHot, hStaged, hFlushes⟩ := hState
  let e : Z1Entry := ⟨⟨0, [107]⟩, 2, some [2]⟩
  let gated : Window :=
    { Window.start db with
      gate := { writer := some 0 }
      flushes := Function.update (fun _ => .idle) 0 .gated }
  let taken : Window :=
    { gated with
      db := { db with store := { db.store with l1 := { db.store.l1 with hot := ∅ } } }
      flushes := Function.update gated.flushes 0 (.taken db.store.l1.hot) }
  have hGated : Window.Steps Postcard.codec (.start db) gated :=
    .single (.flush _ 0 .gated db.store { writer := some 0 } (.enter db.store {} rfl rfl))
  have hTake : Window.Step Postcard.codec gated taken := .flush gated 0 _ _ _ (.take db.store _)
  let grown : Store :=
    { db.store with
      l1 :=
        { db.store.l1 with
          hot := VersionMap.put ∅ e
          hotSizeBytes := db.store.l1.hotSizeBytes + MemStore.estimateSize e } }
  obtain ⟨wrote, hPut, hWritten, hGate, hTaken, hStore, hReaders⟩ :
      ∃ wrote, Window.Steps Postcard.codec taken wrote ∧ wrote.written = taken.written ++ [e] ∧
        wrote.gate = taken.gate ∧ wrote.flushes = taken.flushes ∧ wrote.db.store = grown ∧
        wrote.readers = taken.readers := by
    have hChecked := Relation.ReflTransGen.single (Window.Step.call taken 0 _ _
      (@CallStep.checkWrite Postcard.codec taken.db e hActive))
    refine ⟨_, (((hChecked.tail (.call _ 0 _ _ (.recordWrite _ e))).tail
      (.call _ 0 _ _ (.logWrite _ e))).tail (.call _ 0 _ _ (.insertWrite _ e))).tail
      (.call _ 0 _ _ (.growHot _ e)), ?_, rfl, rfl, rfl, rfl⟩
    change taken.written ++ [] ++ [] ++ [] ++ [e] ++ [] = taken.written ++ [e]
    simp only [List.append_nil]
  have hGroups : cfGroups db.store.stage.recentFlush.values = [(0, [⟨[107], some [1], 1⟩])] := by
    rw [hStaged]
    decide
  have hFailing : Relation.ReflTransGen (FlushStep 0) (wrote.flushes 0, wrote.db.store, wrote.gate)
      (.returned (.error (.io .other)), betweenFlushes db.store, {}) := by
    rw [hTaken, hStore, hGate]
    have hStaging : Relation.ReflTransGen (FlushStep 0) (.taken db.store.l1.hot, grown, taken.gate)
        (.patching (cfGroups db.store.stage.recentFlush.values).length
          (cfGroups db.store.stage.recentFlush.values),
        { betweenFlushes db.store with l2 := db.store.l2, nextPatchId := db.store.nextPatchId },
        taken.gate) :=
      .head (.resize _ _ _) (.head (.publish _ _ _) (.head (.cacheMerge _ _ _) (.single (.getAll _ _))))
    rw [hGroups] at hStaging
    exact (hStaging.tail (.appendFails _ _ _ 0 _ [] .fails _ _ rfl)).tail (.leaveFailed _ _ _)
  obtain ⟨between, hBetween, hReturned, hStore', hGate', hIdle, hUnread, hWritten'⟩ :
      ∃ between, Window.Steps Postcard.codec wrote between ∧
        between.flushes 0 = .returned (.error (.io .other)) ∧
        between.db.store = betweenFlushes db.store ∧ between.gate = {} ∧
        between.flushes 1 = .idle ∧ between.readers 0 = .idle ∧ between.written = wrote.written :=
    ⟨_, Window.Steps.flush wrote 0 hFailing, rfl, rfl, rfl, congrFun hTaken 1, congrFun hReaders 0, rfl⟩
  have hLast : ∀ v ∈ ([⟨⟨0, [107]⟩, 1, some [1]⟩, e] : List Z1Entry),
      LastOf (·.id = v.id) wrote.written v := by
    have hAll : wrote.written = db.store.recentFlush.values ++ db.store.l1.hot.values ++ [e] := hWritten
    rw [hAll, hHot]
    intro v hv
    rcases List.mem_pair.mp hv with rfl | rfl
    · exact lastOf_concat.mpr (Or.inr ⟨lastOf_concat.mpr (Or.inl rfl), by decide⟩)
    · exact lastOf_concat.mpr (Or.inl rfl)
  obtain ⟨read, hRead, hSameDb, hFree, hFlushPhases, hReadWritten, hFound⟩ :=
    Window.exists_read Postcard.codec hGate' hUnread ⟨⟨1, ∅, AList.insert 1 1 ∅⟩, 0, [107]⟩
  obtain ⟨gated', taken', flushed, hEnter', hTake', hRest, hGatedWritten, hGated', hTaken',
      hReturned'⟩ :=
    Window.exists_flush Postcard.codec hFree ((congrFun hFlushPhases 1).trans hIdle) fun _ => .succeeds
  have hOk : (read.db.store.flushL1ToL2 fun _ => .succeeds).1 = .ok 1 := by
    rw [hSameDb, hStore']
    cases hResult : ((betweenFlushes db.store).flushL1ToL2 fun _ => .succeeds).1 with
    | error _ => simp [hResult, Except.toOption] at hFlushes
    | ok _ => simpa [hResult, Except.toOption] using hFlushes
  rw [hOk] at hReturned'
  have hWindow := (hGated.tail hTake).trans hPut
  have hToRead := (hWindow.trans hBetween).trans hRead
  refine ⟨db, between, read, flushed, _, _, hDb, hWindow.trans hBetween, hReturned, ?_, hRead, hFound,
    ?_, .head hEnter' (.head hTake' hRest), hReturned', fun v hv => ?_⟩
  · refine (flush_window_hides_nothing (hWindow.trans hBetween)).1 (by rw [hGate']) e ?_
    rw [hWritten']
    exact hLast e (by simp)
  · refine (flush_window_hides_nothing hWindow).2.1 read 0 _ _ _ (hBetween.trans hRead)
      (by rw [hReaders]; rfl) hFound ⟨⟨0, [107]⟩, 1, some [1]⟩ (Or.inl ?_) rfl (by decide)
    exact (hLast _ (by simp)).mem
  · refine (flush_window_hides_nothing (hToRead.tail hEnter')).2.2 taken' flushed 1 _ 1 hTake' hGated'
      hTaken' hRest hReturned' v ?_
    rw [hGatedWritten, hReadWritten, hWritten']
    exact hLast v hv

end Z1Kv
