import Z1Kv.Txn.RegistrySteps

/-! The ids that begins hand out while other threads begin, commit and roll back: no id is
given twice, and a begin gives up only after sixteen commits of others. -/
namespace Z1Kv

/-- The events of a run, with the step that each belongs to. -/
abbrev TxnTrace (ι : Type) := List ((ι × TxnAct) × Option TxnEvent)

namespace TxnEvent

def allocated? : TxnEvent → Option TxnId
  | allocated txnId => some txnId
  | _ => none

def registered? : TxnEvent → Option TxnId
  | registered txnId _ => some txnId
  | _ => none

def begun? : TxnEvent → Option TxnId
  | begun txnId => some txnId
  | _ => none

def entered? : TxnEvent → Option TxnId
  | entered txnId => some txnId
  | _ => none

end TxnEvent

namespace TxnTrace
variable {ι : Type}

/-- The transactions of one kind of event. -/
def ids (pick : TxnEvent → Option TxnId) (past : TxnTrace ι) : List TxnId :=
  past.filterMap fun e => e.2.bind pick

theorem ids_append (pick : TxnEvent → Option TxnId) (past more : TxnTrace ι) :
    (past ++ more).ids pick = past.ids pick ++ more.ids pick := List.filterMap_append

theorem ids_concat (pick : TxnEvent → Option TxnId) (past : TxnTrace ι) (input : ι × TxnAct)
    (event : Option TxnEvent) :
    (past ++ [(input, event)]).ids pick = past.ids pick ++ (event.bind pick).toList := by
  rw [ids_append]
  cases hPick : event.bind pick <;> simp [ids, hPick]

/-- How far the counter has come, were it not to wrap. -/
def limit (start : Nat) (past : TxnTrace ι) : Nat := start + (past.ids TxnEvent.allocated?).length

theorem limit_mono (start : Nat) (past more : TxnTrace ι) : past.limit start ≤ (past ++ more).limit start := by
  simp [limit, ids_append]

/-- Since the last begin that thread `i` called, at least `n` commits have gone through. -/
def Since (past : TxnTrace ι) (i : ι) (n : Nat) : Prop :=
  ∃ before act call, past = before ++ ((i, act), some TxnEvent.called) :: call ∧
    (∀ e ∈ call, e.1.1 = i → e.2 ≠ some TxnEvent.called) ∧ n ≤ (ids TxnEvent.entered? call).length

theorem since_called (past : TxnTrace ι) (i : ι) (act : TxnAct) :
    (past ++ [((i, act), some TxnEvent.called)]).Since i 0 := ⟨past, act, [], rfl, nofun, Nat.zero_le _⟩

theorem Since.concat {past : TxnTrace ι} {i : ι} {n : Nat} (h : past.Since i n) {input : ι × TxnAct}
    {event : Option TxnEvent} (hCall : input.1 = i → event ≠ some TxnEvent.called) :
    (past ++ [(input, event)]).Since i (n + (event.bind TxnEvent.entered?).toList.length) := by
  obtain ⟨before, act, call, rfl, hCalls, hCount⟩ := h
  refine ⟨before, act, call ++ [(input, event)], by simp, fun e he hSelf => ?_, ?_⟩
  · rcases List.mem_append.mp he with he | he
    · exact hCalls e he hSelf
    · obtain rfl := List.mem_singleton.mp he
      exact hCall hSelf
  · rw [ids_concat, List.length_append]
    exact Nat.add_le_add_right hCount _

theorem Since.le {past : TxnTrace ι} {i : ι} {m n : Nat} (h : past.Since i n) (hLe : m ≤ n) :
    past.Since i m := by
  obtain ⟨before, act, call, hEq, hCalls, hCount⟩ := h
  exact ⟨before, act, call, hEq, hCalls, hLe.trans hCount⟩

end TxnTrace

namespace TxnSystem
variable {ι : Type}

/-- Every id is in one place: given out by the counter and waiting for registration,
registered and waiting to be pinned, or returned by its begin. -/
structure Allotted (start : Nat) (past : TxnTrace ι) (s : TxnSystem ι) : Prop where
  counter : s.txnCounter = past.limit start % 2 ^ 64
  registered : ∀ t ∈ past.ids TxnEvent.registered?, start ≤ t ∧ t < past.limit start
  begun : ∀ t ∈ past.ids TxnEvent.begun?, t ∈ past.ids TxnEvent.registered?
  registeredOnce : (past.ids TxnEvent.registered?).Nodup
  begunOnce : (past.ids TxnEvent.begun?).Nodup
  registering : ∀ i attempt t, s.threads i = .registering attempt t →
    start ≤ t ∧ t < past.limit start ∧ t ∉ past.ids TxnEvent.registered?
  pinning : ∀ i t snap, s.threads i = .pinning t snap →
    t ∈ past.ids TxnEvent.registered? ∧ t ∉ past.ids TxnEvent.begun?
  apart : ∀ i j t, (s.threads i).fresh? = some t → (s.threads j).fresh? = some t → i = j
  active : ∀ t ∈ s.mvcc.activeTxns, t ∈ past.ids TxnEvent.registered?
  committed : s.mvcc.committedTxn < past.limit start

section
variable {start : Nat} {past : TxnTrace ι} {s : TxnSystem ι}

theorem Allotted.fresh_lt (h : Allotted start past s) {i : ι} {t : TxnId}
    (hFresh : (s.threads i).fresh? = some t) : t < past.limit start := by
  cases hPhase : s.threads i with
  | registering attempt txnId =>
      rw [hPhase] at hFresh
      obtain rfl := Option.some.inj hFresh
      exact (h.registering i attempt _ hPhase).2.1
  | pinning txnId snap =>
      rw [hPhase] at hFresh
      obtain rfl := Option.some.inj hFresh
      exact (h.registered _ (h.pinning i _ snap hPhase).1).2
  | _ =>
      rw [hPhase] at hFresh
      cases hFresh

/-- A change that gives out no id and brings no transaction nearer to its begin. -/
theorem Allotted.keep (h : Allotted start past s) {s' : TxnSystem ι} {input : ι × TxnAct}
    {event : Option TxnEvent} (hAllocated : event.bind TxnEvent.allocated? = none)
    (hRegistered : event.bind TxnEvent.registered? = none)
    (hBegun : event.bind TxnEvent.begun? = none) (hCounter : s'.txnCounter = s.txnCounter)
    (hThreads : ∀ j, s'.threads j = s.threads j ∨ (s'.threads j).fresh? = none)
    (hActive : ∀ t ∈ s'.mvcc.activeTxns, t ∈ s.mvcc.activeTxns)
    (hCommitted : s'.mvcc.committedTxn < past.limit start) :
    Allotted start (past ++ [(input, event)]) s' := by
  have hFresh {j : ι} {t : TxnId} (hj : (s'.threads j).fresh? = some t) : s'.threads j = s.threads j := by
    refine (hThreads j).resolve_right fun hNone => ?_
    rw [hNone] at hj
    cases hj
  have hLimit : (past ++ [(input, event)]).limit start = past.limit start := by
    simp [TxnTrace.limit, TxnTrace.ids_concat, hAllocated]
  have hRegisteredIds : (past ++ [(input, event)]).ids TxnEvent.registered? =
      past.ids TxnEvent.registered? := by simp [TxnTrace.ids_concat, hRegistered]
  have hBegunIds : (past ++ [(input, event)]).ids TxnEvent.begun? = past.ids TxnEvent.begun? := by
    simp [TxnTrace.ids_concat, hBegun]
  constructor
  · rw [hLimit, hCounter, h.counter]
  · rw [hLimit, hRegisteredIds]
    exact h.registered
  · rw [hBegunIds, hRegisteredIds]
    exact h.begun
  · rw [hRegisteredIds]
    exact h.registeredOnce
  · rw [hBegunIds]
    exact h.begunOnce
  · intro i attempt t hPhase
    rw [hLimit, hRegisteredIds]
    rw [hFresh (t := t) (by rw [hPhase]; rfl)] at hPhase
    exact h.registering i attempt t hPhase
  · intro i t snap hPhase
    rw [hRegisteredIds, hBegunIds]
    rw [hFresh (t := t) (by rw [hPhase]; rfl)] at hPhase
    exact h.pinning i t snap hPhase
  · intro i j t hi hj
    rw [hFresh hi] at hi
    rw [hFresh hj] at hj
    exact h.apart i j t hi hj
  · intro t ht
    rw [hRegisteredIds]
    exact h.active t (hActive t ht)
  · rw [hLimit]
    exact hCommitted

theorem Allotted.counter_eq (h : Allotted start past s) {input : ι × TxnAct}
    (hRoom : (past ++ [(input, some (TxnEvent.allocated s.txnCounter))]).limit start ≤ 2 ^ 64) :
    s.txnCounter = past.limit start := by
  have hLimit : (past ++ [(input, some (TxnEvent.allocated s.txnCounter))]).limit start =
      past.limit start + 1 := by
    simp [TxnTrace.limit, TxnTrace.ids_concat, TxnEvent.allocated?, Nat.add_assoc]
  rw [hLimit] at hRoom
  rw [h.counter, Nat.mod_eq_of_lt hRoom]

theorem allotted_opened {mvcc : VisibilityManager} (hIdle : mvcc.activeTxns = ∅)
    (hLast : mvcc.committedTxn < u64Max) :
    Allotted (mvcc.committedTxn + 1) [] (opened mvcc : TxnSystem ι) := by
  have hCounter (n : Nat) (hn : n < u64Max) : min (n + 1) u64Max = (n + 1) % 2 ^ 64 := by
    unfold u64Max at hn ⊢
    omega
  refine ⟨hCounter _ hLast, nofun, nofun, .nil, .nil, nofun, nofun, nofun, fun t ht => ?_, ?_⟩
  · change t ∈ mvcc.activeTxns at ht
    rw [hIdle] at ht
    exact absurd ht (AList.notMem_empty t)
  · exact Nat.lt_succ_self _

/-- A thread in its begin has seen as many commits as attempts, and one more once the id it
holds is overtaken. -/
structure Outrun (past : TxnTrace ι) (s : TxnSystem ι) : Prop where
  counting : ∀ i attempt, s.threads i = .counting attempt ∨ s.threads i = .allocating attempt →
    past.Since i attempt
  registering : ∀ i attempt t, s.threads i = .registering attempt t →
    past.Since i attempt ∧ (t ≤ s.mvcc.committedTxn → past.Since i (attempt + 1))

/-- A step that leaves the threads in their begins where they are. A commit may overtake ids;
it is one more commit for those who hold them. -/
theorem Outrun.keep (h : Outrun past s) {s' : TxnSystem ι} {input : ι × TxnAct}
    {event : Option TxnEvent} (hEvent : event ≠ some TxnEvent.called)
    (hCounting : ∀ j attempt, s'.threads j = .counting attempt ∨ s'.threads j = .allocating attempt →
      s.threads j = .counting attempt ∨ s.threads j = .allocating attempt)
    (hRegistering : ∀ j attempt t, s'.threads j = .registering attempt t →
      s.threads j = .registering attempt t)
    (hCommitted : s'.mvcc.committedTxn = s.mvcc.committedTxn ∨ ∃ t, event = some (.entered t)) :
    Outrun (past ++ [(input, event)]) s' := by
  constructor
  · intro j attempt hPhase
    exact ((h.counting j attempt (hCounting j attempt hPhase)).concat fun _ => hEvent).le
      (Nat.le_add_right _ _)
  · intro j attempt t hPhase
    obtain ⟨hSince, hOvertaken⟩ := h.registering j attempt t (hRegistering j attempt t hPhase)
    refine ⟨(hSince.concat fun _ => hEvent).le (Nat.le_add_right _ _), fun hLe => ?_⟩
    rcases hCommitted with hSame | ⟨u, rfl⟩
    · rw [hSame] at hLe
      exact ((hOvertaken hLe).concat fun _ => hEvent).le (Nat.le_add_right _ _)
    · exact hSince.concat fun _ => hEvent

variable [DecidableEq ι]

@[simp] theorem threads_move_self (s : TxnSystem ι) (i : ι) (phase : TxnPhase) :
    (s.move i phase).threads i = phase := Function.update_self ..

theorem threads_move_ne (s : TxnSystem ι) {i j : ι} (phase : TxnPhase) (h : j ≠ i) :
    (s.move i phase).threads j = s.threads j := Function.update_of_ne h ..

theorem Allotted.allocate (h : Allotted start past s) (i : ι) (attempt : Nat) {input : ι × TxnAct}
    (hRoom : (past ++ [(input, some (TxnEvent.allocated s.txnCounter))]).limit start ≤ 2 ^ 64) :
    Allotted start (past ++ [(input, some (TxnEvent.allocated s.txnCounter))])
      ({ s with txnCounter := (s.txnCounter + 1) % 2 ^ 64 }.move i
        (.registering attempt s.txnCounter)) := by
  have hLimit : (past ++ [(input, some (TxnEvent.allocated s.txnCounter))]).limit start =
      past.limit start + 1 := by
    simp [TxnTrace.limit, TxnTrace.ids_concat, TxnEvent.allocated?, Nat.add_assoc]
  have hRegisteredIds : (past ++ [(input, some (TxnEvent.allocated s.txnCounter))]).ids
      TxnEvent.registered? = past.ids TxnEvent.registered? := by
    simp [TxnTrace.ids_concat, TxnEvent.registered?]
  have hBegunIds : (past ++ [(input, some (TxnEvent.allocated s.txnCounter))]).ids TxnEvent.begun? =
      past.ids TxnEvent.begun? := by
    simp [TxnTrace.ids_concat, TxnEvent.begun?]
  have hNew : s.txnCounter = past.limit start := h.counter_eq hRoom
  have hOld (j : ι) (hNe : j ≠ i) := @threads_move_ne _ _ { s with txnCounter := (s.txnCounter + 1) % 2 ^ 64 }
    i j (.registering attempt s.txnCounter) hNe
  constructor
  · show (s.txnCounter + 1) % 2 ^ 64 = _
    rw [hLimit, hNew]
  · rw [hLimit, hRegisteredIds]
    exact fun t ht => ⟨(h.registered t ht).1, Nat.lt_succ_of_lt (h.registered t ht).2⟩
  · rw [hBegunIds, hRegisteredIds]
    exact h.begun
  · rw [hRegisteredIds]
    exact h.registeredOnce
  · rw [hBegunIds]
    exact h.begunOnce
  · intro j attempt' t hThread
    rw [hLimit, hRegisteredIds]
    by_cases hSelf : j = i
    · subst hSelf
      rw [threads_move_self] at hThread
      cases hThread
      refine ⟨?_, ?_, fun hIn => ?_⟩
      · rw [hNew]
        exact Nat.le_add_right _ _
      · rw [hNew]
        exact Nat.lt_succ_self _
      · exact absurd (h.registered _ hIn).2 (by rw [hNew]; exact Nat.lt_irrefl _)
    · rw [hOld j hSelf] at hThread
      obtain ⟨hStart, hLt, hNot⟩ := h.registering j attempt' t hThread
      exact ⟨hStart, Nat.lt_succ_of_lt hLt, hNot⟩
  · intro j t snap hThread
    rw [hRegisteredIds, hBegunIds]
    by_cases hSelf : j = i
    · subst hSelf
      rw [threads_move_self] at hThread
      cases hThread
    · rw [hOld j hSelf] at hThread
      exact h.pinning j t snap hThread
  · -- the new id is above every id that waits
    have hAbove {j : ι} {t : TxnId} (hNe : j ≠ i) (hFresh : (s.threads j).fresh? = some t) :
        t ≠ s.txnCounter := by
      rw [hNew]
      exact Nat.ne_of_lt (h.fresh_lt hFresh)
    intro j k t hj hk
    by_cases hSelf : j = i
    · by_cases hSelf' : k = i
      · rw [hSelf, hSelf']
      · rw [hOld k hSelf'] at hk
        subst hSelf
        rw [threads_move_self] at hj
        exact absurd (Option.some.inj hj).symm (hAbove hSelf' hk)
    · rw [hOld j hSelf] at hj
      by_cases hSelf' : k = i
      · subst hSelf'
        rw [threads_move_self] at hk
        exact absurd (Option.some.inj hk).symm (hAbove hSelf hj)
      · rw [hOld k hSelf'] at hk
        exact h.apart j k t hj hk
  · rw [hRegisteredIds]
    exact h.active
  · rw [hLimit]
    exact Nat.lt_succ_of_lt h.committed

/-- A thread goes on from a registration to pin its snapshot, or from there to its return:
of the transactions on their way, those of the others stay. -/
theorem Allotted.fresh_after (h : Allotted start past s) {i : ι} {t : TxnId} {s' : TxnSystem ι}
    (hOld : (s.threads i).fresh? = some t) (hNew : ∀ u, (s'.threads i).fresh? = some u → u = t)
    (hOthers : ∀ j, j ≠ i → s'.threads j = s.threads j) (j k : ι) (u : TxnId)
    (hj : (s'.threads j).fresh? = some u) (hk : (s'.threads k).fresh? = some u) : j = k := by
  have hBefore (j : ι) (hj : (s'.threads j).fresh? = some u) : (s.threads j).fresh? = some u := by
    by_cases hSelf : j = i
    · subst hSelf
      rw [hNew u hj]
      exact hOld
    · rw [← hOthers j hSelf]
      exact hj
  exact h.apart j k u (hBefore j hj) (hBefore k hk)

theorem Allotted.register (h : Allotted start past s) {i : ι} {attempt : Nat} {t : TxnId}
    {mvcc : VisibilityManager} {input : ι × TxnAct} (hPhase : s.threads i = .registering attempt t)
    (hBegin : s.mvcc.beginTxn t = .ok mvcc) :
    Allotted start (past ++ [(input, some (TxnEvent.registered t mvcc.snapshot))])
      ({ s with mvcc }.move i (.pinning t mvcc.snapshot)) := by
  obtain ⟨-, -, rfl⟩ := VisibilityManager.beginTxn_eq_ok hBegin
  obtain ⟨hStart, hLt, hNot⟩ := h.registering i attempt t hPhase
  let mvcc : VisibilityManager :=
    { s.mvcc with activeTxns := AList.insert t { beginTs := t } s.mvcc.activeTxns }
  have hOthers (j : ι) (hNe : j ≠ i) :=
    @threads_move_ne _ _ { s with mvcc } i j (.pinning t mvcc.snapshot) hNe
  have hLimit : (past ++ [(input, some (TxnEvent.registered t mvcc.snapshot))]).limit start =
      past.limit start := by
    simp [TxnTrace.limit, TxnTrace.ids_concat, TxnEvent.allocated?]
  have hRegisteredIds : (past ++ [(input, some (TxnEvent.registered t mvcc.snapshot))]).ids
      TxnEvent.registered? = past.ids TxnEvent.registered? ++ [t] := by
    simp [TxnTrace.ids_concat, TxnEvent.registered?]
  have hBegunIds : (past ++ [(input, some (TxnEvent.registered t mvcc.snapshot))]).ids
      TxnEvent.begun? = past.ids TxnEvent.begun? := by
    simp [TxnTrace.ids_concat, TxnEvent.begun?]
  constructor
  · rw [hLimit]
    exact h.counter
  · intro u hu
    rw [hLimit]
    rw [hRegisteredIds] at hu
    rcases List.mem_append.mp hu with hu | hu
    · exact h.registered u hu
    · obtain rfl := List.mem_singleton.mp hu
      exact ⟨hStart, hLt⟩
  · rw [hBegunIds, hRegisteredIds]
    exact fun u hu => List.mem_append_left _ (h.begun u hu)
  · rw [hRegisteredIds]
    exact List.nodup_append.mpr ⟨h.registeredOnce, List.nodup_singleton t, fun u hu v hv => by
      obtain rfl := List.mem_singleton.mp hv
      exact fun hEq => hNot (hEq ▸ hu)⟩
  · rw [hBegunIds]
    exact h.begunOnce
  · intro j attempt' u hThread
    rw [hLimit, hRegisteredIds]
    have hSelf : j ≠ i := by
      rintro rfl
      rw [threads_move_self] at hThread
      cases hThread
    rw [hOthers j hSelf] at hThread
    obtain ⟨hStart', hLt', hNot'⟩ := h.registering j attempt' u hThread
    refine ⟨hStart', hLt', fun hIn => ?_⟩
    rcases List.mem_append.mp hIn with hIn | hIn
    · exact hNot' hIn
    · obtain rfl := List.mem_singleton.mp hIn
      have hFresh : (s.threads j).fresh? = some u := by
        rw [show s.threads j = .registering attempt' u from hThread]
        rfl
      exact hSelf (h.apart j i u hFresh (by rw [hPhase]; rfl))
  · intro j u snap hThread
    rw [hRegisteredIds, hBegunIds]
    by_cases hSelf : j = i
    · subst hSelf
      rw [threads_move_self] at hThread
      cases hThread
      exact ⟨List.mem_append_right _ (List.mem_singleton.mpr rfl), fun hIn => hNot (h.begun t hIn)⟩
    · rw [hOthers j hSelf] at hThread
      obtain ⟨hIn, hNew⟩ := h.pinning j u snap hThread
      exact ⟨List.mem_append_left _ hIn, hNew⟩
  · refine h.fresh_after (t := t) (by rw [hPhase]; rfl) (fun u hu => ?_) hOthers
    rw [threads_move_self] at hu
    exact (Option.some.inj hu).symm
  · intro u hu
    rw [hRegisteredIds]
    rcases (AList.mem_insert _).mp hu with rfl | hu
    · exact List.mem_append_right _ (List.mem_singleton.mpr rfl)
    · exact List.mem_append_left _ (h.active u hu)
  · rw [hLimit]
    exact h.committed

theorem Allotted.pin (h : Allotted start past s) {i : ι} {t : TxnId} {snap : TxnSnapshot}
    {input : ι × TxnAct} (hPhase : s.threads i = .pinning t snap) :
    Allotted start (past ++ [(input, some (TxnEvent.begun t))])
      ({ s with txnSnapshots := AList.insert t snap s.txnSnapshots }.move i .idle) := by
  obtain ⟨hRegistered, hNot⟩ := h.pinning i t snap hPhase
  have hOthers (j : ι) (hNe : j ≠ i) := @threads_move_ne _ _
    { s with txnSnapshots := AList.insert t snap s.txnSnapshots } i j .idle hNe
  have hLimit : (past ++ [(input, some (TxnEvent.begun t))]).limit start = past.limit start := by
    simp [TxnTrace.limit, TxnTrace.ids_concat, TxnEvent.allocated?]
  have hRegisteredIds : (past ++ [(input, some (TxnEvent.begun t))]).ids TxnEvent.registered? =
      past.ids TxnEvent.registered? := by
    simp [TxnTrace.ids_concat, TxnEvent.registered?]
  have hBegunIds : (past ++ [(input, some (TxnEvent.begun t))]).ids TxnEvent.begun? =
      past.ids TxnEvent.begun? ++ [t] := by
    simp [TxnTrace.ids_concat, TxnEvent.begun?]
  constructor
  · rw [hLimit]
    exact h.counter
  · rw [hLimit, hRegisteredIds]
    exact h.registered
  · intro u hu
    rw [hRegisteredIds]
    rw [hBegunIds] at hu
    rcases List.mem_append.mp hu with hu | hu
    · exact h.begun u hu
    · obtain rfl := List.mem_singleton.mp hu
      exact hRegistered
  · rw [hRegisteredIds]
    exact h.registeredOnce
  · rw [hBegunIds]
    exact List.nodup_append.mpr ⟨h.begunOnce, List.nodup_singleton t, fun u hu v hv => by
      obtain rfl := List.mem_singleton.mp hv
      exact fun hEq => hNot (hEq ▸ hu)⟩
  · intro j attempt u hThread
    rw [hLimit, hRegisteredIds]
    have hSelf : j ≠ i := by
      rintro rfl
      rw [threads_move_self] at hThread
      cases hThread
    rw [hOthers j hSelf] at hThread
    exact h.registering j attempt u hThread
  · intro j u snap' hThread
    rw [hRegisteredIds, hBegunIds]
    have hSelf : j ≠ i := by
      rintro rfl
      rw [threads_move_self] at hThread
      cases hThread
    rw [hOthers j hSelf] at hThread
    obtain ⟨hIn, hNew⟩ := h.pinning j u snap' hThread
    refine ⟨hIn, fun hBegun => ?_⟩
    rcases List.mem_append.mp hBegun with hBegun | hBegun
    · exact hNew hBegun
    · obtain rfl := List.mem_singleton.mp hBegun
      have hFresh : (s.threads j).fresh? = some u := by
        rw [show s.threads j = .pinning u snap' from hThread]
        rfl
      exact hSelf (h.apart j i u hFresh (by rw [hPhase]; rfl))
  · refine h.fresh_after (t := t) (by rw [hPhase]; rfl) (fun u hu => ?_) hOthers
    rw [threads_move_self] at hu
    cases hu
  · rw [hRegisteredIds]
    exact h.active
  · rw [hLimit]
    exact h.committed

/-- Only thread `i` moves, and to a phase that holds no new id. -/
theorem threads_move_or (s : TxnSystem ι) (i : ι) {phase : TxnPhase}
    (hPhase : phase.fresh? = none) (j : ι) :
    (s.move i phase).threads j = s.threads j ∨ ((s.move i phase).threads j).fresh? = none := by
  by_cases hSelf : j = i
  · subst hSelf
    rw [threads_move_self]
    exact .inr hPhase
  · exact .inl (threads_move_ne s phase hSelf)

/-- As long as the counter does not come round, every step keeps the ids apart. -/
theorem Allotted.step (h : Allotted start past s) (input : ι × TxnAct)
    (hRoom : (past ++ [(input, (s.step input).1)]).limit start ≤ 2 ^ 64) :
    Allotted start (past ++ [(input, (s.step input).1)]) (s.step input).2 := by
  have hChange := @step_change ι _ s input
  generalize (s.step input).1 = event at hChange hRoom
  generalize (s.step input).2 = s' at hChange
  cases hChange with
  | stay => exact h.keep rfl rfl rfl rfl (fun _ => .inl rfl) (fun _ ht => ht) h.committed
  | missed txnId => exact h.keep rfl rfl rfl rfl (fun _ => .inl rfl) (fun _ ht => ht) h.committed
  | called => exact h.keep rfl rfl rfl rfl (threads_move_or s _ rfl) (fun _ ht => ht) h.committed
  | counted => exact h.keep rfl rfl rfl rfl (threads_move_or s _ rfl) (fun _ ht => ht) h.committed
  | overflowed => exact h.keep rfl rfl rfl rfl (threads_move_or s _ rfl) (fun _ ht => ht) h.committed
  | allocated => exact h.allocate _ _ hRoom
  | registered hPhase hBegin => exact h.register hPhase hBegin
  | retried => exact h.keep rfl rfl rfl rfl (threads_move_or s _ rfl) (fun _ ht => ht) h.committed
  | overtaken => exact h.keep rfl rfl rfl rfl (threads_move_or s _ rfl) (fun _ ht => ht) h.committed
  | refused => exact h.keep rfl rfl rfl rfl (threads_move_or s _ rfl) (fun _ ht => ht) h.committed
  | pinned hPhase => exact h.pin hPhase
  | read => exact h.keep rfl rfl rfl rfl (threads_move_or s _ rfl) (fun _ ht => ht) h.committed
  | ends => exact h.keep rfl rfl rfl rfl (threads_move_or s _ rfl) (fun _ ht => ht) h.committed
  | plain hFrom hTo hEnds hMvcc hEvent =>
      have hSame : event.bind TxnEvent.allocated? = none ∧ event.bind TxnEvent.registered? = none ∧
          event.bind TxnEvent.begun? = none := by
        rcases hEvent with rfl | ⟨t, rfl⟩
        · exact ⟨rfl, rfl, rfl⟩
        · exact ⟨rfl, rfl, rfl⟩
      refine h.keep hSame.1 hSame.2.1 hSame.2.2 rfl (threads_move_or _ _ hTo.not_fresh) ?_ ?_
      · rcases hMvcc with rfl | ⟨t, f, rfl⟩
        · exact fun t ht => ht
        · exact fun u hu => VisibilityManager.mem_modifyActive.mp hu
      · rcases hMvcc with rfl | ⟨t, f, rfl⟩
        · exact h.committed
        · exact lt_of_eq_of_lt (VisibilityManager.modifyActive_committedTxn s.mvcc t f) h.committed
  | @entered t mvcc order insertedAt ts nowMs hPhase hActive hMvcc =>
      refine h.keep rfl rfl rfl rfl (threads_move_or _ _ rfl) (fun u (hu : u ∈ mvcc.activeTxns) => ?_)
        (show mvcc.committedTxn < _ from ?_)
      · rw [hMvcc, VisibilityManager.committed_activeTxns] at hu
        exact (AList.mem_erase.mp hu).2
      · rw [hMvcc, VisibilityManager.committed_committedTxn]
        exact max_lt h.committed (h.registered _ (h.active _ hActive)).2
  | aborted =>
      exact h.keep rfl rfl rfl rfl (threads_move_or _ _ rfl) (fun t ht => (AList.mem_erase.mp ht).2)
        h.committed
  | unpinned hPhase hEvent =>
      rcases hEvent with rfl | rfl
      · exact h.keep rfl rfl rfl rfl (threads_move_or _ _ rfl) (fun _ ht => ht) h.committed
      · exact h.keep rfl rfl rfl rfl (threads_move_or _ _ rfl) (fun _ ht => ht) h.committed

/-- A thread that goes to a phase outside the attempts of a begin. -/
theorem Outrun.leave (h : Outrun past s) {i : ι} {phase : TxnPhase} {s₂ : TxnSystem ι}
    {input : ι × TxnAct} {event : Option TxnEvent} (hThreads : s₂.threads = s.threads)
    (hPhase : ¬ phase.Attempting) (hEvent : event ≠ some TxnEvent.called)
    (hCommitted : s₂.mvcc.committedTxn = s.mvcc.committedTxn ∨ ∃ t, event = some (.entered t)) :
    Outrun (past ++ [(input, event)]) (s₂.move i phase) := by
  have hOther {j : ι} (hj : ((s₂.move i phase).threads j).Attempting) :
      (s₂.move i phase).threads j = s.threads j := by
    by_cases hSelf : j = i
    · subst hSelf
      rw [threads_move_self] at hj
      exact absurd hj hPhase
    · rw [threads_move_ne s₂ phase hSelf, hThreads]
  refine h.keep hEvent (fun j attempt hj => ?_) (fun j attempt t hj => ?_) hCommitted
  · rw [← hOther (by rcases hj with hj | hj <;> rw [hj] <;> trivial)]
    exact hj
  · rw [← hOther (by rw [hj]; trivial)]
    exact hj

/-- A thread whose begin goes on to its next attempt or its next step. -/
theorem Outrun.attempt (h : Outrun past s) {i : ι} {phase : TxnPhase} {s₂ : TxnSystem ι}
    {input : ι × TxnAct} {event : Option TxnEvent} (hThreads : s₂.threads = s.threads)
    (hMvcc : s₂.mvcc = s.mvcc) (hInput : input.1 = i)
    (hCounting : ∀ attempt, phase = .counting attempt ∨ phase = .allocating attempt →
      (past ++ [(input, event)]).Since i attempt)
    (hRegistering : ∀ attempt t, phase = .registering attempt t →
      (past ++ [(input, event)]).Since i attempt ∧ s.mvcc.committedTxn < t) :
    Outrun (past ++ [(input, event)]) (s₂.move i phase) := by
  have hNoCall {j : ι} (hNe : j ≠ i) (hj : input.1 = j) : event ≠ some TxnEvent.called :=
    absurd (hj.symm.trans hInput) hNe
  constructor
  · intro j attempt hj
    by_cases hSelf : j = i
    · subst hSelf
      rw [threads_move_self] at hj
      exact hCounting attempt hj
    · rw [threads_move_ne s₂ phase hSelf, hThreads] at hj
      exact ((h.counting j attempt hj).concat (hNoCall hSelf)).le (Nat.le_add_right _ _)
  · intro j attempt t hj
    by_cases hSelf : j = i
    · subst hSelf
      rw [threads_move_self] at hj
      obtain ⟨hSince, hNew⟩ := hRegistering attempt t hj
      refine ⟨hSince, fun hLe => absurd hLe (Nat.not_le.mpr ?_)⟩
      show s₂.mvcc.committedTxn < t
      rw [hMvcc]
      exact hNew
    · rw [threads_move_ne s₂ phase hSelf, hThreads] at hj
      obtain ⟨hSince, hOvertaken⟩ := h.registering j attempt t hj
      refine ⟨(hSince.concat (hNoCall hSelf)).le (Nat.le_add_right _ _), fun hLe => ?_⟩
      have hLe' : t ≤ s₂.mvcc.committedTxn := hLe
      rw [hMvcc] at hLe'
      exact ((hOvertaken hLe').concat (hNoCall hSelf)).le (Nat.le_add_right _ _)

theorem Outrun.step (h : Outrun past s) (hAllotted : Allotted start past s) (input : ι × TxnAct)
    (hRoom : (past ++ [(input, (s.step input).1)]).limit start ≤ 2 ^ 64) :
    Outrun (past ++ [(input, (s.step input).1)]) (s.step input).2 := by
  have hChange := @step_change ι _ s input
  generalize (s.step input).1 = event at hChange hRoom
  generalize (s.step input).2 = s' at hChange
  cases hChange with
  | stay => exact h.keep nofun (fun _ _ hj => hj) (fun _ _ _ hj => hj) (.inl rfl)
  | missed txnId => exact h.keep nofun (fun _ _ hj => hj) (fun _ _ _ hj => hj) (.inl rfl)
  | called =>
      refine h.attempt rfl rfl rfl ?_ nofun
      rintro attempt (hPhase | hPhase)
      · cases hPhase
        exact past.since_called input.1 input.2
      · cases hPhase
  | counted hPhase =>
      refine h.attempt rfl rfl rfl ?_ nofun
      rintro attempt (hNew | hNew)
      · cases hNew
      · cases hNew
        exact (h.counting _ _ (.inl hPhase)).concat nofun
  | overflowed => exact h.leave rfl id nofun (.inl rfl)
  | @allocated attempt hPhase =>
      have hNew : s.txnCounter = past.limit start := hAllotted.counter_eq hRoom
      refine h.attempt rfl rfl rfl nofun ?_
      intro attempt' t hSame
      cases hSame
      have hNoCall : some (TxnEvent.allocated s.txnCounter) ≠ some .called := nofun
      refine ⟨(h.counting _ _ (.inr hPhase)).concat fun _ => hNoCall, ?_⟩
      rw [hNew]
      exact hAllotted.committed
  | @registered attempt t mvcc hPhase hBegin =>
      obtain ⟨-, -, rfl⟩ := VisibilityManager.beginTxn_eq_ok hBegin
      exact h.leave rfl id nofun (.inl rfl)
  | retried hPhase hPassed =>
      refine h.attempt rfl rfl rfl ?_ nofun
      rintro attempt (hNew | hNew)
      · cases hNew
        exact ((h.registering _ _ _ hPhase).2 hPassed).concat nofun
      · cases hNew
  | overtaken => exact h.leave rfl id nofun (.inl rfl)
  | refused => exact h.leave rfl id nofun (.inl rfl)
  | pinned => exact h.leave rfl id nofun (.inl rfl)
  | read => exact h.leave rfl id nofun (.inl rfl)
  | ends => exact h.leave rfl id nofun (.inl rfl)
  | plain hFrom hTo hEnds hMvcc hEvent =>
      refine h.leave rfl hTo.not_attempting ?_ (.inl ?_)
      · rcases hEvent with rfl | ⟨t, rfl⟩ <;> nofun
      · rcases hMvcc with rfl | ⟨t, f, rfl⟩
        · rfl
        · exact VisibilityManager.modifyActive_committedTxn s.mvcc t f
  | entered => exact h.leave rfl id nofun (.inr ⟨_, rfl⟩)
  | aborted => exact h.leave rfl id nofun (.inl rfl)
  | unpinned hPhase hEvent =>
      refine h.leave rfl id ?_ (.inl rfl)
      rcases hEvent with rfl | rfl <;> nofun

/-- A run of the threads after an open. -/
def run (mvcc : VisibilityManager) (acts : List (ι × TxnAct)) : TxnTrace ι × TxnSystem ι :=
  runs step (opened mvcc) acts

/-- Both hold at the end of every run in which the counter does not come round. -/
theorem allotted_run {mvcc : VisibilityManager} (hIdle : mvcc.activeTxns = ∅)
    (hLast : mvcc.committedTxn < u64Max) (acts : List (ι × TxnAct)) :
    (run mvcc acts).1.limit (mvcc.committedTxn + 1) ≤ 2 ^ 64 →
      Allotted (mvcc.committedTxn + 1) (run mvcc acts).1 (run mvcc acts).2 ∧
        Outrun (run mvcc acts).1 (run mvcc acts).2 := by
  have hStart : Outrun [] (opened mvcc : TxnSystem ι) := by
    refine ⟨fun i attempt hPhase => ?_, nofun⟩
    rcases hPhase with hPhase | hPhase <;> cases hPhase
  refine runs_invariant (fun (past : TxnTrace ι) s => past.limit (mvcc.committedTxn + 1) ≤ 2 ^ 64 →
    Allotted (mvcc.committedTxn + 1) past s ∧ Outrun past s) (fun _ _ _ => True) ?_
      (fun _ => ⟨allotted_opened hIdle hLast, hStart⟩) (EachMeets.of_forall fun _ _ => trivial)
  intro past s input hHere _ hRoom
  obtain ⟨hAllotted, hOutrun⟩ := hHere ((TxnTrace.limit_mono _ past _).trans hRoom)
  exact ⟨hAllotted.step input hRoom, hOutrun.step hAllotted input hRoom⟩

end

end TxnSystem

/-- Whatever other threads begin, commit and roll back in between: as long as the counter has
ids left, no two begins return the same id, every id is above those committed before the
open, and no begin finds its id taken. -/
theorem begun_ids_distinct {ι : Type} [DecidableEq ι] {mvcc : VisibilityManager}
    (hIdle : mvcc.activeTxns = ∅) (hLast : mvcc.committedTxn < u64Max) (acts : List (ι × TxnAct)) :
    let run := TxnSystem.run mvcc acts
    run.1.limit (mvcc.committedTxn + 1) ≤ 2 ^ 64 →
      (run.1.ids TxnEvent.begun?).Nodup ∧ (∀ t ∈ run.1.ids TxnEvent.begun?, mvcc.committedTxn < t) ∧
      ∀ input t, (run.2.step input).1 ≠ some (TxnEvent.alreadyActive t) := by
  intro run hRoom
  obtain ⟨h, -⟩ := TxnSystem.allotted_run hIdle hLast acts hRoom
  refine ⟨h.begunOnce, fun t ht => (h.registered t (h.begun t ht)).1, fun input t hTaken => ?_⟩
  have hChange := @TxnSystem.step_change ι _ run.2 input
  rw [hTaken] at hChange
  generalize (run.2.step input).2 = s' at hChange
  cases hChange with
  | refused hPhase hActive => exact (h.registering _ _ _ hPhase).2.2 (h.active t hActive)
  | plain hFrom hTo hEnds hMvcc hEvent =>
      rcases hEvent with hEvent | ⟨u, hEvent⟩ <;> cases hEvent
  | unpinned hPhase hEvent =>
      rcases hEvent with hEvent | hEvent <;> cases hEvent

/-- Two begins, the second of which allocates first. -/
theorem begun_ids_distinct_two :
    let acts : List (Fin 2 × TxnAct) := [(0, .begin), (1, .begin), (1, .next {}), (0, .next {}),
      (1, .next {}), (0, .next {}), (0, .next {}), (0, .next {}), (1, .next {}), (1, .next {})]
    let run := TxnSystem.run (.newWithConfig {}) acts
    run.1.ids TxnEvent.begun? = [2, 1] ∧ (run.1.ids TxnEvent.begun?).Nodup := by
  intro acts run
  have hRoom : run.1.limit 1 ≤ 2 ^ 64 := by decide +kernel
  exact ⟨by decide +kernel,
    (@begun_ids_distinct (Fin 2) _ (.newWithConfig {}) rfl (by decide) acts hRoom).1⟩

/-- A begin that gives up because its ids were overtaken has seen sixteen commits go through
since it was called. -/
theorem begin_outrun_by_commits {ι : Type} [DecidableEq ι] {mvcc : VisibilityManager}
    (hIdle : mvcc.activeTxns = ∅) (hLast : mvcc.committedTxn < u64Max) (acts : List (ι × TxnAct))
    (input : ι × TxnAct) :
    let run := TxnSystem.run mvcc acts
    run.1.limit (mvcc.committedTxn + 1) ≤ 2 ^ 64 → (run.2.step input).1 = some TxnEvent.overtaken →
      run.1.Since input.1 16 := by
  intro run hRoom hGaveUp
  obtain ⟨-, hOutrun⟩ := TxnSystem.allotted_run hIdle hLast acts hRoom
  have hChange := @TxnSystem.step_change ι _ run.2 input
  rw [hGaveUp] at hChange
  generalize (run.2.step input).2 = s' at hChange
  cases hChange with
  | overtaken hPhase hPassed hLast =>
      exact ((hOutrun.registering _ _ _ hPhase).2 hPassed).le hLast
  | plain hFrom hTo hEnds hMvcc hEvent =>
      rcases hEvent with hEvent | ⟨u, hEvent⟩ <;> cases hEvent
  | unpinned hPhase hEvent =>
      rcases hEvent with hEvent | hEvent <;> cases hEvent

/-- Thread 0 allocates an id, thread 1 begins and commits with the next one, and thread 0 comes
too late. -/
def overtakeOnce (txnId : TxnId) : List (Fin 2 × TxnAct) :=
  [(0, .next {}), (0, .next {}), (1, .begin)] ++ List.replicate 4 (1, .next {}) ++
    [(1, .commit txnId)] ++ List.replicate 3 (1, .next {}) ++ [(0, .next {})]

set_option maxRecDepth 20000 in
theorem begin_outrun_by_commits_sixteen :
    let acts : List (Fin 2 × TxnAct) :=
      (0, .begin) :: ((List.range 16).flatMap fun n => overtakeOnce (2 * n + 2)).dropLast
    (TxnSystem.run (.newWithConfig {}) acts).1.Since 0 16 := by
  intro acts
  have hRoom : (TxnSystem.run (.newWithConfig {}) acts).1.limit 1 ≤ 2 ^ 64 := by decide +kernel
  have hGaveUp : ((TxnSystem.run (.newWithConfig {}) acts).2.step (0, .next {})).1 =
      some TxnEvent.overtaken := by rfl
  exact @begin_outrun_by_commits (Fin 2) _ (.newWithConfig {}) rfl (by decide) acts (0, .next {}) hRoom
    hGaveUp

end Z1Kv
