import Z1Kv.Txn.Journal
import Z1Kv.Txn.Reopen
import Z1Kv.Wal.Upkeep

/-! The account of one transaction: what the journal says of it against what
recovery would make of the log. Each event of the transaction keeps the account
balanced; so do the events of other transactions, a checkpoint marker, and the
deletion of records that are no longer needed. -/
namespace Z1Kv

/-- The Put record of a version. -/
def Z1Entry.logged (e : Z1Entry) : WalEntry := ⟨e.txnId, .put e.key.cf e.key.key e.value⟩

theorem version?_eq_some {op : WalEntry} {e : Z1Entry} :
    op.version? = some e ↔ op = e.logged := by
  obtain ⟨txnId, record⟩ := op
  obtain ⟨⟨cf, key⟩, t, value⟩ := e
  cases record <;> simp [WalEntry.version?, Z1Entry.logged]
  tauto

@[simp] theorem version?_logged (e : Z1Entry) : e.logged.version? = some e :=
  version?_eq_some.mpr rfl

/-- The writes of a transaction, in their order. -/
def writesOf (j : List News) (t : TxnId) : List Z1Entry :=
  j.filterMap fun n =>
    match n with
    | .wrote e => if e.txnId = t then some e else none
    | _ => none

theorem mem_writesOf {j : List News} {t : TxnId} {e : Z1Entry} :
    e ∈ writesOf j t ↔ .wrote e ∈ j ∧ e.txnId = t := by
  unfold writesOf
  rw [List.mem_filterMap]
  constructor
  · rintro ⟨n, hn, hEq⟩
    cases n with
    | wrote w =>
        dsimp only at hEq
        split at hEq
        · next hTxn =>
          obtain rfl := Option.some.inj hEq
          exact ⟨hn, hTxn⟩
        · cases hEq
    | _ => cases hEq
  · rintro ⟨hIn, rfl⟩
    exact ⟨.wrote e, hIn, by simp⟩

theorem writesOf_ne_nil {j : List News} {t : TxnId} :
    writesOf j t ≠ [] ↔ ∃ e, .wrote e ∈ j ∧ e.txnId = t := by
  constructor
  · intro hNe
    obtain ⟨e, he⟩ := List.exists_mem_of_ne_nil _ hNe
    exact ⟨e, mem_writesOf.mp he⟩
  · rintro ⟨e, he⟩
    exact List.ne_nil_of_mem (mem_writesOf.mpr he)

/-- News about a transaction. -/
def News.About (t : TxnId) : News → Prop
  | .began u => u = t
  | .wrote e => e.txnId = t
  | .committed u => u = t
  | .other => False

theorem writesOf_concat {j : List News} {n : News} {t : TxnId} :
    writesOf (j ++ [n]) t =
      match n with
      | .wrote e => if e.txnId = t then writesOf j t ++ [e] else writesOf j t
      | _ => writesOf j t := by
  unfold writesOf
  rw [List.filterMap_append]
  cases n with
  | wrote e =>
      dsimp only
      split
      · next hTxn => simp [hTxn]
      · next hTxn => simp [hTxn]
  | _ => simp

/-- Records that recovery counts for a transaction. -/
def WalEntry.About (t : TxnId) (op : WalEntry) : Prop :=
  op.txnId = t ∧ ∀ id, op.record ≠ .checkpoint id

theorem livePuts_append_of_nil {t : TxnId} {old rest : List WalEntry} (h : livePuts t old = []) :
    livePuts t (old ++ rest) = livePuts t rest := by
  unfold livePuts at h ⊢
  rw [List.foldl_append, h]

/-- Older records can only add live Put records in front. -/
theorem livePuts_suffix (t : TxnId) (old rest : List WalEntry) :
    livePuts t rest <:+ livePuts t (old ++ rest) := by
  induction rest using List.reverseRecOn with
  | nil => exact List.nil_suffix
  | append_singleton rest op ih =>
      rw [← List.append_assoc, livePuts_concat, livePuts_concat]
      split
      · split
        · obtain ⟨front, hFront⟩ := ih
          exact ⟨front, by rw [← hFront, List.append_assoc]⟩
        · exact List.nil_suffix
        · exact ih
      · exact ih

theorem livePuts_eq_nil {t : TxnId} {entries : List WalEntry}
    (h : ∀ e : Z1Entry, e.txnId = t → e.logged ∉ entries) : livePuts t entries = [] := by
  rw [List.eq_nil_iff_forall_not_mem]
  intro op hOp
  obtain ⟨hIn, hTxn, cf, key, value, hRecord⟩ := mem_livePuts hOp
  refine h ⟨⟨cf, key⟩, t, value⟩ rfl ?_
  have hEq : (⟨⟨cf, key⟩, t, value⟩ : Z1Entry).logged = op := by
    rw [← hTxn]
    unfold Z1Entry.logged
    rw [← hRecord]
  rwa [hEq]

theorem livePuts_frame {t : TxnId} {entries : List WalEntry} {op : WalEntry} (h : ¬ op.About t) :
    livePuts t (entries ++ [op]) = livePuts t entries := by
  rw [livePuts_concat]
  split
  · next hTxn =>
    split
    · next hRecord => exact absurd ⟨hTxn, by simp [hRecord]⟩ h
    · next hRecord => exact absurd ⟨hTxn, by simp [hRecord]⟩ h
    · rfl
  · rfl

theorem hasCommit_append {old rest : List WalEntry} {t : TxnId} :
    HasCommit (old ++ rest) t ↔ HasCommit old t ∨ HasCommit rest t := by
  unfold HasCommit
  simp only [List.mem_append]
  constructor
  · rintro ⟨ts, at', h | h⟩
    · exact Or.inl ⟨ts, at', h⟩
    · exact Or.inr ⟨ts, at', h⟩
  · rintro (⟨ts, at', h⟩ | ⟨ts, at', h⟩)
    · exact ⟨ts, at', Or.inl h⟩
    · exact ⟨ts, at', Or.inr h⟩

theorem hasCommit_frame {t : TxnId} {entries : List WalEntry} {op : WalEntry} (h : ¬ op.About t) :
    HasCommit (entries ++ [op]) t ↔ HasCommit entries t := by
  rw [hasCommit_append]
  refine or_iff_left ?_
  rintro ⟨ts, at', hIn⟩
  obtain rfl := List.mem_singleton.mp hIn
  exact h ⟨rfl, by simp⟩

/-- What the journal says of a transaction agrees with its records in the log.
An active transaction has all its Put records there; one in the middle of its
commit has the Commit record too. A committed one has all of them, unless it is
safe without. -/
structure Balanced (j : List News) (entries : List WalEntry) (t : TxnId)
    (active ending safe : Prop) : Prop where
  known : HasCommit entries t → .began t ∈ j
  wrote : ∀ e, e.txnId = t → e.logged ∈ entries → .wrote e ∈ j
  early : active → ¬ safe
  fresh : active → ¬ ending → ¬ HasCommit entries t
  closing : ending → active ∧ (writesOf j t = [] ∨ HasCommit entries t)
  pending : active → livePuts t entries = (writesOf j t).map Z1Entry.logged
  replayed : Replayed entries t → .committed t ∈ j ∨ ending
  kept : .committed t ∈ j → writesOf j t = [] ∨ safe ∨
    HasCommit entries t ∧ livePuts t entries = (writesOf j t).map Z1Entry.logged
  tail : .committed t ∈ j → livePuts t entries <:+ (writesOf j t).map Z1Entry.logged

namespace Balanced
variable {j : List News} {entries : List WalEntry} {t : TxnId} {active ending safe : Prop}

/-- Before its begin a transaction has no records. -/
theorem of_unknown (hCommitted : .committed t ∉ j)
    (hRecords : ∀ op ∈ entries, ¬ op.About t) : Balanced j entries t False False safe := by
  have hNoCommit : ¬ HasCommit entries t := by
    rintro ⟨ts, at', hIn⟩
    exact hRecords _ hIn ⟨rfl, by simp⟩
  refine ⟨fun h => absurd h hNoCommit, ?_, False.elim, False.elim, False.elim, False.elim,
    fun h => absurd h.1 hNoCommit, fun h => absurd h hCommitted, fun h => absurd h hCommitted⟩
  intro e hTxn hIn
  exact absurd ⟨hTxn, by simp [Z1Entry.logged]⟩ (hRecords _ hIn)

variable (h : Balanced j entries t active ending safe)
include h

/-- News and records of others. -/
theorem news {n : News} (hNews : ¬ n.About t) : Balanced (j ++ [n]) entries t active ending safe := by
  have hWrites : writesOf (j ++ [n]) t = writesOf j t := by
    rw [writesOf_concat]
    cases n with
    | wrote e => exact if_neg hNews
    | _ => rfl
  have hIn : ∀ m : News, m.About t → (m ∈ j ++ [n] ↔ m ∈ j) := by
    intro m hm
    rw [List.mem_append, List.mem_singleton]
    refine or_iff_left ?_
    rintro rfl
    exact hNews hm
  have hCommitted := hIn (.committed t) rfl
  refine ⟨?_, ?_, h.early, h.fresh, ?_, ?_, ?_, ?_, ?_⟩
  · exact fun hc => (hIn (.began t) rfl).mpr (h.known hc)
  · exact fun e hTxn hLogged => (hIn (.wrote e) hTxn).mpr (h.wrote e hTxn hLogged)
  · rw [hWrites]
    exact h.closing
  · rw [hWrites]
    exact h.pending
  · rw [hCommitted]
    exact h.replayed
  · rw [hCommitted, hWrites]
    exact h.kept
  · rw [hCommitted, hWrites]
    exact h.tail

theorem record {op : WalEntry} (hOp : ¬ op.About t) :
    Balanced j (entries ++ [op]) t active ending safe := by
  have hCommit := @hasCommit_frame t entries op hOp
  have hPuts := @livePuts_frame t entries op hOp
  refine ⟨?_, ?_, h.early, ?_, ?_, ?_, ?_, ?_, ?_⟩
  · rw [hCommit]
    exact h.known
  · intro e hTxn hIn
    rcases List.mem_append.mp hIn with hIn | hIn
    · exact h.wrote e hTxn hIn
    · rw [← List.mem_singleton.mp hIn] at hOp
      exact absurd ⟨hTxn, by simp [Z1Entry.logged]⟩ hOp
  · rw [hCommit]
    exact h.fresh
  · rw [hCommit]
    exact h.closing
  · rw [hPuts]
    exact h.pending
  · rw [Replayed, hCommit, hPuts]
    exact h.replayed
  · rw [hCommit, hPuts]
    exact h.kept
  · rw [hPuts]
    exact h.tail

/-- Old records may go once no transaction needs them. -/
theorem truncate {old rest : List WalEntry} (hLog : entries = old ++ rest)
    (hOld : active ∨ .committed t ∈ j → writesOf j t ≠ [] → ¬ safe →
      ∀ op ∈ old, op.About t → op.record = .rollback) :
    Balanced j rest t active ending safe := by
  subst hLog
  have hSuffix := livePuts_suffix t old rest
  -- a transaction in need of its records has none among the old ones
  have hNeeds : active ∨ .committed t ∈ j → writesOf j t ≠ [] → ¬ safe →
      (HasCommit (old ++ rest) t → HasCommit rest t) ∧ livePuts t (old ++ rest) = livePuts t rest := by
    intro hStanding hWrites hSafe
    have hNone := hOld hStanding hWrites hSafe
    constructor
    · intro hCommit
      refine (hasCommit_append.mp hCommit).resolve_left ?_
      rintro ⟨ts, at', hIn⟩
      cases hNone _ hIn ⟨rfl, by simp⟩
    · refine livePuts_append_of_nil (livePuts_eq_nil fun e hTxn hIn => ?_)
      cases hNone _ hIn ⟨hTxn, by simp [Z1Entry.logged]⟩
  refine ⟨fun hc => h.known (hasCommit_append.mpr (Or.inr hc)), ?_, h.early, ?_, ?_, ?_, ?_, ?_, ?_⟩
  · exact fun e hTxn hIn => h.wrote e hTxn (List.mem_append_right _ hIn)
  · exact fun hActive hEnding hc => h.fresh hActive hEnding (hasCommit_append.mpr (Or.inr hc))
  · intro hEnding
    obtain ⟨hActive, hRecord⟩ := h.closing hEnding
    refine ⟨hActive, ?_⟩
    by_cases hWrites : writesOf j t = []
    · exact Or.inl hWrites
    · exact Or.inr ((hNeeds (Or.inl hActive) hWrites (h.early hActive)).1
        (hRecord.resolve_left hWrites))
  · intro hActive
    by_cases hWrites : writesOf j t = []
    · have hAll := h.pending hActive
      rw [hWrites] at hAll ⊢
      rw [hAll] at hSuffix
      exact List.suffix_nil.mp hSuffix
    · rw [← (hNeeds (Or.inl hActive) hWrites (h.early hActive)).2]
      exact h.pending hActive
  · rintro ⟨hCommit, hPuts⟩
    refine h.replayed ⟨hasCommit_append.mpr (Or.inr hCommit), fun hAll => hPuts ?_⟩
    rw [hAll] at hSuffix
    exact List.suffix_nil.mp hSuffix
  · intro hCommitted
    by_cases hWrites : writesOf j t = []
    · exact Or.inl hWrites
    · by_cases hSafe : safe
      · exact Or.inr (Or.inl hSafe)
      · obtain ⟨hCommit, hPuts⟩ := ((h.kept hCommitted).resolve_left hWrites).resolve_left hSafe
        obtain ⟨hCommit', hPuts'⟩ := hNeeds (Or.inr hCommitted) hWrites hSafe
        exact Or.inr (Or.inr ⟨hCommit' hCommit, by rw [← hPuts']; exact hPuts⟩)
  · exact fun hCommitted => hSuffix.trans (h.tail hCommitted)

/-- Being safe may end for a transaction that has all its records. -/
theorem rebase {safe' : Prop} (hEarly : active → ¬ safe')
    (hSafe : .committed t ∈ j → writesOf j t ≠ [] → safe → safe' ∨
      HasCommit entries t ∧ livePuts t entries = (writesOf j t).map Z1Entry.logged) :
    Balanced j entries t active ending safe' := by
  refine ⟨h.known, h.wrote, hEarly, h.fresh, h.closing, h.pending, h.replayed, ?_, h.tail⟩
  intro hCommitted
  by_cases hWrites : writesOf j t = []
  · exact Or.inl hWrites
  · rcases (h.kept hCommitted).resolve_left hWrites with hOld | hWhole
    · exact Or.inr (hSafe hCommitted hWrites hOld)
    · exact Or.inr (Or.inr hWhole)

theorem begin (hBegan : .began t ∉ j) (hWriters : ∀ e, .wrote e ∈ j → .began e.txnId ∈ j)
    (hCommitted : .committed t ∉ j) (hSafe : ¬ safe) :
    Balanced (j ++ [.began t]) entries t True False safe := by
  have hNoWrite : ∀ e, e.txnId = t → .wrote e ∉ j := by
    rintro e rfl hIn
    exact hBegan (hWriters e hIn)
  have hWrites : writesOf (j ++ [.began t]) t = [] := by
    rw [writesOf_concat, List.eq_nil_iff_forall_not_mem]
    intro e he
    exact hNoWrite e (mem_writesOf.mp he).2 (mem_writesOf.mp he).1
  have hNoCommit : ¬ HasCommit entries t := fun hc => hBegan (h.known hc)
  have hNot : .committed t ∉ j ++ [News.began t] := by simpa using hCommitted
  refine ⟨fun _ => by simp, fun e hTxn hIn => absurd (h.wrote e hTxn hIn) (hNoWrite e hTxn),
    fun _ => hSafe, fun _ _ => hNoCommit, False.elim, ?_, fun hr => absurd hr.1 hNoCommit,
    fun hc => absurd hc hNot, fun hc => absurd hc hNot⟩
  intro _
  rw [hWrites]
  exact livePuts_eq_nil fun e hTxn hIn => hNoWrite e hTxn (h.wrote e hTxn hIn)

theorem write {e : Z1Entry} (hTxn : e.txnId = t) (hActive : active) (hEnding : ¬ ending)
    (hCommitted : .committed t ∉ j) :
    Balanced (j ++ [.wrote e]) (entries ++ [e.logged]) t active ending safe := by
  have hCommit : ¬ HasCommit (entries ++ [e.logged]) t := by
    rw [hasCommit_append]
    rintro (hc | ⟨ts, at', hIn⟩)
    · exact h.fresh hActive hEnding hc
    · simp [Z1Entry.logged] at hIn
  have hNot : .committed t ∉ j ++ [News.wrote e] := by simpa using hCommitted
  refine ⟨fun hc => absurd hc hCommit, ?_, h.early, fun _ _ => hCommit,
    fun hIn => absurd hIn hEnding, ?_, fun hr => absurd hr.1 hCommit, fun hc => absurd hc hNot,
    fun hc => absurd hc hNot⟩
  · intro e' hTxn' hIn
    rcases List.mem_append.mp hIn with hIn | hIn
    · exact List.mem_append_left _ (h.wrote e' hTxn' hIn)
    · have hSame : e'.logged = e.logged := List.mem_singleton.mp hIn
      have hVersion := version?_logged e'
      rw [hSame, version?_logged] at hVersion
      obtain rfl := Option.some.inj hVersion
      simp
  · intro _
    have hWrites : writesOf (j ++ [.wrote e]) t = writesOf j t ++ [e] := by
      rw [writesOf_concat]
      exact if_pos hTxn
    rw [livePuts_concat, if_pos (show e.logged.txnId = t from hTxn), hWrites, h.pending hActive,
      List.map_append]
    rfl

theorem logCommit {commitTs insertedAt : Nat} (hActive : active) (hBegan : .began t ∈ j)
    (hCommitted : .committed t ∉ j) :
    Balanced j (entries ++ [⟨t, .commit commitTs insertedAt⟩]) t active True safe := by
  have hPuts : livePuts t (entries ++ [⟨t, .commit commitTs insertedAt⟩]) = livePuts t entries := by
    rw [livePuts_concat, if_pos rfl]
  have hCommit : HasCommit (entries ++ [⟨t, .commit commitTs insertedAt⟩]) t :=
    ⟨commitTs, insertedAt, by simp⟩
  refine ⟨fun _ => hBegan, ?_, h.early, fun _ hNot => absurd trivial hNot,
    fun _ => ⟨hActive, Or.inr hCommit⟩, ?_, fun _ => Or.inr trivial,
    fun hc => absurd hc hCommitted, fun hc => absurd hc hCommitted⟩
  · intro e hTxn hIn
    rcases List.mem_append.mp hIn with hIn | hIn
    · exact h.wrote e hTxn hIn
    · simp [Z1Entry.logged] at hIn
  · intro _
    rw [hPuts]
    exact h.pending hActive

theorem commit (hEnding : ending) :
    Balanced (j ++ [.committed t]) entries t False False safe := by
  obtain ⟨hActive, hRecord⟩ := h.closing hEnding
  have hWrites : writesOf (j ++ [.committed t]) t = writesOf j t := by rw [writesOf_concat]
  have hPuts := h.pending hActive
  refine ⟨fun hc => by simp [h.known hc], fun e hTxn hIn => by simp [h.wrote e hTxn hIn], False.elim,
    False.elim, False.elim, False.elim, fun _ => Or.inl (by simp), ?_, ?_⟩
  · intro _
    rw [hWrites]
    exact hRecord.imp_right fun hCommit => Or.inr ⟨hCommit, hPuts⟩
  · intro _
    rw [hWrites]
    exact hPuts ▸ List.suffix_rfl

/-- A transaction without writes may end in any way. -/
theorem abort (hActive : active) (hCommitted : .committed t ∉ j) (hWrites : writesOf j t = []) :
    Balanced j entries t False False safe := by
  refine ⟨h.known, h.wrote, False.elim, False.elim, False.elim, False.elim, ?_,
    fun hc => absurd hc hCommitted, fun hc => absurd hc hCommitted⟩
  rintro ⟨-, hPuts⟩
  rw [h.pending hActive, hWrites] at hPuts
  exact absurd rfl hPuts

theorem rollback (hCommitted : .committed t ∉ j) :
    Balanced j (entries ++ [⟨t, .rollback⟩]) t False False safe := by
  have hPuts : livePuts t (entries ++ [⟨t, .rollback⟩]) = [] := by
    rw [livePuts_concat, if_pos rfl]
  have hCommit : HasCommit (entries ++ [⟨t, .rollback⟩]) t → HasCommit entries t := by
    intro hc
    refine (hasCommit_append.mp hc).resolve_right ?_
    rintro ⟨ts, at', hIn⟩
    simp at hIn
  refine ⟨fun hc => h.known (hCommit hc), ?_, False.elim, False.elim, False.elim, False.elim,
    fun hr => absurd hPuts hr.2, fun hc => absurd hc hCommitted, fun hc => absurd hc hCommitted⟩
  intro e hTxn hIn
  rcases List.mem_append.mp hIn with hIn | hIn
  · exact h.wrote e hTxn hIn
  · simp [Z1Entry.logged] at hIn

theorem congr {active' ending' : Prop} (hActive : active ↔ active') (hEnding : ending ↔ ending') :
    Balanced j entries t active' ending' safe := by
  rwa [← propext hActive, ← propext hEnding]

end Balanced

/-- All accounts are balanced. Which transactions are in the middle of their
commit and which are safe without records is up to the caller. -/
structure Booked (j : List News) (m : VisibilityManager) (ending safe : TxnId → Prop)
    (entries : List WalEntry) : Prop where
  noBegin : ∀ op ∈ entries, op.record ≠ .begin
  balanced : ∀ t, Balanced j entries t (t ∈ m.activeTxns) (ending t) (safe t)

namespace Booked
variable {base txnCounter : TxnId} {j : List News} {m m' : VisibilityManager}
  {ending ending' safe safe' : TxnId → Prop} {entries : List WalEntry}
  (h : Booked j m ending safe entries)
include h

theorem idle (hActive : ∀ t, t ∈ m'.activeTxns ↔ t ∈ m.activeTxns)
    (hEnding : ∀ t, ending' t ↔ ending t) : Booked j m' ending' safe entries :=
  ⟨h.noBegin, fun t => (h.balanced t).congr (hActive t).symm (hEnding t).symm⟩

theorem other : Booked (j ++ [.other]) m ending safe entries :=
  ⟨h.noBegin, fun t => (h.balanced t).news (by simp [News.About])⟩

theorem marker (txnId checkpointId : TxnId) :
    Booked j m ending safe (entries ++ [⟨txnId, .checkpoint checkpointId⟩]) := by
  refine ⟨fun op hOp => ?_, fun t => (h.balanced t).record fun hAbout => hAbout.2 _ rfl⟩
  rcases List.mem_append.mp hOp with hOp | hOp
  · exact h.noBegin op hOp
  · simp [List.mem_singleton.mp hOp]

theorem truncate {old rest : List WalEntry} (hLog : entries = old ++ rest)
    (hOld : ∀ op ∈ old, op.record ≠ .rollback → (∀ id, op.record ≠ .checkpoint id) →
      writesOf j op.txnId ≠ [] → op.txnId ∉ m.activeTxns ∧ (.committed op.txnId ∈ j → safe op.txnId)) :
    Booked j m ending safe rest := by
  refine ⟨fun op hOp => h.noBegin op (by simp [hLog, hOp]), fun t => (h.balanced t).truncate hLog ?_⟩
  rintro hStanding hWrites hSafe op hOp ⟨rfl, hMarker⟩
  by_contra hRecord
  obtain ⟨hEnded, hSafe'⟩ := hOld op hOp hRecord hMarker hWrites
  rcases hStanding with hActive | hCommitted
  · exact hEnded hActive
  · exact hSafe (hSafe' hCommitted)

theorem rebase (hEarly : ∀ t ∈ m.activeTxns, ¬ safe' t)
    (hSafe : ∀ t, .committed t ∈ j → writesOf j t ≠ [] → safe t → safe' t ∨
      HasCommit entries t ∧ livePuts t entries = (writesOf j t).map Z1Entry.logged) :
    Booked j m ending safe' entries :=
  ⟨h.noBegin, fun t => (h.balanced t).rebase (hEarly t) (hSafe t)⟩

/-- Others may count as safe, if those that have committed stay so. -/
theorem settle (hEnding : ∀ t, ending' t ↔ ending t) (hEarly : ∀ t ∈ m.activeTxns, ¬ safe' t)
    (hSafe : ∀ t, .committed t ∈ j → safe t → safe' t) : Booked j m ending' safe' entries :=
  (h.rebase hEarly fun t hCommitted _ hOld => Or.inl (hSafe t hCommitted hOld)).idle
    (fun _ => Iff.rfl) hEnding

variable (hLedger : Ledger base j m txnCounter)
include hLedger

theorem begin {txnId : TxnId} (hBegin : m.beginTxn txnId = .ok m') (hId : txnCounter ≤ txnId)
    (hSafe : ¬ safe txnId) : Booked (j ++ [.began txnId]) m' ending safe entries := by
  obtain ⟨hFresh, -, rfl⟩ := VisibilityManager.beginTxn_eq_ok hBegin
  have hBegan : .began txnId ∉ j := fun hIn => absurd (hLedger.began _ hIn).2 (Nat.not_lt.mpr hId)
  have hCommitted : .committed txnId ∉ j := fun hIn => hBegan (hLedger.committed _ hIn).2.began
  refine ⟨h.noBegin, fun t => ?_⟩
  by_cases hTxn : t = txnId
  · subst hTxn
    have hEnding : ¬ ending t := fun hEnd => hFresh ((h.balanced t).closing hEnd).1
    refine ((h.balanced t).begin hBegan hLedger.writers hCommitted hSafe).congr ?_ ?_
    · simp
    · simp [hEnding]
  · refine ((h.balanced t).news (n := .began txnId) (Ne.symm hTxn)).congr ?_ Iff.rfl
    simp [hTxn]

theorem write {e : Z1Entry} (hActive : e.txnId ∈ m.activeTxns) (hEnding : ¬ ending e.txnId) :
    Booked (j ++ [.wrote e]) m ending safe (entries ++ [e.logged]) := by
  have hCommitted : .committed e.txnId ∉ j := fun hIn => (hLedger.committed _ hIn).1 hActive
  refine ⟨fun op hOp => ?_, fun t => ?_⟩
  · rcases List.mem_append.mp hOp with hOp | hOp
    · exact h.noBegin op hOp
    · simp [List.mem_singleton.mp hOp, Z1Entry.logged]
  · by_cases hTxn : e.txnId = t
    · subst hTxn
      exact (h.balanced _).write rfl hActive hEnding hCommitted
    · exact ((h.balanced t).news (n := .wrote e) hTxn).record fun hAbout => hTxn hAbout.1

theorem logCommit {txnId : TxnId} (commitTs insertedAt : Nat) (hActive : txnId ∈ m.activeTxns) :
    Booked j m (fun t => ending t ∨ t = txnId) safe
      (entries ++ [⟨txnId, .commit commitTs insertedAt⟩]) := by
  have hCommitted : .committed txnId ∉ j := fun hIn => (hLedger.committed _ hIn).1 hActive
  refine ⟨fun op hOp => ?_, fun t => ?_⟩
  · rcases List.mem_append.mp hOp with hOp | hOp
    · exact h.noBegin op hOp
    · simp [List.mem_singleton.mp hOp]
  · by_cases hTxn : t = txnId
    · subst hTxn
      exact ((h.balanced t).logCommit hActive (hLedger.active_mem hActive) hCommitted).congr Iff.rfl
        (by simp)
    · exact ((h.balanced t).record fun hAbout => hTxn hAbout.1.symm).congr Iff.rfl (by simp [hTxn])

omit hLedger in
theorem commit {txnId : TxnId} (hEnding : ending txnId)
    (hActive : m'.activeTxns = AList.erase txnId m.activeTxns) :
    Booked (j ++ [.committed txnId]) m' (fun t => ending t ∧ t ≠ txnId) safe entries := by
  refine ⟨h.noBegin, fun t => ?_⟩
  by_cases hTxn : t = txnId
  · subst hTxn
    exact ((h.balanced t).commit hEnding).congr (by simp [hActive]) (by simp)
  · exact ((h.balanced t).news (n := .committed txnId) (Ne.symm hTxn)).congr
      (by simp [hActive, hTxn]) (by simp [hTxn])

theorem abort {txnId : TxnId} (hIn : txnId ∈ m.activeTxns) (hWrites : writesOf j txnId = [])
    (hActive : m'.activeTxns = AList.erase txnId m.activeTxns) :
    Booked j m' (fun t => ending t ∧ t ≠ txnId) safe entries := by
  have hCommitted : .committed txnId ∉ j := fun hc => (hLedger.committed _ hc).1 hIn
  refine ⟨h.noBegin, fun t => ?_⟩
  by_cases hTxn : t = txnId
  · subst hTxn
    exact ((h.balanced t).abort hIn hCommitted hWrites).congr (by simp [hActive]) (by simp)
  · exact (h.balanced t).congr (by simp [hActive, hTxn]) (by simp [hTxn])

theorem rollback {txnId : TxnId} (hIn : txnId ∈ m.activeTxns)
    (hActive : m'.activeTxns = AList.erase txnId m.activeTxns) :
    Booked j m' (fun t => ending t ∧ t ≠ txnId) safe (entries ++ [⟨txnId, .rollback⟩]) := by
  have hCommitted : .committed txnId ∉ j := fun hc => (hLedger.committed _ hc).1 hIn
  refine ⟨fun op hOp => ?_, fun t => ?_⟩
  · rcases List.mem_append.mp hOp with hOp | hOp
    · exact h.noBegin op hOp
    · simp [List.mem_singleton.mp hOp]
  · by_cases hTxn : t = txnId
    · subst hTxn
      exact ((h.balanced t).rollback hCommitted).congr (by simp [hActive]) (by simp)
    · exact ((h.balanced t).record fun hAbout => hTxn hAbout.1.symm).congr
        (by simp [hActive, hTxn]) (by simp [hTxn])

end Booked
end Z1Kv
