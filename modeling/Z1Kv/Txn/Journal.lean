import Z1Kv.Mvcc.Conflicts
import Z1Kv.Txn.Snapshots

/-! The journal of a run: the begins, writes and commits that succeeded, in their
order. What the visibility manager knows about a transaction agrees with the
journal at every point of every run. -/
namespace Z1Kv

inductive News
  | began (txnId : TxnId)
  | wrote (e : Z1Entry)
  | committed (txnId : TxnId)
  | other
  deriving DecidableEq

/-- What an event adds to the journal. -/
def news : Op × Reply → News
  | (.begin, .began txnId) => .began txnId
  | (.put cf key value txnId, .done) => .wrote ⟨⟨cf, key⟩, txnId, some value⟩
  | (.delete cf key txnId, .done) => .wrote ⟨⟨cf, key⟩, txnId, none⟩
  | (.commit txnId _, .done) => .committed txnId
  | _ => .other

def journal (events : List (Op × Reply)) : List News := events.map news

@[simp] theorem journal_concat (events : List (Op × Reply)) (event : Op × Reply) :
    journal (events ++ [event]) = journal events ++ [news event] := by
  simp [journal]

theorem getElem?_concat_eq_some {α : Type} {l : List α} {x y : α} {i : Nat} :
    (l ++ [x])[i]? = some y ↔ l[i]? = some y ∨ i = l.length ∧ x = y := by
  rcases Nat.lt_trichotomy i l.length with hLt | rfl | hGt
  · rw [List.getElem?_append_left hLt]
    simp [hLt.ne]
  · simp
  · have hNone : (l ++ [x])[i]? = none := by
      rw [List.getElem?_eq_none_iff, List.length_append, List.length_singleton]
      omega
    rw [hNone, List.getElem?_eq_none_iff.mpr hGt.le]
    simp [hGt.ne']

theorem lt_length_of_getElem?_eq_some {α : Type} {l : List α} {x : α} {i : Nat}
    (h : l[i]? = some x) : i < l.length := by
  by_contra hLe
  rw [List.getElem?_eq_none_iff.mpr (Nat.le_of_not_lt hLe)] at h
  cases h

/-- A list with one more element is split at that element, or where it was split before. -/
theorem concat_eq_split_iff {α : Type} {l before after : List α} {x y : α} :
    l ++ [y] = before ++ x :: after ↔
      (l = before ∧ y = x ∧ after = []) ∨ ∃ rest, after = rest ++ [y] ∧ l = before ++ x :: rest := by
  constructor
  · intro hSplit
    rcases List.eq_nil_or_concat' after with rfl | ⟨rest, last, rfl⟩
    · obtain ⟨hBefore, hLast⟩ := List.append_inj' hSplit rfl
      exact Or.inl ⟨hBefore, List.singleton_inj.mp hLast, rfl⟩
    · rw [← List.cons_append, ← List.append_assoc] at hSplit
      obtain ⟨hBefore, hLast⟩ := List.append_inj' hSplit rfl
      obtain rfl := List.singleton_inj.mp hLast
      exact Or.inr ⟨rest, rfl, hBefore⟩
  · rintro (⟨rfl, rfl, rfl⟩ | ⟨rest, rfl, rfl⟩)
    · rfl
    · simp

/-- An occurrence after which nothing of the same kind follows. -/
def LastOf {α : Type} (same : α → Prop) (l : List α) (x : α) : Prop :=
  ∃ before after, l = before ++ x :: after ∧ ∀ y ∈ after, ¬ same y

theorem LastOf.mem {α : Type} {same : α → Prop} {l : List α} {x : α} (h : LastOf same l x) : x ∈ l := by
  obtain ⟨before, after, rfl, -⟩ := h
  simp

theorem lastOf_concat {α : Type} {same : α → Prop} {l : List α} {x y : α} :
    LastOf same (l ++ [y]) x ↔ y = x ∨ LastOf same l x ∧ ¬ same y := by
  constructor
  · rintro ⟨before, after, hSplit, hAfter⟩
    rcases concat_eq_split_iff.mp hSplit with ⟨-, rfl, -⟩ | ⟨rest, rfl, rfl⟩
    · exact Or.inl rfl
    · exact Or.inr ⟨⟨before, rest, rfl, fun z hz => hAfter z (by simp [hz])⟩, hAfter y (by simp)⟩
  · rintro (rfl | ⟨⟨before, after, rfl, hAfter⟩, hNot⟩)
    · exact ⟨l, [], rfl, by simp⟩
    · refine ⟨before, after ++ [y], by simp, fun z hz => ?_⟩
      rcases List.mem_append.mp hz with hz | hz
      · exact hAfter z hz
      · rwa [List.mem_singleton.mp hz]

theorem lastOf_append {α : Type} {same : α → Prop} {l m : List α} {x : α} :
    LastOf same (l ++ m) x ↔ LastOf same m x ∨ (∀ y ∈ m, ¬ same y) ∧ LastOf same l x := by
  induction m using List.reverseRecOn with
  | nil => simp [LastOf]
  | append_singleton m y ih =>
      rw [← List.append_assoc, lastOf_concat, lastOf_concat, ih]
      constructor
      · rintro (rfl | ⟨hLast | ⟨hNone, hLast⟩, hy⟩)
        · exact .inl (.inl rfl)
        · exact .inl (.inr ⟨hLast, hy⟩)
        · refine .inr ⟨fun z hz => ?_, hLast⟩
          rcases List.mem_append.mp hz with hz | hz
          · exact hNone z hz
          · rwa [List.mem_singleton.mp hz]
      · rintro ((rfl | ⟨hLast, hy⟩) | ⟨hNone, hLast⟩)
        · exact .inl rfl
        · exact .inr ⟨.inl hLast, hy⟩
        · exact .inr ⟨.inr ⟨fun z hz => hNone z (by simp [hz]), hLast⟩, hNone y (by simp)⟩

theorem exists_lastOf {α : Type} {same : α → Prop} {l : List α} {x : α} (hMem : x ∈ l)
    (hSame : same x) : ∃ y, same y ∧ LastOf same l y := by
  induction l using List.reverseRecOn with
  | nil => cases hMem
  | append_singleton l last ih =>
      by_cases hLast : same last
      · exact ⟨last, hLast, lastOf_concat.mpr (Or.inl rfl)⟩
      · have hOld : x ∈ l := by
          rcases List.mem_append.mp hMem with hOld | hNew
          · exact hOld
          · exact absurd (List.mem_singleton.mp hNew ▸ hSame) hLast
        obtain ⟨y, hy, hLastY⟩ := ih hOld
        exact ⟨y, hy, lastOf_concat.mpr (Or.inr ⟨hLastY, hLast⟩)⟩

/-- The position of a last occurrence, and that of any other of its kind. -/
theorem LastOf.position {α : Type} {same : α → Prop} {l : List α} {x : α} (h : LastOf same l x) :
    ∃ i : Nat, l[i]? = some x ∧ ∀ (k : Nat) y, l[k]? = some y → same y → k ≤ i := by
  obtain ⟨before, after, rfl, hAfter⟩ := h
  refine ⟨before.length, by simp, fun k y hk hSame => ?_⟩
  by_contra hLt
  rw [List.getElem?_append_right (by omega), List.getElem?_cons] at hk
  split at hk
  · omega
  · exact hAfter y (List.mem_of_getElem? hk) hSame

/-- Metadata that only grew. -/
structure TxnMeta.Extends (old new : TxnMeta) : Prop where
  beginTs : new.beginTs = old.beginTs
  writtenKeys : ∀ key ∈ old.writtenKeys, key ∈ new.writtenKeys

theorem TxnMeta.Extends.refl (txn : TxnMeta) : txn.Extends txn := ⟨rfl, fun _ h => h⟩

theorem VisibilityManager.lookup_modifyActive {m : VisibilityManager} {txnId t : TxnId}
    {f : TxnMeta → TxnMeta} {txn : TxnMeta}
    (h : AList.lookup t (m.modifyActive txnId f).activeTxns = some txn) :
    ∃ old, AList.lookup t m.activeTxns = some old ∧
      (t = txnId ∧ txn = f old ∨ t ≠ txnId ∧ txn = old) := by
  unfold modifyActive at h
  split at h
  · next old hOld =>
    by_cases hTxn : t = txnId
    · subst hTxn
      rw [AList.lookup_insert] at h
      exact ⟨old, hOld, Or.inl ⟨rfl, (Option.some.inj h).symm⟩⟩
    · rw [AList.lookup_insert_ne hTxn] at h
      exact ⟨txn, h, Or.inr ⟨hTxn, rfl⟩⟩
  · next hNone =>
    refine ⟨txn, h, Or.inr ⟨?_, rfl⟩⟩
    rintro rfl
    rw [hNone] at h
    cases h

/-- What a call adds to the journal, with what it does to the visibility
manager. -/
inductive JournalStep (m : VisibilityManager) (txnCounter : TxnId) :
    News → VisibilityManager → Prop
  | began {txnId : TxnId} {m' : VisibilityManager} (h : m.beginTxn txnId = .ok m')
      (hId : txnCounter ≤ txnId) : JournalStep m txnCounter (.began txnId) m'
  | wrote {e : Z1Entry} (h : e.txnId ∈ m.activeTxns) :
      JournalStep m txnCounter (.wrote e)
        (m.recordWrite e.txnId (conflictKey e.key.cf e.key.key))
  | committed {txnId : TxnId} {txn : TxnMeta} (env : CommitEnv)
      (h : AList.lookup txnId m.activeTxns = some txn)
      (hSsi : m.ssiConflict env.order txnId txn = none) :
      JournalStep m txnCounter (.committed txnId)
        (m.committed env.order txnId env.insertedAt env.ts env.nowMs)
  | other {m' : VisibilityManager} (hHistory : m'.committedHistory = m.committedHistory)
      (hActive : ∀ t txn, AList.lookup t m'.activeTxns = some txn →
        ∃ old, AList.lookup t m.activeTxns = some old ∧ old.Extends txn) :
      JournalStep m txnCounter .other m'

theorem Engine.MvccEffect.journalStep {db : Engine} {op : Op} {reply : Reply}
    {mvcc : VisibilityManager} (h : db.MvccEffect op reply mvcc) :
    JournalStep db.mvcc db.txnCounter (news (op, reply)) mvcc := by
  have hSame : JournalStep db.mvcc db.txnCounter .other db.mvcc :=
    .other rfl fun t txn hLookup => ⟨txn, hLookup, .refl txn⟩
  have hAbort : ∀ txnId, JournalStep db.mvcc db.txnCounter .other (db.mvcc.abortTxn txnId) := by
    intro txnId
    refine .other rfl fun t txn hLookup => ?_
    rw [VisibilityManager.abortTxn_activeTxns] at hLookup
    by_cases hTxn : t = txnId
    · subst hTxn
      simp at hLookup
    · rw [AList.lookup_erase_ne hTxn] at hLookup
      exact ⟨txn, hLookup, .refl txn⟩
  cases h with
  | begun h hId => exact .began h hId
  | @wrote op e hEntry hActive =>
      cases op with
      | put cf key value txnId =>
          obtain rfl := Option.some.inj hEntry
          exact .wrote hActive
      | delete cf key txnId =>
          obtain rfl := Option.some.inj hEntry
          exact .wrote hActive
      | _ => cases hEntry
  | @read cf key txnId found =>
      refine .other (VisibilityManager.modifyActive_committedHistory _ _ _) fun t txn hLookup => ?_
      obtain ⟨old, hOld, ⟨-, rfl⟩ | ⟨-, rfl⟩⟩ := VisibilityManager.lookup_modifyActive hLookup
      · exact ⟨old, hOld, rfl, fun _ h => h⟩
      · exact ⟨txn, hOld, .refl txn⟩
  | @committed txnId env txn h hSsi => exact .committed env h hSsi
  | conflicted => exact hAbort _
  | rolledBack => exact hAbort _
  | @failed op e => cases op <;> exact hSame
  | @idle op reply hEntry hBegin hRead hCommit hRollback =>
      cases op with
      | begin => exact absurd rfl hBegin
      | put => cases hEntry
      | delete => cases hEntry
      | commit txnId env => exact absurd rfl (hCommit txnId env)
      | _ => exact hSame

/-- The second transaction committed after the first one began. -/
def CommittedSince (j : List News) (t u : TxnId) : Prop :=
  ∃ b c : Nat, j[b]? = some (News.began t) ∧ j[c]? = some (News.committed u) ∧ b < c

theorem committedSince_iff {j : List News} {t u : TxnId} :
    CommittedSince j t u ↔ ∃ c ∈ List.range j.length, j[c]? = some (.committed u) ∧ .began t ∈ j.take c := by
  constructor
  · rintro ⟨b, c, hBegan, hCommitted, hLt⟩
    refine ⟨c, List.mem_range.mpr (lt_length_of_getElem?_eq_some hCommitted), hCommitted, ?_⟩
    exact List.mem_of_getElem? ((List.getElem?_take_of_lt hLt).trans hBegan)
  · rintro ⟨c, -, hCommitted, hBegan⟩
    obtain ⟨b, hb⟩ := List.mem_iff_getElem?.mp hBegan
    rw [List.getElem?_take] at hb
    split at hb
    · next hLt => exact ⟨b, c, hb, hCommitted, hLt⟩
    · cases hb

instance (j : List News) (t u : TxnId) : Decidable (CommittedSince j t u) :=
  decidable_of_iff _ committedSince_iff.symm

theorem committedSince_concat {j : List News} {n : News} {t u : TxnId} :
    CommittedSince (j ++ [n]) t u ↔
      CommittedSince j t u ∨ n = .committed u ∧ .began t ∈ j := by
  unfold CommittedSince
  simp only [getElem?_concat_eq_some, List.mem_iff_getElem?]
  constructor
  · rintro ⟨b, c, hBegan | ⟨rfl, -⟩, hCommitted | ⟨rfl, rfl⟩, hLt⟩
    · exact Or.inl ⟨b, c, hBegan, hCommitted, hLt⟩
    · exact Or.inr ⟨rfl, b, hBegan⟩
    · exact absurd (lt_length_of_getElem?_eq_some hCommitted) (Nat.not_lt.mpr hLt.le)
    · exact absurd hLt (lt_irrefl _)
  · rintro (⟨b, c, hBegan, hCommitted, hLt⟩ | ⟨rfl, b, hBegan⟩)
    · exact ⟨b, c, Or.inl hBegan, Or.inl hCommitted, hLt⟩
    · exact ⟨b, j.length, Or.inl hBegan, Or.inr ⟨rfl, rfl⟩, lt_length_of_getElem?_eq_some hBegan⟩

theorem CommittedSince.began {j : List News} {t u : TxnId} (h : CommittedSince j t u) :
    .began t ∈ j := by
  obtain ⟨b, -, hBegan, -⟩ := h
  exact List.mem_of_getElem? hBegan

theorem CommittedSince.committed {j : List News} {t u : TxnId} (h : CommittedSince j t u) :
    .committed u ∈ j := by
  obtain ⟨-, c, -, hCommitted, -⟩ := h
  exact List.mem_of_getElem? hCommitted

/-- What the manager knows agrees with the journal of the session; ids up to the
base were committed before it. -/
structure Ledger (base : TxnId) (j : List News) (m : VisibilityManager) (txnCounter : TxnId) :
    Prop where
  aboveBase : base ≤ m.committedTxn
  began : ∀ t, .began t ∈ j → base < t ∧ t < txnCounter
  ordered : ∀ t u (b c : Nat), j[b]? = some (News.began t) → j[c]? = some (News.began u) →
    t < u → b < c
  active : ∀ t txn, AList.lookup t m.activeTxns = some txn → txn.beginTs = t ∧ .began t ∈ j
  committed : ∀ t, .committed t ∈ j → t ∉ m.activeTxns ∧ CommittedSince j t t
  history : ∀ t ∈ m.committedHistory, t ≤ base ∨ .committed t ∈ j
  writers : ∀ w, .wrote w ∈ j → .began w.txnId ∈ j
  recorded : ∀ w txn, .wrote w ∈ j → AList.lookup w.txnId m.activeTxns = some txn →
    conflictKey w.key.cf w.key.key ∈ txn.writtenKeys

namespace Ledger
variable {base : TxnId} {j : List News} {m m' : VisibilityManager} {txnCounter txnCounter' : TxnId}
  (h : Ledger base j m txnCounter)
include h

theorem active_mem {t : TxnId} (ht : t ∈ m.activeTxns) : .began t ∈ j := by
  obtain ⟨txn, hLookup⟩ := FinMap.mem_iff_lookup.mp ht
  exact (h.active t txn hLookup).2

theorem step_began {txnId : TxnId} (hBegin : m.beginTxn txnId = .ok m')
    (hId : txnCounter ≤ txnId) (hNew : txnId < txnCounter') :
    Ledger base (j ++ [.began txnId]) m' txnCounter' := by
  obtain ⟨hFresh, hAbove, rfl⟩ := VisibilityManager.beginTxn_eq_ok hBegin
  have hUnused : News.began txnId ∉ j := fun hOld => absurd (h.began txnId hOld).2 (Nat.not_lt.mpr hId)
  have hOld : ∀ t txn, t ≠ txnId →
      AList.lookup t (AList.insert txnId { beginTs := txnId } m.activeTxns) = some txn →
        AList.lookup t m.activeTxns = some txn := by
    intro t txn hNe hLookup
    rwa [AList.lookup_insert_ne hNe] at hLookup
  refine ⟨h.aboveBase, ?_, ?_, ?_, ?_, ?_, ?_, ?_⟩
  · intro t ht
    rcases List.mem_append.mp ht with ht | ht
    · exact ⟨(h.began t ht).1, ((h.began t ht).2.trans_le hId).trans hNew⟩
    · obtain rfl := News.began.inj (List.mem_singleton.mp ht)
      exact ⟨h.aboveBase.trans_lt hAbove, hNew⟩
  · intro t u b c hb hc hLt
    rcases getElem?_concat_eq_some.mp hb with hOldB | ⟨hB, hNewB⟩
    · rcases getElem?_concat_eq_some.mp hc with hOldC | ⟨hC, -⟩
      · exact h.ordered t u b c hOldB hOldC hLt
      · exact hC ▸ lt_length_of_getElem?_eq_some hOldB
    · obtain rfl := News.began.inj hNewB
      rcases getElem?_concat_eq_some.mp hc with hOldC | ⟨-, hNewC⟩
      · exact absurd (h.began u (List.mem_of_getElem? hOldC)).2 (Nat.not_lt.mpr (hId.trans hLt.le))
      · exact absurd (News.began.inj hNewC) hLt.ne
  · intro t txn hLookup
    by_cases hTxn : t = txnId
    · subst hTxn
      rw [AList.lookup_insert] at hLookup
      obtain rfl := Option.some.inj hLookup
      exact ⟨rfl, by simp⟩
    · obtain ⟨hTs, hMem⟩ := h.active t txn (hOld t txn hTxn hLookup)
      exact ⟨hTs, by simp [hMem]⟩
  · intro t ht
    have ht : .committed t ∈ j := by simpa using ht
    obtain ⟨hEnded, hSince⟩ := h.committed t ht
    refine ⟨fun hActive => ?_, committedSince_concat.mpr (Or.inl hSince)⟩
    rcases (AList.mem_insert _).mp hActive with rfl | hActive
    · exact hUnused hSince.began
    · exact hEnded hActive
  · intro t ht
    exact (h.history t ht).imp_right fun hMem => by simp [hMem]
  · intro w hw
    have hw : .wrote w ∈ j := by simpa using hw
    simp [h.writers w hw]
  · intro w txn hw hLookup
    have hw : .wrote w ∈ j := by simpa using hw
    refine h.recorded w txn hw (hOld w.txnId txn ?_ hLookup)
    rintro hEq
    exact hUnused (hEq ▸ h.writers w hw)

/-- Calls other than a begin: transactions go on with more written keys, or end. -/
theorem step_on {n : News} (hBegin : ∀ t, n ≠ .began t) (hCounter : txnCounter ≤ txnCounter')
    (hAdvances : m.committedTxn ≤ m'.committedTxn)
    (hActive : ∀ t txn, AList.lookup t m'.activeTxns = some txn →
      ∃ old, AList.lookup t m.activeTxns = some old ∧ old.Extends txn)
    (hCommitted : ∀ t, n = .committed t → t ∈ m.activeTxns ∧ t ∉ m'.activeTxns)
    (hHistory : ∀ t ∈ m'.committedHistory, t ∈ m.committedHistory ∨ n = .committed t)
    (hWrote : ∀ w, n = .wrote w → w.txnId ∈ m.activeTxns ∧
      ∀ txn, AList.lookup w.txnId m'.activeTxns = some txn →
        conflictKey w.key.cf w.key.key ∈ txn.writtenKeys) :
    Ledger base (j ++ [n]) m' txnCounter' := by
  have hMem : ∀ t ∈ m'.activeTxns, t ∈ m.activeTxns := by
    intro t ht
    obtain ⟨txn, hLookup⟩ := FinMap.mem_iff_lookup.mp ht
    obtain ⟨old, hOld, -⟩ := hActive t txn hLookup
    exact FinMap.mem_iff_lookup.mpr ⟨old, hOld⟩
  have hBegan : ∀ t, .began t ∈ j ++ [n] → .began t ∈ j := by
    intro t ht
    rcases List.mem_append.mp ht with ht | ht
    · exact ht
    · exact absurd (List.mem_singleton.mp ht).symm (hBegin t)
  have hBeganAt : ∀ {t} {b : Nat}, (j ++ [n])[b]? = some (News.began t) → j[b]? = some (News.began t) :=
    fun hb => (getElem?_concat_eq_some.mp hb).resolve_right fun hNew => hBegin _ hNew.2
  refine ⟨h.aboveBase.trans hAdvances, ?_, ?_, ?_, ?_, ?_, ?_, ?_⟩
  · exact fun t ht => ⟨(h.began t (hBegan t ht)).1, (h.began t (hBegan t ht)).2.trans_le hCounter⟩
  · exact fun t u b c hb hc => h.ordered t u b c (hBeganAt hb) (hBeganAt hc)
  · intro t txn hLookup
    obtain ⟨old, hOld, hExtends⟩ := hActive t txn hLookup
    obtain ⟨hTs, hIn⟩ := h.active t old hOld
    exact ⟨hExtends.beginTs.trans hTs, by simp [hIn]⟩
  · intro t ht
    rcases List.mem_append.mp ht with ht | ht
    · obtain ⟨hEnded, hSince⟩ := h.committed t ht
      exact ⟨fun hIn => hEnded (hMem t hIn), committedSince_concat.mpr (Or.inl hSince)⟩
    · have hNew := (List.mem_singleton.mp ht).symm
      obtain ⟨hWas, hEnded⟩ := hCommitted t hNew
      exact ⟨hEnded, committedSince_concat.mpr (Or.inr ⟨hNew, h.active_mem hWas⟩)⟩
  · intro t ht
    rcases hHistory t ht with ht | rfl
    · exact (h.history t ht).imp_right fun hIn => by simp [hIn]
    · exact Or.inr (by simp)
  · intro w hw
    rcases List.mem_append.mp hw with hw | hw
    · simp [h.writers w hw]
    · simp [h.active_mem (hWrote w (List.mem_singleton.mp hw).symm).1]
  · intro w txn hw hLookup
    rcases List.mem_append.mp hw with hw | hw
    · obtain ⟨old, hOld, hExtends⟩ := hActive w.txnId txn hLookup
      exact hExtends.writtenKeys _ (h.recorded w old hw hOld)
    · exact (hWrote w (List.mem_singleton.mp hw).symm).2 txn hLookup

theorem step {n : News} (hStep : JournalStep m txnCounter n m') (hAdvances : m.Advances m')
    (hCounter : txnCounter ≤ txnCounter') (hNew : ∀ t, n = .began t → t < txnCounter') :
    Ledger base (j ++ [n]) m' txnCounter' := by
  cases hStep with
  | began hBegin hId => exact h.step_began hBegin hId (hNew _ rfl)
  | @wrote e hActive =>
      refine h.step_on (by simp) hCounter hAdvances.committed ?_ (by simp) ?_ ?_
      · intro t txn hLookup
        obtain ⟨old, hOld, ⟨-, rfl⟩ | ⟨-, rfl⟩⟩ := VisibilityManager.lookup_modifyActive hLookup
        · exact ⟨old, hOld, rfl, fun key hKey => List.mem_insert_of_mem hKey⟩
        · exact ⟨txn, hOld, .refl txn⟩
      · intro t ht
        rw [VisibilityManager.recordWrite, VisibilityManager.modifyActive_committedHistory] at ht
        exact Or.inl ht
      · rintro w hw
        obtain rfl := News.wrote.inj hw
        refine ⟨hActive, fun txn hLookup => ?_⟩
        obtain ⟨old, hOld, ⟨-, rfl⟩ | ⟨hNe, -⟩⟩ := VisibilityManager.lookup_modifyActive hLookup
        · exact List.mem_insert_self
        · exact absurd rfl hNe
  | @committed txnId txn env hLookup hSsi =>
      refine h.step_on (by simp) hCounter hAdvances.committed ?_ ?_ ?_ (by simp)
      · intro t txn' hLookup'
        rw [VisibilityManager.committed_activeTxns] at hLookup'
        by_cases hTxn : t = txnId
        · subst hTxn
          simp at hLookup'
        · rw [AList.lookup_erase_ne hTxn] at hLookup'
          exact ⟨txn', hLookup', .refl txn'⟩
      · intro t ht
        obtain rfl := News.committed.inj ht
        refine ⟨FinMap.mem_iff_lookup.mpr ⟨txn, hLookup⟩, fun hIn => ?_⟩
        rw [VisibilityManager.committed_activeTxns] at hIn
        exact (AList.mem_erase.mp hIn).1 rfl
      · intro t ht
        rcases VisibilityManager.mem_committed ht with rfl | ht
        · exact Or.inr rfl
        · exact Or.inl ht
  | other hHistory hActive =>
      refine h.step_on (by simp) hCounter hAdvances.committed hActive (by simp) ?_ (by simp)
      intro t ht
      rw [hHistory] at ht
      exact Or.inl ht

end Ledger

theorem mem_concat_wrote {j : List News} {n : News} {w : Z1Entry} (h : .wrote w ∈ j ++ [n]) :
    .wrote w ∈ j ∨ n = .wrote w :=
  (List.mem_append.mp h).imp id fun hNew => (List.mem_singleton.mp hNew).symm

section
variable {codec : Codec} {base : TxnId} {past : List (Op × Reply)} {db : Engine} {op : Op}

theorem news_write {e : Z1Entry} (hEntry : op.write? = some e) : news (op, .done) = .wrote e := by
  cases op with
  | put cf key value txnId => rw [← Option.some.inj hEntry]; rfl
  | delete cf key txnId => rw [← Option.some.inj hEntry]; rfl
  | _ => cases hEntry

theorem entry_of_news {reply : Reply} {e : Z1Entry} (h : news (op, reply) = .wrote e) :
    op.write? = some e := by
  cases op <;> cases reply <;> cases h <;> rfl

theorem JournalStep.active {m m' : VisibilityManager} {txnCounter t : TxnId} {n : News}
    (h : JournalStep m txnCounter n m') (ht : t ∈ m'.activeTxns) :
    t ∈ m.activeTxns ∨ n = .began t ∧ txnCounter ≤ t := by
  cases h with
  | began hBegin hId =>
      obtain ⟨-, -, rfl⟩ := VisibilityManager.beginTxn_eq_ok hBegin
      rcases (AList.mem_insert _).mp ht with rfl | ht
      · exact Or.inr ⟨rfl, hId⟩
      · exact Or.inl ht
  | wrote => exact Or.inl (VisibilityManager.mem_modifyActive.mp ht)
  | committed =>
      rw [VisibilityManager.committed_activeTxns] at ht
      exact Or.inl (AList.mem_erase.mp ht).2
  | other hHistory hActive =>
      obtain ⟨txn, hLookup⟩ := FinMap.mem_iff_lookup.mp ht
      obtain ⟨old, hOld, -⟩ := hActive t txn hLookup
      exact Or.inl (FinMap.mem_iff_lookup.mpr ⟨old, hOld⟩)

theorem JournalStep.writer {m m' : VisibilityManager} {txnCounter : TxnId} {e : Z1Entry}
    (h : JournalStep m txnCounter (.wrote e) m') : e.txnId ∈ m.activeTxns := by
  cases h with
  | wrote hActive => exact hActive

/-- Only a commit changes the history. -/
theorem JournalStep.history {m m' : VisibilityManager} {txnCounter : TxnId} {n : News}
    (h : JournalStep m txnCounter n m') (hNot : ∀ t, n ≠ .committed t) :
    m'.committedHistory = m.committedHistory := by
  cases h with
  | began hBegin =>
      obtain ⟨-, -, rfl⟩ := VisibilityManager.beginTxn_eq_ok hBegin
      rfl
  | wrote => exact VisibilityManager.modifyActive_committedHistory _ _ _
  | committed => exact absurd rfl (hNot _)
  | other hHistory => exact hHistory

theorem Engine.MvccEffect.commit_inv {reply : Reply} {mvcc : VisibilityManager} {t : TxnId}
    (h : db.MvccEffect op reply mvcc) (hNews : news (op, reply) = .committed t) :
    ∃ env, op = .commit t env ∧ t ∈ db.mvcc.activeTxns ∧
      mvcc = db.mvcc.committed env.order t env.insertedAt env.ts env.nowMs := by
  cases h with
  | @committed txnId env txn hLookup hSsi =>
      obtain rfl := News.committed.inj hNews
      exact ⟨env, rfl, FinMap.mem_iff_lookup.mpr ⟨txn, hLookup⟩, rfl⟩
  | begun => cases hNews
  | wrote hEntry =>
      rw [news_write hEntry] at hNews
      cases hNews
  | read => cases hNews
  | conflicted => cases hNews
  | rolledBack => cases hNews
  | @failed op => cases op <;> cases hNews
  | @idle op reply hEntry hBegin hRead hCommit =>
      cases op with
      | commit txnId env => exact absurd rfl (hCommit txnId env)
      | begin => exact absurd rfl hBegin
      | put => cases hEntry
      | delete => cases hEntry
      | _ => cases hNews

theorem news_step {e : Z1Entry} (codec : Codec) (hEntry : op.write? = some e)
    (hActive : e.txnId ∈ db.mvcc.activeTxns) : news (op, (db.step codec op).1) = .wrote e := by
  rw [(Engine.step_write codec hEntry hActive).1]
  exact news_write hEntry

theorem Engine.active_of_open {codec : Codec} {maxFileSize : Nat} {env : OpenEnv}
    {config : Z1Config} {dir : DataDir} {db : Engine}
    (h : openWithConfig codec maxFileSize env config dir = .ok db) : db.mvcc.activeTxns = ∅ := by
  obtain ⟨recovery, l1, -, rfl⟩ := openWithConfig_cases h
  exact (VisibilityManager.recoverCommittedHistory_spec _ _ _ _).1

theorem Ledger.of_open {maxFileSize : Nat} {env : OpenEnv} {config : Z1Config} {dir : DataDir}
    (h : Engine.openWithConfig codec maxFileSize env config dir = .ok db) :
    Ledger db.mvcc.committedTxn (journal []) db.mvcc db.txnCounter := by
  have hSound := Engine.sound_of_open h
  have hActive := Engine.active_of_open h
  have hNoTxn : ∀ t txn, AList.lookup t db.mvcc.activeTxns ≠ some txn := by
    intro t txn hLookup
    rw [hActive] at hLookup
    cases hLookup
  refine ⟨le_rfl, by simp [journal], by simp [journal], ?_, by simp [journal], ?_, by simp [journal],
    by simp [journal]⟩
  · exact fun t txn hLookup => absurd hLookup (hNoTxn t txn)
  · exact fun t ht => Or.inl (hSound.coherent.below t ht)

theorem Ledger.step_call (h : Ledger base (journal past) db.mvcc db.txnCounter) (codec : Codec)
    (op : Op) :
    Ledger base (journal past ++ [news (op, (db.step codec op).1)]) (db.step codec op).2.mvcc
      (db.step codec op).2.txnCounter := by
  have hEffect := db.step_mvcc codec op
  obtain ⟨hCounter, hNew⟩ := db.step_txnCounter codec op
  refine h.step hEffect.journalStep hEffect.advances hCounter fun t ht => ?_
  have hBegan : op = .begin ∧ (db.step codec op).1 = .began t := by
    generalize (db.step codec op).1 = reply at ht
    cases op <;> cases reply <;> cases ht
    exact ⟨rfl, rfl⟩
  exact hNew t hBegan.1 hBegan.2

/-- What the layers hold, or failed writes left there, was written in the session, or it is
old. -/
def Written (old : Z1Entry → Prop) (j : List News) (db : Engine) : Prop :=
  ∀ e ∈ db.store.stored, old e ∨ .wrote e ∈ j

theorem Written.held {old : Z1Entry → Prop} {j : List News} (h : Written old j db) {e : Z1Entry}
    (he : e ∈ db.store.held) : old e ∨ .wrote e ∈ j :=
  h e (Store.mem_stored.mpr (Or.inl he))

/-- An open starts without files of failed writes. -/
theorem Engine.stored_of_open {codec : Codec} {maxFileSize : Nat} {env : OpenEnv}
    {config : Z1Config} {dir : DataDir} {db : Engine}
    (h : openWithConfig codec maxFileSize env config dir = .ok db) {e : Z1Entry}
    (he : e ∈ db.store.stored) : e ∈ db.store.held := by
  obtain ⟨recovery, l1, -, rfl⟩ := openWithConfig_cases h
  rcases Store.mem_stored.mp he with hHeld | hLeft
  · exact hHeld
  · exact absurd hLeft List.not_mem_nil

theorem Written.step {old : Z1Entry → Prop} (h : Written old (journal past) db) (codec : Codec)
    (op : Op) : Written old (journal past ++ [news (op, (db.step codec op).1)]) (db.step codec op).2 := by
  have hOld : ∀ e ∈ db.store.stored, old e ∨
      .wrote e ∈ journal past ++ [news (op, (db.step codec op).1)] :=
    fun e he => (h e he).imp_right (List.mem_append_left _)
  refine @Engine.step_store codec db op (fun s => ∀ e ∈ s.stored, old e ∨
    .wrote e ∈ journal past ++ [news (op, (db.step codec op).1)]) hOld ?_ ?_ ?_
  · intro new hEntry hActive e he
    rcases Store.mem_stored_write he with rfl | he
    · exact Or.inr (by simp [news_step codec hEntry hActive])
    · exact hOld e he
  · exact fun s writes hs e he => hs e (Store.flush_stored_subset he)
  · exact fun s watermark s' hs _ hCompacted e he => hs e (hCompacted.stored_subset he)

end
end Z1Kv
