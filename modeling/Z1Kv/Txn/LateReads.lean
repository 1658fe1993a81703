import Z1Kv.Txn.Account
import Z1Kv.Txn.LostUpdate

/-! Reads that the SSI check cannot see. A commit is refused while another active transaction
has read one of its keys; a transaction that reads the key after that commit is not compared
with it any more. -/
namespace Z1Kv

/-- The transaction has read the key. -/
def ReadsKey (past : List (Op × Reply)) (t : TxnId) (k : Z1Key) : Prop :=
  ∃ found, (.getForTxn k.cf k.key t, .value found) ∈ past

/-- The transaction has read a key that somebody had written who committed since it began. -/
def ReadsLate (past : List (Op × Reply)) (t : TxnId) : Prop :=
  ∃ before k found after, past = before ++ (.getForTxn k.cf k.key t, .value found) :: after ∧
    ¬ Watched (journal before) t k

/-- The first transaction committed after the second one had begun, and not after the second
one had committed. -/
def Overtakes (j : List News) (u t : TxnId) : Prop :=
  ∃ before after, j = before ++ .committed u :: after ∧ .began t ∈ before ∧
    .committed t ∉ before ∧ t ≠ u

/-- Before a transaction commits, nobody commits writes to keys that it has read, unless it
reads late; and those who read late write nothing. -/
structure ReadsNoticed (past : List (Op × Reply)) (m : VisibilityManager) : Prop where
  recorded : ∀ t k txn, ReadsKey past t k → AList.lookup t m.activeTxns = some txn →
    conflictKey k.cf k.key ∈ txn.readKeys
  noticed : ∀ t k w, ReadsKey past t k → .wrote w ∈ journal past → w.key = k →
    t ∈ m.activeTxns ∨ .committed t ∈ journal past → Overtakes (journal past) w.txnId t →
    ReadsLate past t
  readOnly : ∀ t, ReadsLate past t → writesOf (journal past) t = []

theorem readsLate_iff {past : List (Op × Reply)} {t : TxnId} :
    ReadsLate past t ↔ (List.range past.length).any fun i =>
      match past[i]? with
      | some (.getForTxn cf key u, .value _) =>
          decide (u = t ∧ ¬ Watched (journal (past.take i)) t ⟨cf, key⟩)
      | _ => false := by
  rw [List.any_eq_true]
  constructor
  · rintro ⟨before, k, found, after, rfl, hLate⟩
    exact ⟨before.length, List.mem_range.mpr (by simp), by simp [hLate]⟩
  · rintro ⟨i, -, hAt⟩
    split at hAt
    · next cf key u found hEvent =>
      obtain ⟨rfl, hLate⟩ := of_decide_eq_true hAt
      obtain ⟨hLt, hEvent⟩ := List.getElem?_eq_some_iff.mp hEvent
      refine ⟨past.take i, ⟨cf, key⟩, found, past.drop (i + 1), ?_, hLate⟩
      rw [← hEvent, List.getElem_cons_drop, List.take_append_drop]
    · cases hAt

instance (past : List (Op × Reply)) (t : TxnId) : Decidable (ReadsLate past t) :=
  decidable_of_iff _ readsLate_iff.symm

section Journals
variable {j : List News} {n : News} {t u : TxnId} {past : List (Op × Reply)} {event : Op × Reply}
  {k : Z1Key}

theorem overtakes_concat : Overtakes (j ++ [n]) u t ↔
    Overtakes j u t ∨ n = .committed u ∧ .began t ∈ j ∧ .committed t ∉ j ∧ t ≠ u := by
  constructor
  · rintro ⟨before, after, hSplit, hBegan, hOpen, hNe⟩
    rcases concat_eq_split_iff.mp hSplit with ⟨rfl, hLast, -⟩ | ⟨rest, rfl, rfl⟩
    · exact Or.inr ⟨hLast, hBegan, hOpen, hNe⟩
    · exact Or.inl ⟨before, rest, rfl, hBegan, hOpen, hNe⟩
  · rintro (⟨before, after, rfl, hRest⟩ | ⟨rfl, hBegan, hOpen, hNe⟩)
    · exact ⟨before, after ++ [n], by simp, hRest⟩
    · exact ⟨j, [], rfl, hBegan, hOpen, hNe⟩

theorem Overtakes.committedSince (h : Overtakes j u t) : CommittedSince j t u := by
  obtain ⟨before, after, rfl, hBegan, -⟩ := h
  obtain ⟨b, hb⟩ := List.mem_iff_getElem?.mp hBegan
  have hLt := lt_length_of_getElem?_eq_some hb
  exact ⟨b, before.length, by rw [List.getElem?_append_left hLt, hb], by simp, hLt⟩

theorem readsKey_concat : ReadsKey (past ++ [event]) t k ↔
    ReadsKey past t k ∨ ∃ found, event = (.getForTxn k.cf k.key t, .value found) := by
  simp only [ReadsKey, List.mem_append, List.mem_singleton, exists_or, eq_comm]

theorem readsLate_concat : ReadsLate (past ++ [event]) t ↔ ReadsLate past t ∨
    ∃ k found, event = (.getForTxn k.cf k.key t, .value found) ∧ ¬ Watched (journal past) t k := by
  constructor
  · rintro ⟨before, k, found, after, hSplit, hLate⟩
    rcases concat_eq_split_iff.mp hSplit with ⟨rfl, hLast, -⟩ | ⟨rest, rfl, rfl⟩
    · exact Or.inr ⟨k, found, hLast, hLate⟩
    · exact Or.inl ⟨before, k, found, rest, rfl, hLate⟩
  · rintro (⟨before, k, found, after, rfl, hLate⟩ | ⟨k, found, rfl, hLate⟩)
    · exact ⟨before, k, found, after ++ [event], by simp, hLate⟩
    · exact ⟨past, k, found, [], rfl, hLate⟩

end Journals

namespace ReadsNoticed
variable {codec : Codec} {base : TxnId} {past : List (Op × Reply)} {db : Engine} {op : Op}

/-- The reads of an active transaction are in its read set. -/
theorem recorded_step (h : ReadsNoticed past db.mvcc)
    (hLedger : Ledger base (journal past) db.mvcc db.txnCounter)
    (hBegan : ∀ t k, ReadsKey past t k → .began t ∈ journal past) {reply : Reply}
    {mvcc : VisibilityManager} (hEffect : db.MvccEffect op reply mvcc) {t : TxnId} {k : Z1Key}
    {txn : TxnMeta} (hReads : ReadsKey (past ++ [(op, reply)]) t k)
    (hLookup : AList.lookup t mvcc.activeTxns = some txn) :
    conflictKey k.cf k.key ∈ txn.readKeys := by
  have hOld : (∀ found, (op, reply) ≠ (.getForTxn k.cf k.key t, .value found)) → ReadsKey past t k :=
    fun hNot => (readsKey_concat.mp hReads).resolve_right fun ⟨found, hEq⟩ => hNot found hEq
  have hErased : ∀ txnId, AList.lookup t (AList.erase txnId db.mvcc.activeTxns) = some txn →
      AList.lookup t db.mvcc.activeTxns = some txn := by
    intro txnId hLookup
    by_cases hTxn : t = txnId
    · subst hTxn
      simp at hLookup
    · rwa [AList.lookup_erase_ne hTxn] at hLookup
  cases hEffect with
  | @begun txnId mvcc hBegin hId =>
      obtain ⟨-, -, rfl⟩ := VisibilityManager.beginTxn_eq_ok hBegin
      have hRead := hOld (by simp)
      have hNe : t ≠ txnId := by
        rintro rfl
        exact absurd (hLedger.began t (hBegan t k hRead)).2 (Nat.not_lt.mpr hId)
      dsimp only at hLookup
      rw [AList.lookup_insert_ne hNe] at hLookup
      exact h.recorded t k txn hRead hLookup
  | wrote =>
      obtain ⟨old, hWas, ⟨-, rfl⟩ | ⟨-, rfl⟩⟩ := VisibilityManager.lookup_modifyActive hLookup
      · exact h.recorded t k old (hOld (by simp)) hWas
      · exact h.recorded t k txn (hOld (by simp)) hWas
  | @read cf key txnId found =>
      obtain ⟨old, hWas, ⟨rfl, rfl⟩ | ⟨hNe, rfl⟩⟩ := VisibilityManager.lookup_modifyActive hLookup
      · rcases readsKey_concat.mp hReads with hRead | ⟨found', hEq⟩
        · exact List.mem_insert_of_mem (h.recorded t k old hRead hWas)
        · simp only [Prod.mk.injEq, Op.getForTxn.injEq] at hEq
          obtain ⟨⟨rfl, rfl, -⟩, -⟩ := hEq
          exact List.mem_insert_self
      · refine h.recorded t k txn (hOld fun found' hEq => hNe ?_) hWas
        simp only [Prod.mk.injEq, Op.getForTxn.injEq] at hEq
        exact hEq.1.2.2.symm
  | committed =>
      rw [VisibilityManager.committed_activeTxns] at hLookup
      exact h.recorded t k txn (hOld (by simp)) (hErased _ hLookup)
  | conflicted => exact h.recorded t k txn (hOld (by simp)) (hErased _ hLookup)
  | rolledBack => exact h.recorded t k txn (hOld (by simp)) (hErased _ hLookup)
  | failed => exact h.recorded t k txn (hOld (by simp)) hLookup
  | idle _ _ hNoRead =>
      exact h.recorded t k txn (hOld fun found hEq => hNoRead _ _ _ (Prod.mk.inj hEq).1) hLookup

/-- A commit that overtakes a reader of its keys is refused while the reader is active. -/
theorem not_overtaken (h : ReadsNoticed past db.mvcc)
    (hLedger : Ledger base (journal past) db.mvcc db.txnCounter) {n : News} {m : VisibilityManager}
    (hStep : JournalStep db.mvcc db.txnCounter n m) {t : TxnId} {w : Z1Entry}
    (hReads : ReadsKey past t w.key) (hWrote : .wrote w ∈ journal past)
    (hActive : t ∈ db.mvcc.activeTxns) (hNe : t ≠ w.txnId) : n ≠ .committed w.txnId := by
  rintro rfl
  cases hStep with
  | @committed _ txn env hLookup hSsi =>
      obtain ⟨other, hOther⟩ := FinMap.mem_iff_lookup.mp hActive
      refine VisibilityManager.ssiConflict_eq_none.mp hSsi t other hNe hOther ?_
      exact Or.inr ⟨_, hLedger.recorded w txn hWrote hLookup, Or.inl (h.recorded t _ other hReads hOther)⟩

theorem step (h : ReadsNoticed past db.mvcc)
    (hLedger : Ledger base (journal past) db.mvcc db.txnCounter)
    (hBegan : ∀ t k, ReadsKey past t k → .began t ∈ journal past)
    (hWrites : ∀ e, op.write? = some e → e.txnId ∈ db.mvcc.activeTxns → ¬ ReadsLate past e.txnId)
    (hReads : ∀ k t, op = .getForTxn k.cf k.key t → writesOf (journal past) t ≠ [] →
      Watched (journal past) t k) :
    ReadsNoticed (past ++ [(op, (db.step codec op).1)]) (db.step codec op).2.mvcc := by
  have hEffect := db.step_mvcc codec op
  have hStep := hEffect.journalStep
  refine ⟨fun t k txn => h.recorded_step hLedger hBegan hEffect, ?_, fun t hLate => ?_⟩
  · intro t k w hRead hWrote hKey hPresent hOvertakes
    subst hKey
    rw [journal_concat] at hWrote hPresent hOvertakes
    -- the writer is not the one that writes just now: it has committed
    have hWrote : .wrote w ∈ journal past := by
      refine (mem_concat_wrote hWrote).resolve_right fun hNews => ?_
      rcases overtakes_concat.mp hOvertakes with hOld | ⟨hEq, -⟩
      · rw [hNews] at hStep
        exact (hLedger.committed _ hOld.committedSince.committed).1 hStep.writer
      · rw [hNews] at hEq
        cases hEq
    rcases readsKey_concat.mp hRead with hRead | ⟨found, hEq⟩
    · refine readsLate_concat.mpr (Or.inl ?_)
      have hWas : t ∈ db.mvcc.activeTxns ∨ .committed t ∈ journal past := by
        rcases hPresent with hActive | hCommitted
        · refine Or.inl ((hStep.active hActive).resolve_right fun ⟨_, hFresh⟩ => ?_)
          exact absurd (hLedger.began t (hBegan t _ hRead)).2 (Nat.not_lt.mpr hFresh)
        · rcases List.mem_append.mp hCommitted with hOld | hNew
          · exact Or.inr hOld
          · obtain ⟨-, -, hActive, -⟩ := hEffect.commit_inv (List.mem_singleton.mp hNew).symm
            exact Or.inl hActive
      rcases overtakes_concat.mp hOvertakes with hOld | ⟨hNews, -, hOpen, hNe⟩
      · exact h.noticed t _ w hRead hWrote rfl hWas hOld
      · exact absurd hNews (h.not_overtaken hLedger hStep hRead hWrote (hWas.resolve_right hOpen) hNe)
    · refine readsLate_concat.mpr (Or.inr ⟨_, found, hEq, fun hWatched => ?_⟩)
      rw [hEq] at hOvertakes
      have hOld := (overtakes_concat.mp hOvertakes).resolve_right fun hNew => by cases hNew.1
      exact hWatched w hWrote rfl hOld.committedSince
  · rw [journal_concat, writesOf_concat]
    rcases readsLate_concat.mp hLate with hOld | ⟨k, found, hEq, hLate⟩
    · split
      · next e hNews =>
        rw [if_neg, h.readOnly t hOld]
        rintro rfl
        rw [hNews] at hStep
        exact hWrites e (entry_of_news hNews) hStep.writer hOld
      · exact h.readOnly t hOld
    · rw [hEq]
      by_contra hWrote
      exact hLate (hReads k t (Prod.mk.inj hEq).1 hWrote)

theorem nil (m : VisibilityManager) : ReadsNoticed [] m := by
  refine ⟨fun t k txn hReads => ?_, fun t k w hReads => ?_, fun t _ => rfl⟩
  · obtain ⟨found, hIn⟩ := hReads
    cases hIn
  · obtain ⟨found, hIn⟩ := hReads
    cases hIn

end ReadsNoticed
end Z1Kv
