import Z1Kv.Txn.Eviction
import Z1Kv.Txn.Journal
import Z1Kv.Txn.Ttl

/-! Lost updates. The SSI check compares a commit with the transactions that are
still active, so a key that another transaction wrote and committed earlier goes
unnoticed; and reads go by transaction id, not by commit order. -/
namespace Z1Kv

/-- Nobody who committed since this transaction began has written the key. -/
def Watched (j : List News) (t : TxnId) (k : Z1Key) : Prop :=
  ∀ w, .wrote w ∈ j → w.key = k → ¬ CommittedSince j t w.txnId

theorem watched_iff {j : List News} {t : TxnId} {k : Z1Key} : Watched j t k ↔ j.all (fun
    | .wrote w => decide (w.key = k → ¬ CommittedSince j t w.txnId)
    | _ => true) := by
  rw [List.all_eq_true]
  constructor
  · intro h n hn
    cases n with
    | wrote w => exact decide_eq_true (h w hn)
    | _ => rfl
  · intro h w hw
    exact of_decide_eq_true (h _ hw)

instance (j : List News) (t : TxnId) (k : Z1Key) : Decidable (Watched j t k) :=
  decidable_of_iff _ watched_iff.symm

/-- Nobody who committed since this writer began has written the key. -/
def NoLateWrite (j : List News) (e : Z1Entry) : Prop := Watched j e.txnId e.key

/-- Of two transactions that each committed after the other one began, no key was
written by both. -/
def FirstCommitterWins (j : List News) : Prop :=
  ∀ w w', .wrote w ∈ j → .wrote w' ∈ j → w.key = w'.key → w.txnId ≠ w'.txnId →
    ¬ (CommittedSince j w.txnId w'.txnId ∧ CommittedSince j w'.txnId w.txnId)

/-- An active transaction has written no key that someone wrote who committed
since it began. -/
structure Exclusive (j : List News) (m : VisibilityManager) : Prop where
  apart : ∀ w w', .wrote w ∈ j → .wrote w' ∈ j → w.key = w'.key → w.txnId ∈ m.activeTxns →
    ¬ CommittedSince j w.txnId w'.txnId
  first : FirstCommitterWins j

theorem Exclusive.step_began {base txnCounter txnId : TxnId} {j : List News}
    {m m' : VisibilityManager} (h : Exclusive j m) (hLedger : Ledger base j m txnCounter)
    (hBegin : m.beginTxn txnId = .ok m') (hId : txnCounter ≤ txnId) :
    Exclusive (j ++ [.began txnId]) m' := by
  obtain ⟨-, -, rfl⟩ := VisibilityManager.beginTxn_eq_ok hBegin
  have hOld : ∀ {w}, News.wrote w ∈ j ++ [.began txnId] → .wrote w ∈ j :=
    fun hw => (mem_concat_wrote hw).resolve_right (by simp)
  have hSince : ∀ {t u}, CommittedSince (j ++ [.began txnId]) t u → CommittedSince j t u :=
    fun hs => (committedSince_concat.mp hs).resolve_right (by simp)
  refine ⟨fun w w' hw hw' hKey hActive hs => ?_, fun w w' hw hw' hKey hNe ⟨hs, hs'⟩ =>
    h.first w w' (hOld hw) (hOld hw') hKey hNe ⟨hSince hs, hSince hs'⟩⟩
  rcases (AList.mem_insert _).mp hActive with hNew | hActive
  · exact absurd (hLedger.began _ (hSince hs).began).2 (Nat.not_lt.mpr (hNew ▸ hId))
  · exact h.apart w w' (hOld hw) (hOld hw') hKey hActive (hSince hs)

theorem Exclusive.step_wrote {base txnCounter : TxnId} {j : List News} {m m' : VisibilityManager}
    {e : Z1Entry} (h : Exclusive j m) (hLedger : Ledger base j m txnCounter)
    (hActive : e.txnId ∈ m.activeTxns) (hSame : ∀ t ∈ m'.activeTxns, t ∈ m.activeTxns)
    (hLate : NoLateWrite j e) : Exclusive (j ++ [.wrote e]) m' := by
  have hSince : ∀ {t u}, CommittedSince (j ++ [.wrote e]) t u → CommittedSince j t u :=
    fun hs => (committedSince_concat.mp hs).resolve_right (by simp)
  -- the writer is active, so it has not committed
  have hOpen : ∀ {t}, ¬ CommittedSince j t e.txnId :=
    fun hs => (hLedger.committed _ hs.committed).1 hActive
  constructor
  · intro w w' hw hw' hKey hIn hs
    rcases mem_concat_wrote hw' with hw' | hw'
    · rcases mem_concat_wrote hw with hw | hw
      · exact h.apart w w' hw hw' hKey (hSame _ hIn) (hSince hs)
      · obtain rfl := News.wrote.inj hw
        exact hLate w' hw' hKey.symm (hSince hs)
    · obtain rfl := News.wrote.inj hw'
      exact hOpen (hSince hs)
  · rintro w w' hw hw' hKey hNe ⟨hs, hs'⟩
    rcases mem_concat_wrote hw with hw | hw
    · rcases mem_concat_wrote hw' with hw' | hw'
      · exact h.first w w' hw hw' hKey hNe ⟨hSince hs, hSince hs'⟩
      · obtain rfl := News.wrote.inj hw'
        exact hOpen (hSince hs)
    · obtain rfl := News.wrote.inj hw
      exact hOpen (hSince hs')

theorem Exclusive.step_committed {base txnCounter txnId : TxnId} {j : List News}
    {m m' : VisibilityManager} {order : HashOrder} {txn : TxnMeta} (h : Exclusive j m)
    (hLedger : Ledger base j m txnCounter) (hLookup : AList.lookup txnId m.activeTxns = some txn)
    (hSsi : m.ssiConflict order txnId txn = none)
    (hActive : m'.activeTxns = AList.erase txnId m.activeTxns) :
    Exclusive (j ++ [.committed txnId]) m' := by
  have hOld : ∀ {w}, News.wrote w ∈ j ++ [.committed txnId] → .wrote w ∈ j :=
    fun hw => (mem_concat_wrote hw).resolve_right (by simp)
  have hSince : ∀ {t u}, CommittedSince (j ++ [.committed txnId]) t u →
      CommittedSince j t u ∨ u = txnId :=
    fun hs => (committedSince_concat.mp hs).imp_right fun hNew => (News.committed.inj hNew.1).symm
  have hWas : txnId ∈ m.activeTxns := FinMap.mem_iff_lookup.mpr ⟨txn, hLookup⟩
  constructor
  · intro w w' hw hw' hKey hIn hs
    rw [hActive, AList.mem_erase] at hIn
    rcases hSince hs with hs | rfl
    · exact h.apart w w' (hOld hw) (hOld hw') hKey hIn.2 hs
    · -- both active with the key written: the check would have failed
      obtain ⟨other, hOther⟩ := FinMap.mem_iff_lookup.mp hIn.2
      refine VisibilityManager.ssiConflict_eq_none.mp hSsi w.txnId other hIn.1 hOther ?_
      have hMine := hLedger.recorded w' txn (hOld hw') hLookup
      have hTheirs := hLedger.recorded w other (hOld hw) hOther
      rw [hKey] at hTheirs
      exact Or.inr ⟨_, hMine, Or.inr hTheirs⟩
  · rintro w w' hw hw' hKey hNe ⟨hs, hs'⟩
    rcases hSince hs with hs | hNew
    · rcases hSince hs' with hs' | hNew'
      · exact h.first w w' (hOld hw) (hOld hw') hKey hNe ⟨hs, hs'⟩
      · exact h.apart w w' (hOld hw) (hOld hw') hKey (hNew' ▸ hWas) hs
    · rcases hSince hs' with hs' | hNew'
      · exact h.apart w' w (hOld hw') (hOld hw) hKey.symm (hNew ▸ hWas) hs'
      · exact hNe (hNew'.trans hNew.symm)

theorem Exclusive.step {base txnCounter : TxnId} {j : List News} {m m' : VisibilityManager} {n : News}
    (h : Exclusive j m) (hLedger : Ledger base j m txnCounter)
    (hStep : JournalStep m txnCounter n m') (hLate : ∀ e, n = .wrote e → NoLateWrite j e) :
    Exclusive (j ++ [n]) m' := by
  cases hStep with
  | began hBegin hId => exact h.step_began hLedger hBegin hId
  | @wrote e hActive =>
      exact h.step_wrote hLedger hActive (fun t ht => VisibilityManager.mem_modifyActive.mp ht)
        (hLate e rfl)
  | committed env hLookup hSsi =>
      exact h.step_committed hLedger hLookup hSsi (VisibilityManager.committed_activeTxns _ _ _ _ _ _)
  | other hHistory hActive =>
      have hOld : ∀ {w}, News.wrote w ∈ j ++ [.other] → .wrote w ∈ j :=
        fun hw => (mem_concat_wrote hw).resolve_right (by simp)
      have hSince : ∀ {t u}, CommittedSince (j ++ [.other]) t u → CommittedSince j t u :=
        fun hs => (committedSince_concat.mp hs).resolve_right (by simp)
      refine ⟨fun w w' hw hw' hKey hIn hs => ?_, fun w w' hw hw' hKey hNe ⟨hs, hs'⟩ =>
        h.first w w' (hOld hw) (hOld hw') hKey hNe ⟨hSince hs, hSince hs'⟩⟩
      obtain ⟨txn, hLookup⟩ := FinMap.mem_iff_lookup.mp hIn
      obtain ⟨old, hOldTxn, -⟩ := hActive _ txn hLookup
      exact h.apart w w' (hOld hw) (hOld hw') hKey (FinMap.mem_iff_lookup.mpr ⟨old, hOldTxn⟩) (hSince hs)

/-- The last write of a transaction to a key. -/
def LastWrite (j : List News) (w : Z1Entry) : Prop :=
  LastOf (fun n => ∃ w', n = .wrote w' ∧ w'.id = w.id) j (.wrote w)

/-- The transaction that committed last. -/
def LastCommit (j : List News) (t : TxnId) : Prop :=
  LastOf (fun n => ∃ u, n = .committed u) j (.committed t)

/-- A call after which a fresh commit should be readable. A write goes to a key
that nobody who committed since the writer began has written, and to a version
that was not flushed; a commit does not evict its own entry, and its compaction
gives up none of its versions. -/
structure Orderly (codec : Codec) (past : List (Op × Reply)) (db : Engine) (op : Op) : Prop where
  writes : ∀ e, op.write? = some e → NoLateWrite (journal past) e
  unflushed : ∀ e, op.write? = some e → ∀ copy ∈ db.store.beyondHot, copy.id ≠ e.id
  keepsOwn : ∀ txnId env, op = .commit txnId env →
    let m := db.mvcc.enterCommit txnId env.ts env.insertedAt
    m.overflow ≤ m.enteredBefore env.insertedAt ∧
      (m.ttlCheckDue env.nowMs = true → m.cutoff env.nowMs ≤ env.insertedAt)
  survive : ∀ s watermark, db.compaction? codec op = some (s, watermark) →
    ∀ e ∈ s.held, (∃ env, op = .commit e.txnId env) → s.Survives watermark e
  auto : ∀ writes watermark, op ≠ .compact writes watermark

/-- The layers hold what the journal says: old versions, and the last writes of
active transactions and of the one that committed last. -/
structure Latest (base : TxnId) (j : List News) (db : Engine) : Prop where
  written : Written (·.txnId ≤ base) j db
  retained : ∀ w, LastWrite j w → w.txnId ∈ db.mvcc.activeTxns → db.store.Retains w
  latest : ∀ t, LastCommit j t → t ∈ db.mvcc.committedHistory ∧
    ∀ w, LastWrite j w → w.txnId = t → db.store.Retains w

section
variable {codec : Codec} {base : TxnId} {past : List (Op × Reply)} {db : Engine} {op : Op}

/-- A version stays as it is through a call that does not write it. -/
theorem retains_step {w : Z1Entry} (h : db.store.Retains w)
    (hWrite : ∀ e, op.write? = some e → e.txnId ∈ db.mvcc.activeTxns → w.id ≠ e.id)
    (hSurvive : ∀ s watermark, s.Retains w → db.compaction? codec op = some (s, watermark) →
      s.Survives watermark w) : (db.step codec op).2.store.Retains w := by
  refine @Engine.step_store codec db op (fun s => s.Retains w) h ?_ ?_ ?_
  · exact fun e hEntry hActive => h.write (hWrite e hEntry hActive)
  · exact fun s writes hRetains => hRetains.flush writes
  · exact fun s watermark s' hRetains hPoint hCompacted =>
      hRetains.compacted hCompacted (hSurvive s watermark hRetains hPoint)

/-- A call that spares the last writes of the active transactions and of the one
that committed last. A write agrees with what was flushed of its version, a commit
does not evict its own entry, and a compaction gives up none of these writes. -/
structure Sparing (codec : Codec) (past : List (Op × Reply)) (db : Engine) (op : Op) : Prop where
  rewrites : ∀ e, op.write? = some e → ∀ copy ∈ db.store.beyondHot, copy.id = e.id → copy = e
  keepsOwn : ∀ txnId env, op = .commit txnId env →
    let m := db.mvcc.enterCommit txnId env.ts env.insertedAt
    m.overflow ≤ m.enteredBefore env.insertedAt ∧
      (m.ttlCheckDue env.nowMs = true → m.cutoff env.nowMs ≤ env.insertedAt)
  survive : ∀ s watermark, db.compaction? codec op = some (s, watermark) → ∀ e ∈ s.settled,
    e.txnId ∈ db.mvcc.activeTxns ∨
      LastCommit (journal past) e.txnId ∧ (∀ txnId env, op ≠ .commit txnId env) →
    s.Survives watermark e

/-- The automatic compaction of a commit runs at or below every transaction that
is still active. -/
theorem survives_of_active {s : Store} {watermark : TxnId} {e : Z1Entry}
    (hLedger' : Ledger base (journal past ++ [news (op, (db.step codec op).1)])
      (db.step codec op).2.mvcc (db.step codec op).2.txnCounter)
    (hAuto : ∀ writes watermark, op ≠ .compact writes watermark)
    (hPoint : db.compaction? codec op = some (s, watermark)) (he : e ∈ s.settled)
    (hActive : e.txnId ∈ (db.step codec op).2.mvcc.activeTxns) : s.Survives watermark e := by
  obtain ⟨txnId, env, rfl, hDone, hLe⟩ := Engine.compaction?_auto hPoint hAuto
  obtain ⟨txn, hLookup⟩ := FinMap.mem_iff_lookup.mp hActive
  have hTs := (hLedger'.active _ txn hLookup).1
  refine .of_le he (hLe.trans ?_)
  rw [← hTs]
  exact VisibilityManager.oldestActiveBeginTs_le hLookup

theorem Orderly.sparing (h : Orderly codec past db op)
    (hLedger' : Ledger base (journal past ++ [news (op, (db.step codec op).1)])
      (db.step codec op).2.mvcc (db.step codec op).2.txnCounter) : Sparing codec past db op := by
  refine ⟨fun e hEntry copy hCopy hId => absurd hId (h.unflushed e hEntry copy hCopy), h.keepsOwn, ?_⟩
  intro s watermark hPoint e he hSpared
  obtain ⟨txnId, env, hOp, hDone, -⟩ := Engine.compaction?_auto hPoint h.auto
  rcases hSpared with hWas | ⟨-, hNot⟩
  · by_cases hOwn : e.txnId = txnId
    · exact h.survive s watermark hPoint e (Store.mem_held.mpr (Or.inl he)) ⟨env, by rw [hOwn, hOp]⟩
    · have hNews : news (op, (db.step codec op).1) = .committed txnId := by rw [hDone, hOp]; rfl
      obtain ⟨env', -, -, hMvcc⟩ := (db.step_mvcc codec op).commit_inv hNews
      refine survives_of_active hLedger' h.auto hPoint he ?_
      rw [hMvcc, VisibilityManager.committed_activeTxns]
      exact AList.mem_erase.mpr ⟨hOwn, hWas⟩
  · exact absurd hOp (hNot txnId env)

/-- The last writes of active transactions stay in the layers. -/
theorem retained_step
    (hRetained : ∀ w, LastWrite (journal past) w → w.txnId ∈ db.mvcc.activeTxns → db.store.Retains w)
    (hLedger : Ledger base (journal past) db.mvcc db.txnCounter)
    (hRewrites : ∀ e, op.write? = some e → ∀ copy ∈ db.store.beyondHot, copy.id = e.id → copy = e)
    (hSurvive : ∀ s watermark, db.compaction? codec op = some (s, watermark) → ∀ e ∈ s.settled,
      e.txnId ∈ db.mvcc.activeTxns → e.txnId ∈ (db.step codec op).2.mvcc.activeTxns →
      s.Survives watermark e) {w : Z1Entry}
    (hLast : LastWrite (journal past ++ [news (op, (db.step codec op).1)]) w)
    (hActive : w.txnId ∈ (db.step codec op).2.mvcc.activeTxns) :
    (db.step codec op).2.store.Retains w := by
  have hStep := (db.step_mvcc codec op).journalStep
  rcases lastOf_concat.mp hLast with hNews | ⟨hOld, hOther⟩
  · have hEntry := entry_of_news hNews
    have hWas : w.txnId ∈ db.mvcc.activeTxns :=
      (hStep.active hActive).resolve_right fun hBegan => by simp [hNews] at hBegan
    rw [(Engine.step_write codec hEntry hWas).2]
    exact .of_write (hRewrites w hEntry)
  · have hBegan : .began w.txnId ∈ journal past := by
      obtain ⟨before, after, hSplit, -⟩ := hOld
      exact hLedger.writers w (by simp [hSplit])
    have hWas : w.txnId ∈ db.mvcc.activeTxns :=
      (hStep.active hActive).resolve_right fun hNew =>
        absurd (hLedger.began _ hBegan).2 (Nat.not_lt.mpr hNew.2)
    refine retains_step (hRetained w hOld hWas) ?_ ?_
    · intro e hEntry hIn hId
      exact hOther ⟨e, news_step codec hEntry hIn, hId.symm⟩
    · exact fun s watermark hRetains hPoint =>
        hSurvive s watermark hPoint w hRetains.isSettled hWas hActive

section
variable (hLatest : Latest base (journal past) db)
  (hLedger : Ledger base (journal past) db.mvcc db.txnCounter)
  (hSparing : Sparing codec past db op)

include hLatest hLedger hSparing in
theorem Latest.step_latest {t : TxnId}
    (hLast : LastCommit (journal past ++ [news (op, (db.step codec op).1)]) t) :
    t ∈ (db.step codec op).2.mvcc.committedHistory ∧
      ∀ w, LastWrite (journal past ++ [news (op, (db.step codec op).1)]) w → w.txnId = t →
        (db.step codec op).2.store.Retains w := by
  have hEffect := db.step_mvcc codec op
  rcases lastOf_concat.mp hLast with hNews | ⟨hOld, hOther⟩
  · obtain ⟨env, hOp, hWas, hMvcc⟩ := hEffect.commit_inv hNews
    obtain ⟨hCount, hTime⟩ := hSparing.keepsOwn t env hOp
    constructor
    · rw [hMvcc]
      exact VisibilityManager.mem_committed_of_lookup (db.mvcc.lookup_enterCommit t env.ts env.insertedAt)
        hCount hTime
    · rintro w hw rfl
      have hw : LastWrite (journal past) w :=
        ((lastOf_concat.mp hw).resolve_left (by simp [hNews])).1
      refine retains_step (hLatest.retained w hw hWas) ?_ ?_
      · intro e hEntry
        rw [hOp] at hEntry
        cases hEntry
      · exact fun s watermark hRetains hPoint =>
          hSparing.survive s watermark hPoint w hRetains.isSettled (Or.inl hWas)
  · have hNot : ∀ u, news (op, (db.step codec op).1) ≠ .committed u := fun u hu => hOther ⟨u, hu⟩
    obtain ⟨hIn, hRetained⟩ := hLatest.latest t hOld
    have hEnded : t ∉ db.mvcc.activeTxns := by
      obtain ⟨before, after, hSplit, -⟩ := hOld
      exact (hLedger.committed t (by simp [hSplit])).1
    constructor
    · rw [hEffect.journalStep.history hNot]
      exact hIn
    · rintro w hw rfl
      rcases lastOf_concat.mp hw with hNews | ⟨hw, hSame⟩
      · have hStep := hEffect.journalStep
        rw [hNews] at hStep
        exact absurd hStep.writer hEnded
      · refine retains_step (hRetained w hw rfl) ?_ ?_
        · exact fun e hEntry hActive hId => hSame ⟨e, news_step codec hEntry hActive, hId.symm⟩
        · intro s watermark hRetains hPoint
          refine hSparing.survive s watermark hPoint w hRetains.isSettled (Or.inr ⟨hOld, ?_⟩)
          -- a commit with a compaction has succeeded, and was the last one
          rintro txnId env rfl
          obtain ⟨-, -, -, hDone, -⟩ := Engine.compaction?_auto hPoint (by simp)
          exact hNot txnId (by rw [hDone]; rfl)

include hLatest hLedger hSparing in
theorem Latest.step : Latest base (journal past ++ [news (op, (db.step codec op).1)])
    (db.step codec op).2 :=
  ⟨hLatest.written.step codec op,
    fun _ hw hActive => retained_step hLatest.retained hLedger hSparing.rewrites
      (fun s watermark hPoint e he hWas _ => hSparing.survive s watermark hPoint e he (Or.inl hWas)) hw
      hActive,
    fun _ ht => hLatest.step_latest hLedger hSparing ht⟩

end
end

theorem not_lastOf_nil {α : Type} {same : α → Prop} {x : α} : ¬ LastOf same [] x := by
  rintro ⟨before, after, hSplit, -⟩
  simp at hSplit

/-- The journal, the manager and the layers agree, with no lost update so far. -/
structure InStep (base : TxnId) (past : List (Op × Reply)) (db : Engine) : Prop where
  sound : db.Sound
  ledger : Ledger base (journal past) db.mvcc db.txnCounter
  exclusive : Exclusive (journal past) db.mvcc
  latest : Latest base (journal past) db

namespace InStep
variable {codec : Codec} {base : TxnId} {past : List (Op × Reply)} {db : Engine} {op : Op}

theorem of_open {maxFileSize : Nat} {env : OpenEnv} {config : Z1Config} {dir : DataDir}
    (h : Engine.openWithConfig codec maxFileSize env config dir = .ok db)
    (hFresh : ∀ e ∈ db.store.held, e.txnId ≤ db.mvcc.committedTxn) :
    InStep db.mvcc.committedTxn [] db := by
  refine ⟨Engine.sound_of_open h, .of_open h, ⟨by simp [journal], by simp [FirstCommitterWins, journal]⟩,
    ⟨fun e he => Or.inl (hFresh e (Engine.stored_of_open h he)),
      fun w hw => absurd hw not_lastOf_nil,
      fun t ht => absurd ht not_lastOf_nil⟩⟩

theorem step (h : InStep base past db) (hOrderly : Orderly codec past db op) :
    InStep base (past ++ [(op, (db.step codec op).1)]) (db.step codec op).2 := by
  have hEffect := db.step_mvcc codec op
  have hLedger := h.ledger.step_call codec op
  have hExclusive := h.exclusive.step h.ledger hEffect.journalStep fun e he =>
    hOrderly.writes e (entry_of_news he)
  refine ⟨h.sound.step op, ?_, ?_, ?_⟩
  · rwa [journal_concat]
  · rwa [journal_concat]
  · rw [journal_concat]
    exact h.latest.step h.ledger (hOrderly.sparing hLedger)

/-- What the last commit wrote is what a get returns. -/
theorem get (h : InStep base past db) {w : Z1Entry} (hCommit : LastCommit (journal past) w.txnId)
    (hWrite : LastWrite (journal past) w) : (db.get w.key.cf w.key.key).1 = w.value := by
  obtain ⟨hIn, hRetained⟩ := h.latest.latest _ hCommit
  obtain ⟨entry, hEntry⟩ := FinMap.mem_iff_lookup.mp hIn
  have hReadable : db.Readable w entry := ⟨hEntry, hRetained w hWrite rfl⟩
  rcases hReadable.get h.sound with hGet | ⟨newer, hHeld, hKey, hLt, hNewer, -⟩
  · exact hGet
  · exfalso
    have hMem : .wrote w ∈ journal past := by
      obtain ⟨before, after, hSplit, -⟩ := hWrite
      simp [hSplit]
    have hBegan := h.ledger.writers w hMem
    have hAbove := (h.ledger.began _ hBegan).1
    -- the newer version is of this session and of a committed transaction
    have hMem' := (h.latest.written.held hHeld).resolve_left fun hOld =>
      absurd (hOld.trans_lt (hAbove.trans hLt)) (lt_irrefl _)
    have hCommitted := (h.ledger.history _ hNewer).resolve_left fun hOld =>
      absurd (hOld.trans_lt (hAbove.trans hLt)) (lt_irrefl _)
    obtain ⟨b, c, hb, hc, hbc⟩ := (h.ledger.committed _ hCommitted).2
    obtain ⟨a, ha⟩ := List.mem_iff_getElem?.mp hBegan
    obtain ⟨last, hLast, hLater⟩ := hCommit.position
    have hab := h.ledger.ordered _ _ a b ha hb hLt
    have hcLast := hLater c _ hc ⟨_, rfl⟩
    refine h.exclusive.first w newer hMem hMem' hKey.symm hLt.ne ⟨?_, ?_⟩
    · exact ⟨a, c, ha, hc, hab.trans hbc⟩
    · exact ⟨b, last, hb, hLast, hbc.trans_le hcLast⟩

end InStep

/-- Of two overlapping transactions that wrote a key at most one commits, and after
a commit, until the next one, every key it wrote reads as it wrote it last. -/
theorem no_lost_update {codec : Codec} {maxFileSize : Nat} {env : OpenEnv} {config : Z1Config}
    {dir : DataDir} {db : Engine} {ops : List Op}
    (hOpen : Engine.openWithConfig codec maxFileSize env config dir = .ok db)
    (hFresh : ∀ e ∈ db.store.held, e.txnId ≤ db.mvcc.committedTxn)
    (hMeets : EachMeets (Engine.step codec) (Orderly codec) [] db ops) :
    FirstCommitterWins (journal (db.run codec ops).1) ∧
      ∀ w, LastCommit (journal (db.run codec ops).1) w.txnId →
        LastWrite (journal (db.run codec ops).1) w →
          ((db.run codec ops).2.get w.key.cf w.key.key).1 = w.value := by
  have hEnd : InStep db.mvcc.committedTxn (db.run codec ops).1 (db.run codec ops).2 := by
    have hRun := runs_invariant (InStep db.mvcc.committedTxn) (Orderly codec)
      (fun _ _ _ hIn hOrderly => hIn.step hOrderly) (InStep.of_open hOpen hFresh) hMeets
    simpa using hRun
  exact ⟨hEnd.exclusive.first, fun w hCommit hWrite => hEnd.get hCommit hWrite⟩

/-- A call that evidently is in order: all copies are hot and nothing is compacted. -/
def inOrder (codec : Codec) (past : List (Op × Reply)) (db : Engine) : Op → Bool
  | .put cf key _ t =>
      decide (Watched (journal past) t ⟨cf, key⟩) && db.store.beyondHot.isEmpty
  | .commit t env =>
      (db.compaction? codec (.commit t env)).isNone &&
        decide ((db.mvcc.enterCommit t env.ts env.insertedAt).overflow ≤
            (db.mvcc.enterCommit t env.ts env.insertedAt).enteredBefore env.insertedAt ∧
          (db.mvcc.enterCommit t env.ts env.insertedAt).cutoff env.nowMs ≤ env.insertedAt)
  | .delete .. | .compact .. => false
  | _ => true

theorem Orderly.of_inOrder {codec : Codec} {past : List (Op × Reply)} {db : Engine} {op : Op}
    (h : inOrder codec past db op = true) : Orderly codec past db op := by
  cases op with
  | put cf key value t =>
      obtain ⟨hWatched, hBeyond⟩ := Bool.and_eq_true_iff.mp h
      have hWatched := of_decide_eq_true hWatched
      have hBeyond := List.isEmpty_iff.mp hBeyond
      refine ⟨fun e hOp => ?_, by simp [hBeyond], by simp, by simp [Engine.compaction?], by simp⟩
      obtain rfl := Option.some.inj hOp
      exact hWatched
  | commit t env =>
      obtain ⟨hNone, hOwn⟩ := Bool.and_eq_true_iff.mp h
      obtain ⟨hCount, hTime⟩ := of_decide_eq_true hOwn
      have hNone := Option.isNone_iff_eq_none.mp hNone
      refine ⟨by simp [Op.write?], by simp [Op.write?], fun u env' hOp => ?_, by simp [hNone], by simp⟩
      obtain ⟨rfl, rfl⟩ := Op.commit.inj hOp
      exact ⟨hCount, fun _ => hTime⟩
  | delete => cases h
  | compact => cases h
  | _ => constructor <;> simp [Op.write?, Engine.compaction?]

/-- Two overlapping transactions write one key; the first one to commit is refused. -/
def refusedRun : List Op :=
  [.begin, .begin, .put 0 [107] [1] 1, .put 0 [107] [2] 2, .commit 1 ⟨0, 0, 0, .listed, .succeed⟩,
    .commit 2 ⟨0, 0, 0, .listed, .succeed⟩]

theorem other_writer_is_refused :
    ∃ db, Engine.openWithConfig Postcard.codec engineSegmentSize (.listed 0) {} {} = .ok db ∧
      (db.run Postcard.codec refusedRun).1.map Prod.snd = [.began 1, .began 2, .done, .done,
        .failed (.mvccConflict (.ssiConflict 1 2 false true)), .done] ∧
      FirstCommitterWins (journal (db.run Postcard.codec refusedRun).1) ∧
      ((db.run Postcard.codec refusedRun).2.get 0 [107]).1 = some [2] := by
  have hRun : (Engine.openWithConfig Postcard.codec engineSegmentSize (.listed 0) {} {}).toOption.map
      (fun db => (db.store.held, (db.run Postcard.codec refusedRun).1.map Prod.snd,
        journal (db.run Postcard.codec refusedRun).1,
        decide (EachMeets (Engine.step Postcard.codec)
          (fun past db op => inOrder Postcard.codec past db op = true) [] db refusedRun))) =
        some ([], [.began 1, .began 2, .done, .done,
          .failed (.mvccConflict (.ssiConflict 1 2 false true)), .done],
          [.began 1, .began 2, .wrote ⟨⟨0, [107]⟩, 1, some [1]⟩, .wrote ⟨⟨0, [107]⟩, 2, some [2]⟩,
            .other, .committed 2], true) := by decide +kernel
  obtain ⟨db, hDb, hState⟩ := Option.map_eq_some_iff.mp hRun
  simp only [Prod.mk.injEq] at hState
  obtain ⟨hHeld, hReplies, hJournal, hMeets⟩ := hState
  have hOpen := ok_of_toOption hDb
  obtain ⟨hFirst, hReads⟩ := no_lost_update hOpen (by rw [hHeld]; simp)
    ((of_decide_eq_true hMeets).mono fun _ _ _ => Orderly.of_inOrder)
  refine ⟨db, hOpen, hReplies, hFirst, hReads ⟨⟨0, [107]⟩, 2, some [2]⟩ ?_ ?_⟩
  · rw [hJournal]
    exact ⟨[.began 1, .began 2, .wrote ⟨⟨0, [107]⟩, 1, some [1]⟩, .wrote ⟨⟨0, [107]⟩, 2, some [2]⟩,
      .other], [], rfl, by simp⟩
  · rw [hJournal]
    refine ⟨[.began 1, .began 2, .wrote ⟨⟨0, [107]⟩, 1, some [1]⟩], [.other, .committed 2], rfl, ?_⟩
    simp

/-- Two overlapping transactions; the one with the higher id commits first, the
other one writes the key after that. -/
def overlappingRun : List Op :=
  [.begin, .begin, .put 0 [107] [2] 2, .commit 2 ⟨0, 0, 0, .listed, .succeed⟩,
    .put 0 [107] [1] 1, .commit 1 ⟨0, 0, 0, .listed, .succeed⟩]

/-- Both commit, and the key does not read as the last commit wrote it. -/
theorem both_overlapping_commit :
    (¬ ∀ ops db, Engine.openWithConfig Postcard.codec engineSegmentSize (.listed 0) {} {} = .ok db →
      FirstCommitterWins (journal (db.run Postcard.codec ops).1)) ∧
    ¬ ∀ ops db, Engine.openWithConfig Postcard.codec engineSegmentSize (.listed 0) {} {} = .ok db →
      ∀ w, LastCommit (journal (db.run Postcard.codec ops).1) w.txnId →
        LastWrite (journal (db.run Postcard.codec ops).1) w →
          ((db.run Postcard.codec ops).2.get w.key.cf w.key.key).1 = w.value := by
  have hRun : (Engine.openWithConfig Postcard.codec engineSegmentSize (.listed 0) {} {}).toOption.map
      (fun db => (journal (db.run Postcard.codec overlappingRun).1,
        ((db.run Postcard.codec overlappingRun).2.get 0 [107]).1)) =
        some ([.began 1, .began 2, .wrote ⟨⟨0, [107]⟩, 2, some [2]⟩, .committed 2,
          .wrote ⟨⟨0, [107]⟩, 1, some [1]⟩, .committed 1], some [2]) := by decide +kernel
  obtain ⟨db, hDb, hState⟩ := Option.map_eq_some_iff.mp hRun
  simp only [Prod.mk.injEq] at hState
  obtain ⟨hJournal, hGet⟩ := hState
  have hOpen := ok_of_toOption hDb
  constructor
  · intro h
    have hFirst := h overlappingRun db hOpen
    rw [hJournal] at hFirst
    refine hFirst ⟨⟨0, [107]⟩, 2, some [2]⟩ ⟨⟨0, [107]⟩, 1, some [1]⟩ (by simp) (by simp) rfl
      (by decide) ⟨⟨1, 5, rfl, rfl, by decide⟩, ⟨0, 3, rfl, rfl, by decide⟩⟩
  · intro h
    have hRead := h overlappingRun db hOpen ⟨⟨0, [107]⟩, 1, some [1]⟩
    rw [hJournal, hGet] at hRead
    have hValue := hRead ⟨[.began 1, .began 2, .wrote ⟨⟨0, [107]⟩, 2, some [2]⟩, .committed 2,
      .wrote ⟨⟨0, [107]⟩, 1, some [1]⟩], [], rfl, by simp⟩
      ⟨[.began 1, .began 2, .wrote ⟨⟨0, [107]⟩, 2, some [2]⟩, .committed 2], [.committed 1], rfl, by simp⟩
    revert hValue
    decide

end Z1Kv
