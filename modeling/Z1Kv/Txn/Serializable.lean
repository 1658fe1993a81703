import Mathlib.Data.Set.Finite.Lemmas
import Z1Kv.Library.Serial
import Z1Kv.Txn.LateReads
import Z1Kv.Txn.Repeatable

/-! Serial orders of committed transactions. A transaction reads the state at its begin and
a key has the value of the highest transaction id; the SSI check knows only transactions
that are still active. Where it sees every conflict of the transactions that write, they
have the order of their commits, and those that only read the place of their begin. -/
namespace Z1Kv

/-- The committed transactions, in the order of their commits. -/
def committedOf (j : List News) : List TxnId :=
  j.filterMap fun n =>
    match n with
    | .committed t => some t
    | _ => none

/-- The value that a transaction leaves for a key. -/
def leaves (j : List News) (t : TxnId) (k : Z1Key) : Option (Option Bytes) :=
  ((writesOf j t).filter (·.key = k)).getLast?.map Z1Entry.value

/-- The second transaction had committed when the first one began. -/
def CommittedBefore (j : List News) (t u : TxnId) : Prop := .committed u ∈ j ∧ ¬ CommittedSince j t u

/-- The dependencies between committed transactions have no cycle. -/
def NoCycle (past : List (Op × Reply)) : Prop :=
  ∀ t, ¬ Relation.TransGen (fun a b => a ∈ committedOf (journal past) ∧ b ∈ committedOf (journal past) ∧
    DependsOn id (leaves (journal past)) (ReadsKey past) (CommittedBefore (journal past)) a b) t t

/-- There is an order of the committed transactions in which each of them has read the state
that those before it produce, and the last state is the one that all of them produce. -/
def Serializable (initial final : Z1Key → Option Bytes) (past : List (Op × Reply)) : Prop :=
  ∃ order : List TxnId, order.Perm (committedOf (journal past)) ∧
    (∀ before t after, order = before ++ t :: after → ∀ k found,
      (.getForTxn k.cf k.key t, .value found) ∈ past →
        found = produced (leaves (journal past)) initial before k) ∧
    ∀ k, final k = produced (leaves (journal past)) initial order k

section Journals
variable {j : List News} {n : News} {t u : TxnId} {k : Z1Key}

theorem mem_committedOf : t ∈ committedOf j ↔ .committed t ∈ j := by
  unfold committedOf
  rw [List.mem_filterMap]
  constructor
  · rintro ⟨n, hn, hEq⟩
    cases n with
    | committed u =>
        obtain rfl := Option.some.inj hEq
        exact hn
    | _ => cases hEq
  · exact fun hIn => ⟨.committed t, hIn, rfl⟩

theorem committedOf_concat : committedOf (j ++ [n]) =
    match n with
    | .committed t => committedOf j ++ [t]
    | _ => committedOf j := by
  unfold committedOf
  rw [List.filterMap_append]
  cases n <;> simp

theorem leaves_concat : leaves (j ++ [n]) t k =
    match n with
    | .wrote e => if e.txnId = t ∧ e.key = k then some e.value else leaves j t k
    | _ => leaves j t k := by
  unfold leaves
  rw [writesOf_concat]
  cases n with
  | wrote e =>
      by_cases hTxn : e.txnId = t
      · by_cases hKey : e.key = k
        · simp [hTxn, hKey, List.filter_append]
        · simp [hTxn, hKey, List.filter_append]
      · simp [hTxn]
  | _ => rfl

theorem lastWrite_concat {w : Z1Entry} : LastWrite (j ++ [n]) w ↔
    n = .wrote w ∨ LastWrite j w ∧ ¬ ∃ e, n = .wrote e ∧ e.id = w.id :=
  lastOf_concat

/-- What a transaction leaves is its last write. -/
theorem leaves_eq_some {value : Option Bytes} :
    leaves j t k = some value ↔ LastWrite j ⟨k, t, value⟩ := by
  induction j using List.reverseRecOn with
  | nil =>
      refine ⟨fun h => ?_, fun h => absurd h not_lastOf_nil⟩
      cases h
  | append_singleton j n ih =>
      rw [leaves_concat, lastWrite_concat, ← ih]
      cases n with
      | wrote e =>
          obtain ⟨key, txnId, written⟩ := e
          by_cases hSame : txnId = t ∧ key = k
          · obtain ⟨rfl, rfl⟩ := hSame
            simp [Z1Entry.id]
          · have hId : ¬ (key = k ∧ txnId = t) := fun h => hSame ⟨h.2, h.1⟩
            simp only [hSame, if_false, News.wrote.injEq, Z1Entry.mk.injEq, Z1Entry.id, exists_eq_left',
              Prod.mk.injEq, hId, not_false_eq_true, and_true]
            constructor
            · exact Or.inr
            · rintro (⟨rfl, rfl, -⟩ | h)
              · exact absurd ⟨rfl, rfl⟩ hSame
              · exact h
      | _ => simp

theorem leaves_ne_none : leaves j t k ≠ none ↔ ∃ w, LastWrite j w ∧ w.txnId = t ∧ w.key = k := by
  rw [Option.ne_none_iff_exists']
  constructor
  · rintro ⟨value, hValue⟩
    exact ⟨_, leaves_eq_some.mp hValue, rfl, rfl⟩
  · rintro ⟨⟨key, txnId, value⟩, hLast, rfl, rfl⟩
    exact ⟨value, leaves_eq_some.mpr hLast⟩

theorem LastWrite.wrote {w : Z1Entry} (h : LastWrite j w) : .wrote w ∈ j := by
  obtain ⟨before, after, hSplit, -⟩ := h
  simp [hSplit]

theorem exists_lastWrite {w : Z1Entry} (h : .wrote w ∈ j) : ∃ last, LastWrite j last ∧ last.id = w.id := by
  obtain ⟨n, ⟨last, rfl, hId⟩, hLast⟩ :=
    @exists_lastOf News (fun n => ∃ w', n = .wrote w' ∧ w'.id = w.id) j _ h ⟨w, rfl, rfl⟩
  refine ⟨last, ?_, hId⟩
  unfold LastWrite
  rw [hId]
  exact hLast

end Journals

section Positions
variable {j : List News} {n : News} {t u : TxnId} {i : Nat}

theorem idxOf_le_of_getElem? (h : j[i]? = some n) : j.idxOf n ≤ i := by
  have hMem : n ∈ j.take (i + 1) :=
    List.mem_of_getElem? ((List.getElem?_take_of_lt (Nat.lt_succ_self i)).trans h)
  exact Nat.le_of_lt_succ ((List.mem_take_iff_idxOf_lt (List.mem_of_getElem? h)).mp hMem)

/-- A transaction commits at one place. -/
theorem idxOf_committed (hOnce : (committedOf j).Nodup) (h : j[i]? = some (.committed u)) :
    j.idxOf (.committed u) = i := by
  induction j using List.reverseRecOn with
  | nil => cases h
  | append_singleton j last ih =>
      rcases getElem?_concat_eq_some.mp h with hOld | ⟨rfl, rfl⟩
      · have hNodup : (committedOf j).Nodup := by
          refine List.Nodup.sublist ?_ hOnce
          exact (List.sublist_append_left j [last]).filterMap _
        rw [List.idxOf_append_of_mem (List.mem_of_getElem? hOld), ih hNodup hOld]
      · rw [committedOf_concat] at hOnce
        have hNew : .committed u ∉ j := fun hIn =>
          (List.nodup_append.mp hOnce).2.2 u (mem_committedOf.mpr hIn) u (by simp) rfl
        rw [List.idxOf_append_of_notMem hNew]
        simp

theorem CommittedSince.idxOf_lt (h : CommittedSince j t u) (hOnce : (committedOf j).Nodup) :
    j.idxOf (.began t) < j.idxOf (.committed u) := by
  obtain ⟨b, c, hBegan, hCommitted, hLt⟩ := h
  rw [idxOf_committed hOnce hCommitted]
  exact (idxOf_le_of_getElem? hBegan).trans_lt hLt

theorem committedSince_of_idxOf_lt (hBegan : .began t ∈ j) (hCommitted : .committed u ∈ j)
    (hLt : j.idxOf (.began t) < j.idxOf (.committed u)) : CommittedSince j t u :=
  ⟨_, _, List.getElem?_idxOf hBegan, List.getElem?_idxOf hCommitted, hLt⟩

theorem overtakes_of_idxOf_lt (hBegan : .began t ∈ j) (hCommitted : .committed u ∈ j)
    (hEnded : .committed t ∈ j) (hBefore : j.idxOf (.began t) < j.idxOf (.committed u))
    (hAfter : j.idxOf (.committed u) < j.idxOf (.committed t)) : Overtakes j u t := by
  have hAt := List.getElem?_idxOf hCommitted
  refine ⟨j.take (j.idxOf (.committed u)), j.drop (j.idxOf (.committed u) + 1), ?_, ?_, ?_, ?_⟩
  · obtain ⟨hLt, hElem⟩ := List.getElem?_eq_some_iff.mp hAt
    conv_lhs => rw [← List.take_append_drop (j.idxOf (.committed u)) j, List.drop_eq_getElem_cons hLt]
    rw [hElem]
  · exact (List.mem_take_iff_idxOf_lt hBegan).mpr hBefore
  · exact fun hIn => absurd ((List.mem_take_iff_idxOf_lt hEnded).mp hIn) (Nat.not_lt.mpr hAfter.le)
  · rintro rfl
    exact lt_irrefl _ hAfter

end Positions

/-- The versions of a state: old ones, and the last writes of some transactions. -/
def world (old : Set Z1Entry) (j : List News) (among : TxnId → Prop) : Set Z1Entry :=
  old ∪ {w | LastWrite j w ∧ among w.txnId}

/-- The newest one of the versions of a key. -/
abbrev Newest (versions : Set Z1Entry) (k : Z1Key) (v : Z1Entry) : Prop :=
  IsNewest Z1Entry.key Z1Entry.txnId versions (fun _ => True) k v

/-- The value of a key in a state. -/
def Value (versions : Set Z1Entry) (k : Z1Key) (value : Option Bytes) : Prop :=
  ∃ found, Finds Z1Entry.key Z1Entry.txnId versions (fun _ => True) k found ∧
    value = found.bind Z1Entry.value

/-- The layers, read with this visibility, have the newest version of each key and nothing
above it. -/
structure Answers (s : Store) (sees : TxnId → Prop) (versions : Set Z1Entry) : Prop where
  bounded : ∀ e ∈ s.held, sees e.txnId → ∃ v ∈ versions, v.key = e.key ∧ e.txnId ≤ v.txnId
  newest : ∀ k v, Newest versions k v → s.Retains v ∧ sees v.txnId

theorem exists_newest {versions : Set Z1Entry} (hFinite : versions.Finite) {v : Z1Entry}
    (hv : v ∈ versions) : ∃ top, Newest versions v.key top ∧ v.txnId ≤ top.txnId := by
  obtain ⟨top, hTop, hMax⟩ := Set.exists_max_image {u | u ∈ versions ∧ u.key = v.key} Z1Entry.txnId
    (hFinite.subset fun u hu => hu.1) ⟨v, hv, rfl⟩
  exact ⟨top, ⟨hTop.1, hTop.2, trivial, fun u hu hKey _ => hMax u ⟨hu, hKey⟩⟩, hMax v ⟨hv, rfl⟩⟩

namespace Answers
variable {s s' : Store} {sees sees' : TxnId → Prop} {versions : Set Z1Entry}

/-- The newest version of a key is the newest that is seen in the layers. -/
theorem isNewest (h : Answers s sees versions) {k : Z1Key} {v : Z1Entry} (hNewest : Newest versions k v) :
    IsNewest Z1Entry.key Z1Entry.txnId {e | e ∈ s.held} sees k v := by
  obtain ⟨hRetains, hSees⟩ := h.newest k v hNewest
  refine ⟨Store.mem_held.mpr (Or.inl hRetains.isSettled), hNewest.hasKey, hSees, fun e he hKey hSeen => ?_⟩
  obtain ⟨u, hu, hSame, hLe⟩ := h.bounded e he hSeen
  exact hLe.trans (hNewest.newest u hu (hSame.trans hKey) trivial)

/-- A point get returns the value of the key. -/
theorem getAt (h : Answers s sees versions) (hFinite : versions.Finite) {snap : TxnSnapshot}
    (hSnap : ∀ t, snap.sees t = true ↔ sees t) (cf : UInt16) (key : Bytes) :
    Value versions ⟨cf, key⟩ (s.getAt snap cf key) := by
  obtain ⟨found, hFinds, hGet⟩ := s.getAt_finds snap cf key
  have hFinds := hFinds.congr fun v _ _ => hSnap v.txnId
  rw [hGet]
  by_cases hSome : ∃ v ∈ versions, v.key = ⟨cf, key⟩
  · obtain ⟨v, hv, hKey⟩ := hSome
    obtain ⟨top, hTop, -⟩ := exists_newest hFinite hv
    rw [hKey] at hTop
    have hWins := h.isNewest hTop
    refine ⟨some top, hTop, ?_⟩
    cases found with
    | none => exact absurd hWins.isVisible (hFinds top hWins.isHeld hWins.hasKey)
    | some e =>
        have hTxn : e.txnId = top.txnId :=
          le_antisymm (hWins.newest e hFinds.isHeld hFinds.hasKey hFinds.isVisible)
            (hFinds.newest top hWins.isHeld hWins.hasKey hWins.isVisible)
        have hId : e.id = top.id := Prod.ext (hFinds.hasKey.trans hWins.hasKey.symm) hTxn
        rw [(h.newest _ top hTop).1.only e hFinds.isHeld hId]
  · refine ⟨none, fun v hv hKey => absurd ⟨v, hv, hKey⟩ hSome, ?_⟩
    cases found with
    | none => rfl
    | some e =>
        obtain ⟨v, hv, hKey, -⟩ := h.bounded e hFinds.isHeld hFinds.isVisible
        exact absurd ⟨v, hv, hKey.trans hFinds.hasKey⟩ hSome

theorem congr (h : Answers s sees versions) (hSees : ∀ t, sees' t ↔ sees t) : Answers s sees' versions :=
  ⟨fun e he hSeen => h.bounded e he ((hSees _).mp hSeen),
    fun k v hNewest => (h.newest k v hNewest).imp_right (hSees _).mpr⟩

theorem write (h : Answers s sees versions) {e : Z1Entry} (hUnseen : ¬ sees e.txnId) :
    Answers { s with l1 := s.l1.replayPut e } sees versions := by
  refine ⟨fun copy hCopy hSeen => ?_, fun k v hNewest => ?_⟩
  · rcases Store.mem_held_write hCopy with rfl | hOld
    · exact absurd hSeen hUnseen
    · exact h.bounded copy hOld hSeen
  · obtain ⟨hRetains, hSees⟩ := h.newest k v hNewest
    refine ⟨hRetains.write fun hId => hUnseen ?_, hSees⟩
    rw [← (Prod.mk.inj hId).2]
    exact hSees

theorem flush (h : Answers s sees versions) (writes : Nat → PatchOutcome) :
    Answers (s.flushL1ToL2 writes).2 sees versions :=
  ⟨fun e he => h.bounded e (Store.flush_held_subset he),
    fun k v hNewest => (h.newest k v hNewest).imp_left fun hRetains => hRetains.flush writes⟩

theorem compacted (h : Answers s sees versions) {watermark : TxnId} (hCompacted : s.Compacted watermark s')
    (hSurvive : ∀ k v, Newest versions k v → s.Survives watermark v) : Answers s' sees versions :=
  ⟨fun e he => h.bounded e (hCompacted.held_subset he),
    fun k v hNewest => (h.newest k v hNewest).imp_left fun hRetains =>
      hRetains.compacted hCompacted (hSurvive k v hNewest)⟩

end Answers

/-- Only an active transaction writes or commits. -/
theorem JournalStep.not_committed {base txnCounter t : TxnId} {j : List News} {n : News}
    {m m' : VisibilityManager} (h : JournalStep m txnCounter n m') (hLedger : Ledger base j m txnCounter)
    (hNew : n = .committed t ∨ ∃ e, n = .wrote e ∧ e.txnId = t) : .committed t ∉ j := by
  intro hOld
  have hEnded := (hLedger.committed t hOld).1
  cases h with
  | began => simp at hNew
  | @wrote e hActive =>
      rcases hNew with hNew | ⟨e', hNew, rfl⟩
      · cases hNew
      · obtain rfl := News.wrote.inj hNew
        exact hEnded hActive
  | @committed txnId txn env hLookup hSsi =>
      rcases hNew with hNew | ⟨e', hNew, -⟩
      · obtain rfl := News.committed.inj hNew
        exact hEnded (FinMap.mem_iff_lookup.mpr ⟨txn, hLookup⟩)
      · cases hNew
  | other => simp at hNew

section Worlds
variable {base txnCounter t u : TxnId} {j : List News} {n : News} {m m' : VisibilityManager}
  {old : Set Z1Entry}

theorem world_congr {j' : List News} {among among' : TxnId → Prop}
    (h : ∀ w, LastWrite j' w ∧ among' w.txnId ↔ LastWrite j w ∧ among w.txnId) :
    world old j' among' = world old j among := by
  ext w
  exact or_congr Iff.rfl (h w)

/-- The writes of a transaction that has committed are its last ones. -/
theorem lastWrite_of_committed (hNew : ∀ t, (n = .committed t ∨ ∃ e, n = .wrote e ∧ e.txnId = t) →
    .committed t ∉ j) {w : Z1Entry} (hCommitted : .committed w.txnId ∈ j) :
    LastWrite (j ++ [n]) w ↔ LastWrite j w := by
  rw [lastWrite_concat]
  constructor
  · rintro (rfl | ⟨hLast, -⟩)
    · exact absurd hCommitted (hNew _ (Or.inr ⟨w, rfl, rfl⟩))
    · exact hLast
  · refine fun hLast => Or.inr ⟨hLast, ?_⟩
    rintro ⟨e, rfl, hId⟩
    exact hNew _ (Or.inr ⟨e, rfl, (Prod.mk.inj hId).2⟩) hCommitted

theorem committedBefore_concat (hNew : ∀ t, (n = .committed t ∨ ∃ e, n = .wrote e ∧ e.txnId = t) →
    .committed t ∉ j) (hBegan : .began t ∈ j) :
    CommittedBefore (j ++ [n]) t u ↔ CommittedBefore j t u := by
  unfold CommittedBefore
  rw [committedSince_concat]
  constructor
  · rintro ⟨hIn, hNot⟩
    rcases List.mem_append.mp hIn with hIn | hIn
    · exact ⟨hIn, fun hSince => hNot (Or.inl hSince)⟩
    · exact absurd (Or.inr ⟨(List.mem_singleton.mp hIn).symm, hBegan⟩) hNot
  · rintro ⟨hIn, hNot⟩
    refine ⟨List.mem_append_left _ hIn, ?_⟩
    rintro (hSince | ⟨rfl, -⟩)
    · exact hNot hSince
    · exact hNew u (Or.inl rfl) hIn

/-- What a transaction may see does not change after its begin. -/
theorem world_pinned (hNew : ∀ t, (n = .committed t ∨ ∃ e, n = .wrote e ∧ e.txnId = t) →
    .committed t ∉ j) (hBegan : .began t ∈ j) :
    world old (j ++ [n]) (CommittedBefore (j ++ [n]) t) = world old j (CommittedBefore j t) := by
  refine world_congr fun w => ?_
  rw [committedBefore_concat hNew hBegan]
  exact and_congr_left fun hBefore => lastWrite_of_committed hNew hBefore.1

/-- The current state changes with a commit only. -/
theorem world_current (hNew : ∀ t, (n = .committed t ∨ ∃ e, n = .wrote e ∧ e.txnId = t) →
    .committed t ∉ j) (hNot : ∀ t, n ≠ .committed t) :
    world old (j ++ [n]) (.committed · ∈ j ++ [n]) = world old j (.committed · ∈ j) := by
  refine world_congr fun w => ?_
  have hSame : News.committed w.txnId ∈ j ++ [n] ↔ .committed w.txnId ∈ j := by
    rw [List.mem_append, List.mem_singleton]
    exact or_iff_left fun hEq => hNot _ hEq.symm
  rw [hSame]
  exact and_congr_left fun hCommitted => lastWrite_of_committed hNew hCommitted

/-- A transaction sees the current state of its begin. -/
theorem world_began (hFresh : .began t ∉ j) :
    world old (j ++ [.began t]) (CommittedBefore (j ++ [.began t]) t) =
      world old j (.committed · ∈ j) := by
  refine world_congr fun w => ?_
  have hSame : CommittedBefore (j ++ [.began t]) t w.txnId ↔ .committed w.txnId ∈ j := by
    unfold CommittedBefore
    rw [committedSince_concat]
    constructor
    · rintro ⟨hIn, -⟩
      simpa using hIn
    · intro hIn
      refine ⟨List.mem_append_left _ hIn, ?_⟩
      rintro (hSince | ⟨hEq, -⟩)
      · exact hFresh hSince.began
      · cases hEq
  rw [hSame, lastWrite_concat]
  simp

theorem finite_world (hOld : old.Finite) (among : TxnId → Prop) : (world old j among).Finite := by
  refine hOld.union ?_
  have hWrites : {w : Z1Entry | News.wrote w ∈ j}.Finite :=
    (List.finite_toSet j).preimage fun a _ b _ hEq => News.wrote.inj hEq
  exact hWrites.subset fun w hw => hw.1.wrote

end Worlds

/-- A call that the order of the transactions survives. Of the keys that a transaction with
writes reads or writes, nobody who committed since its begin has written one by then; a write
agrees with what was flushed of its version; the prune of a commit does not reach the entry of
a transaction with the newest committed version of a key; its compaction gives up no version
that is the newest one for the current state or for the snapshot of an active transaction. -/
structure Undisturbed (codec : Codec) (past : List (Op × Reply)) (db : Engine) (op : Op) : Prop where
  writes : ∀ e, op.write? = some e → e.txnId ∈ db.mvcc.activeTxns →
    Watched (journal past) e.txnId e.key ∧ ¬ ReadsLate past e.txnId
  reads : ∀ k t, op = .getForTxn k.cf k.key t → writesOf (journal past) t ≠ [] →
    Watched (journal past) t k
  rewrites : ∀ e, op.write? = some e → ∀ copy ∈ db.store.beyondHot, copy.id = e.id → copy = e
  keepsNewest : ∀ t env, op = .commit t env →
    let m := db.mvcc.enterCommit t env.ts env.insertedAt
    ∀ k e entry, IsNewest Z1Entry.key Z1Entry.txnId {e | e ∈ db.store.held}
        (fun u => u ∈ db.mvcc.committedHistory ∨ u = t) k e →
      AList.lookup e.txnId m.committedHistory = some entry →
      m.overflow ≤ m.enteredBefore entry.insertedAt ∧
        (m.ttlCheckDue env.nowMs = true → m.cutoff env.nowMs ≤ entry.insertedAt)
  survive : ∀ s watermark, db.compaction? codec op = some (s, watermark) → ∀ k e,
    (∃ t snap, AList.lookup t db.txnSnapshots = some snap ∧ s.Wins snap k e) ∨
      IsNewest Z1Entry.key Z1Entry.txnId {e | e ∈ s.held}
        (fun u => u ∈ db.mvcc.committedHistory ∨ ∃ env, op = .commit u env) k e →
    s.Survives watermark e
  auto : ∀ writes watermark, op ≠ .compact writes watermark

theorem noCycle_of_lt {past : List (Op × Reply)} (place : TxnId → Nat)
    (h : ∀ a b, a ∈ committedOf (journal past) → b ∈ committedOf (journal past) →
      DependsOn id (leaves (journal past)) (ReadsKey past) (CommittedBefore (journal past)) a b →
        place a < place b) :
    NoCycle past := by
  intro t hCycle
  have hUp : ∀ a b, Relation.TransGen (fun a b => a ∈ committedOf (journal past) ∧
      b ∈ committedOf (journal past) ∧ DependsOn id (leaves (journal past)) (ReadsKey past)
        (CommittedBefore (journal past)) a b) a b → place a < place b := by
    intro a b hPath
    induction hPath with
    | single hEdge => exact h _ _ hEdge.1 hEdge.2.1 hEdge.2.2
    | tail _ hEdge ih => exact ih.trans (h _ _ hEdge.1 hEdge.2.1 hEdge.2.2)
  exact lt_irrefl _ (hUp t t hCycle)

/-- The layers answer every snapshot as the journal says. -/
structure Serves (base : TxnId) (old : Set Z1Entry) (past : List (Op × Reply)) (db : Engine) : Prop where
  sound : db.Sound
  ledger : Ledger base (journal past) db.mvcc db.txnCounter
  written : Written (·.txnId ≤ base) (journal past) db
  retained : ∀ w, LastWrite (journal past) w → w.txnId ∈ db.mvcc.activeTxns → db.store.Retains w
  running : ∀ t snap, AList.lookup t db.txnSnapshots = some snap →
    .began t ∈ journal past ∧ .committed t ∉ journal past
  current : Answers db.store (· ∈ db.mvcc.committedHistory)
    (world old (journal past) (.committed · ∈ journal past))
  pinned : ∀ t snap, AList.lookup t db.txnSnapshots = some snap →
    Answers db.store (snap.sees · = true) (world old (journal past) (CommittedBefore (journal past) t))
  reads : ∀ k t found, (.getForTxn k.cf k.key t, .value found) ∈ past → .began t ∈ journal past ∧
    Value (world old (journal past) (CommittedBefore (journal past) t)) k found
  once : (committedOf (journal past)).Nodup
  exclusive : Exclusive (journal past) db.mvcc
  noticed : ReadsNoticed past db.mvcc

/-- A commit that succeeds gives up the snapshot of its transaction. -/
theorem Engine.commit_unpins {codec : Codec} {db : Engine} {op : Op} {t : TxnId}
    (h : news (op, (db.step codec op).1) = .committed t) :
    AList.lookup t (db.step codec op).2.txnSnapshots = none := by
  obtain ⟨env, rfl, hActive, hMvcc⟩ := (db.step_mvcc codec op).commit_inv h
  have hStep : db.step codec (.commit t env) =
      (db.commit codec env t).map (Reply.ofResult fun _ => .done) id := rfl
  rw [hStep] at h ⊢
  rcases db.commit_cases codec env t with ⟨-, hEq⟩ | ⟨e, wal, -, -, hEq⟩ |
    ⟨txn, conflict, wal, -, -, -, hEq⟩ | ⟨txn, wal, -, -, -, hEq⟩
  · rw [hEq] at h
    cases h
  · rw [hEq] at h
    cases h
  · rw [hEq] at h
    cases h
  · have hSame := ((db.committing codec env t).maybeAutoMaintain_spec codec env.writes).1
    rw [hEq]
    dsimp only [Prod.map_snd, id]
    rw [hSame.txnSnapshots]
    exact AList.lookup_erase _ _

theorem getForTxn_inv {codec : Codec} {db : Engine} {op : Op} {cf : UInt16} {key : Bytes} {t : TxnId}
    {found : Option Bytes} (hOp : op = .getForTxn cf key t)
    (hReply : (db.step codec op).1 = .value found) :
    ∃ snap, AList.lookup t db.txnSnapshots = some snap ∧ found = db.store.getAt snap cf key := by
  subst hOp
  have hStep : (db.step codec (.getForTxn cf key t)).1 =
      Reply.ofResult Reply.value (db.getForTxn cf key t).1 := rfl
  rw [hStep, Engine.getForTxn] at hReply
  split at hReply
  · cases hReply
  · next snap hPinned => exact ⟨snap, hPinned, (Reply.value.inj hReply).symm⟩

section Steps
variable {codec : Codec} {base : TxnId} {old : Set Z1Entry} {past : List (Op × Reply)} {db : Engine}
  {op : Op}

theorem answers_step {sees : TxnId → Prop} {versions : Set Z1Entry}
    (hStart : Answers db.store sees versions)
    (hUnseen : ∀ e, op.write? = some e → e.txnId ∈ db.mvcc.activeTxns → ¬ sees e.txnId)
    (hSurvive : ∀ s watermark, Answers s sees versions → db.compaction? codec op = some (s, watermark) →
      ∀ k v, Newest versions k v → s.Survives watermark v) :
    Answers (db.step codec op).2.store sees versions := by
  refine @Engine.step_store codec db op (Answers · sees versions) hStart ?_ ?_ ?_
  · exact fun e hWrite hActive => hStart.write (hUnseen e hWrite hActive)
  · exact fun s writes hAnswers => hAnswers.flush writes
  · exact fun s watermark s' hAnswers hPoint hCompacted =>
      hAnswers.compacted hCompacted (hSurvive s watermark hAnswers hPoint)

namespace Serves
variable (h : Serves base old past db)
include h

theorem not_seen {t : TxnId} (hActive : t ∈ db.mvcc.activeTxns) : t ∉ db.mvcc.committedHistory := by
  intro hIn
  rcases h.ledger.history t hIn with hOld | hCommitted
  · exact absurd (h.ledger.began t (h.ledger.active_mem hActive)).1 (Nat.not_lt.mpr hOld)
  · exact (h.ledger.committed t hCommitted).1 hActive

/-- The layers before the prune and the maintenance of a commit, for the state after it. -/
theorem answers_commit {t : TxnId} (hActive : t ∈ db.mvcc.activeTxns) :
    Answers db.store (fun u => u ∈ db.mvcc.committedHistory ∨ u = t)
      (world old (journal past ++ [.committed t]) (.committed · ∈ journal past ++ [.committed t])) := by
  have hSame : ∀ w, LastWrite (journal past ++ [.committed t]) w ↔ LastWrite (journal past) w := by
    intro w
    rw [lastWrite_concat]
    simp
  have hMono : ∀ v ∈ world old (journal past) (.committed · ∈ journal past),
      v ∈ world old (journal past ++ [.committed t]) (.committed · ∈ journal past ++ [.committed t]) := by
    rintro v (hOld | ⟨hLast, hIn⟩)
    · exact Or.inl hOld
    · exact Or.inr ⟨(hSame v).mpr hLast, List.mem_append_left _ hIn⟩
  constructor
  · intro e he hSeen
    rcases hSeen with hSeen | hTxn
    · obtain ⟨v, hv, hKey, hLe⟩ := h.current.bounded e he hSeen
      exact ⟨v, hMono v hv, hKey, hLe⟩
    · have hAbove := (h.ledger.began t (h.ledger.active_mem hActive)).1
      have hWrote := (h.written.held he).resolve_left fun hOld =>
        absurd (hTxn ▸ hOld) (Nat.not_le.mpr hAbove)
      obtain ⟨last, hLast, hId⟩ := exists_lastWrite hWrote
      obtain ⟨hKey, hLastTxn⟩ := Prod.mk.inj hId
      refine ⟨last, Or.inr ⟨(hSame last).mpr hLast, ?_⟩, hKey, hLastTxn.ge⟩
      rw [hLastTxn, hTxn]
      simp
  · intro k v hNewest
    rcases hNewest.isHeld with hOld | ⟨hLast, hIn⟩
    · have hWas : Newest (world old (journal past) (.committed · ∈ journal past)) k v :=
        ⟨Or.inl hOld, hNewest.hasKey, trivial, fun u hu => hNewest.newest u (hMono u hu)⟩
      exact (h.current.newest k v hWas).imp_right Or.inl
    · rcases List.mem_append.mp hIn with hIn | hIn
      · have hWas : Newest (world old (journal past) (.committed · ∈ journal past)) k v :=
          ⟨Or.inr ⟨(hSame v).mp hLast, hIn⟩, hNewest.hasKey, trivial,
            fun u hu => hNewest.newest u (hMono u hu)⟩
        exact (h.current.newest k v hWas).imp_right Or.inl
      · have hTxn : v.txnId = t := News.committed.inj (List.mem_singleton.mp hIn)
        exact ⟨h.retained v ((hSame v).mp hLast) (hTxn ▸ hActive), Or.inr hTxn⟩

theorem running_step (codec : Codec) (op : Op) {t : TxnId} {snap : TxnSnapshot}
    (hPinned : AList.lookup t (db.step codec op).2.txnSnapshots = some snap) :
    (AList.lookup t db.txnSnapshots = some snap ∧
        news (op, (db.step codec op).1) ≠ .committed t) ∨
      news (op, (db.step codec op).1) = .began t ∧ .began t ∉ journal past ∧
        snap = (db.step codec op).2.mvcc.snapshot := by
  have hOpen : news (op, (db.step codec op).1) ≠ .committed t := by
    intro hNews
    rw [Engine.commit_unpins hNews] at hPinned
    cases hPinned
  rcases (@Engine.step_snapshots codec db h.sound op).2 with hEq | ⟨u, -, hEq⟩ | ⟨u, rfl, hReply, hEq⟩
  · rw [hEq] at hPinned
    exact Or.inl ⟨hPinned, hOpen⟩
  · rw [hEq] at hPinned
    by_cases hSame : t = u
    · subst hSame
      rw [AList.lookup_erase] at hPinned
      cases hPinned
    · rw [AList.lookup_erase_ne hSame] at hPinned
      exact Or.inl ⟨hPinned, hOpen⟩
  · rw [hEq] at hPinned
    by_cases hSame : t = u
    · subst hSame
      rw [AList.lookup_insert] at hPinned
      obtain ⟨mvcc, cache, -, -, hId, -⟩ := Engine.begin_inv (Prod.ext hReply rfl)
      refine Or.inr ⟨by rw [hReply]; rfl, fun hOld => ?_, (Option.some.inj hPinned).symm⟩
      exact absurd (h.ledger.began t hOld).2 (Nat.not_lt.mpr hId)
    · rw [AList.lookup_insert_ne hSame] at hPinned
      exact Or.inl ⟨hPinned, hOpen⟩

variable (hUndisturbed : Undisturbed codec past db op)
include hUndisturbed

theorem current_step :
    Answers (db.step codec op).2.store (· ∈ (db.step codec op).2.mvcc.committedHistory)
      (world old (journal past ++ [news (op, (db.step codec op).1)])
        (.committed · ∈ journal past ++ [news (op, (db.step codec op).1)])) := by
  have hEffect := db.step_mvcc codec op
  have hNew : ∀ t, _ → .committed t ∉ journal past :=
    fun t => hEffect.journalStep.not_committed h.ledger
  by_cases hCommit : ∃ t, news (op, (db.step codec op).1) = .committed t
  · obtain ⟨t, hNews⟩ := hCommit
    obtain ⟨env, hOp, hActive, hMvcc⟩ := hEffect.commit_inv hNews
    rw [hNews, hMvcc]
    have hStart := h.answers_commit hActive
    have hEnd := @answers_step codec db op _ _ hStart (fun e hWrite => by rw [hOp] at hWrite; cases hWrite) ?_
    · refine ⟨fun e he hSeen => hEnd.bounded e he (VisibilityManager.mem_committed hSeen).symm,
        fun k v hNewest => (hEnd.newest k v hNewest).imp_right fun _ => ?_⟩
      have hWins := hStart.isNewest hNewest
      have hEntered : v.txnId ∈ (db.mvcc.enterCommit t env.ts env.insertedAt).committedHistory := by
        rw [VisibilityManager.enterCommit_committedHistory, AList.mem_insert]
        exact hWins.isVisible.symm
      obtain ⟨entry, hLookup⟩ := FinMap.mem_iff_lookup.mp hEntered
      obtain ⟨hCount, hTime⟩ := hUndisturbed.keepsNewest t env hOp k v entry hWins hLookup
      exact VisibilityManager.mem_committed_of_lookup hLookup hCount hTime
    · intro s watermark hAnswers hPoint k v hNewest
      refine hUndisturbed.survive s watermark hPoint k v (Or.inr ?_)
      have hWins := hAnswers.isNewest hNewest
      have hSees : ∀ u, (u ∈ db.mvcc.committedHistory ∨ ∃ env, op = .commit u env) ↔
          u ∈ db.mvcc.committedHistory ∨ u = t := by
        intro u
        refine or_congr Iff.rfl ⟨?_, ?_⟩
        · rintro ⟨env', hOp'⟩
          exact (Op.commit.inj (hOp'.symm.trans hOp)).1
        · rintro rfl
          exact ⟨env, hOp⟩
      exact ⟨hWins.isHeld, hWins.hasKey, (hSees _).mpr hWins.isVisible,
        fun w hw hKey hSeen => hWins.newest w hw hKey ((hSees _).mp hSeen)⟩
  · have hNot : ∀ t, news (op, (db.step codec op).1) ≠ .committed t := fun t ht => hCommit ⟨t, ht⟩
    rw [world_current hNew hNot, hEffect.journalStep.history hNot]
    refine answers_step h.current (fun e _ hActive => h.not_seen hActive) ?_
    intro s watermark _ hPoint
    obtain ⟨t, env, hOp, hDone, -⟩ := Engine.compaction?_auto hPoint hUndisturbed.auto
    exact absurd (by rw [hDone, hOp]; rfl) (hNot t)

theorem pinned_step {t : TxnId} {snap : TxnSnapshot}
    (hPinned : AList.lookup t (db.step codec op).2.txnSnapshots = some snap) :
    Answers (db.step codec op).2.store (snap.sees · = true)
      (world old (journal past ++ [news (op, (db.step codec op).1)])
        (CommittedBefore (journal past ++ [news (op, (db.step codec op).1)]) t)) := by
  have hEffect := db.step_mvcc codec op
  have hNew : ∀ t, _ → .committed t ∉ journal past :=
    fun t => hEffect.journalStep.not_committed h.ledger
  rcases h.running_step codec op hPinned with ⟨hWas, -⟩ | ⟨hNews, hFresh, rfl⟩
  · rw [world_pinned hNew (h.running t snap hWas).1]
    refine answers_step (h.pinned t snap hWas) (fun e _ hActive hSeen => ?_) ?_
    · exact (h.sound.pinned t snap hWas _ hSeen).2 hActive
    · intro s watermark hAnswers hPoint k v hNewest
      exact hUndisturbed.survive s watermark hPoint k v
        (Or.inl ⟨t, snap, hWas, hAnswers.isNewest hNewest⟩)
  · have hCurrent := h.current_step hUndisturbed
    rw [world_current hNew (by simp [hNews])] at hCurrent
    rw [hNews, world_began hFresh]
    exact hCurrent.congr (h.sound.step op).coherent.snapshot_sees

omit hUndisturbed in
theorem reads_step (hFinite : old.Finite) (codec : Codec) (op : Op) {k : Z1Key} {t : TxnId}
    {found : Option Bytes}
    (hRead : (.getForTxn k.cf k.key t, .value found) ∈ past ++ [(op, (db.step codec op).1)]) :
    .began t ∈ journal past ++ [news (op, (db.step codec op).1)] ∧
      Value (world old (journal past ++ [news (op, (db.step codec op).1)])
        (CommittedBefore (journal past ++ [news (op, (db.step codec op).1)]) t)) k found := by
  have hNew : ∀ t, _ → .committed t ∉ journal past :=
    fun t => (db.step_mvcc codec op).journalStep.not_committed h.ledger
  have hOld : .began t ∈ journal past ∧
      Value (world old (journal past) (CommittedBefore (journal past) t)) k found := by
    rcases List.mem_append.mp hRead with hRead | hRead
    · exact h.reads k t found hRead
    · obtain ⟨hOp, hReply⟩ := Prod.mk.inj (List.mem_singleton.mp hRead)
      obtain ⟨snap, hPinned, rfl⟩ := getForTxn_inv hOp.symm hReply.symm
      exact ⟨(h.running t snap hPinned).1,
        (h.pinned t snap hPinned).getAt (finite_world hFinite _) (fun _ => Iff.rfl) k.cf k.key⟩
  rw [world_pinned hNew hOld.1]
  exact ⟨List.mem_append_left _ hOld.1, hOld.2⟩

theorem step (hFinite : old.Finite) :
    Serves base old (past ++ [(op, (db.step codec op).1)]) (db.step codec op).2 := by
  have hEffect := db.step_mvcc codec op
  have hLedger' := h.ledger.step_call codec op
  have hNew : ∀ t, _ → .committed t ∉ journal past :=
    fun t => hEffect.journalStep.not_committed h.ledger
  have hBegan : ∀ t k, ReadsKey past t k → .began t ∈ journal past :=
    fun t k ⟨found, hRead⟩ => (h.reads k t found hRead).1
  refine ⟨h.sound.step op, ?_, ?_, ?_, ?_, ?_, ?_, ?_, ?_, ?_, ?_⟩
  · rwa [journal_concat]
  · rw [journal_concat]
    exact h.written.step codec op
  · rw [journal_concat]
    exact fun w hLast hActive => retained_step h.retained h.ledger hUndisturbed.rewrites
      (fun s watermark hPoint e he _ hIn => survives_of_active hLedger' hUndisturbed.auto hPoint he hIn)
      hLast hActive
  · intro t snap hPinned
    rw [journal_concat]
    rcases h.running_step codec op hPinned with ⟨hWas, hNot⟩ | ⟨hNews, hFresh, -⟩
    · obtain ⟨hBegan, hOpen⟩ := h.running t snap hWas
      refine ⟨List.mem_append_left _ hBegan, fun hIn => ?_⟩
      rcases List.mem_append.mp hIn with hIn | hIn
      · exact hOpen hIn
      · exact hNot (List.mem_singleton.mp hIn).symm
    · refine ⟨by simp [hNews], fun hIn => ?_⟩
      rw [hNews] at hIn
      have hIn : .committed t ∈ journal past := by simpa using hIn
      exact hFresh (h.ledger.committed t hIn).2.began
  · rw [journal_concat]
    exact h.current_step hUndisturbed
  · rw [journal_concat]
    exact fun t snap hPinned => h.pinned_step hUndisturbed hPinned
  · rw [journal_concat]
    exact fun k t found hRead => h.reads_step hFinite codec op hRead
  · rw [journal_concat, committedOf_concat]
    split
    · next t hNews =>
      refine List.nodup_append.mpr ⟨h.once, List.nodup_singleton t, ?_⟩
      rintro u hu v hv rfl
      obtain rfl := List.mem_singleton.mp hv
      exact hNew _ (Or.inl hNews) (mem_committedOf.mp hu)
    · exact h.once
  · rw [journal_concat]
    refine h.exclusive.step h.ledger hEffect.journalStep fun e hNews => ?_
    have hStep := hEffect.journalStep
    rw [hNews] at hStep
    exact (hUndisturbed.writes e (entry_of_news hNews) hStep.writer).1
  · exact h.noticed.step h.ledger hBegan (fun e hWrite hActive => (hUndisturbed.writes e hWrite hActive).2)
      hUndisturbed.reads

omit hUndisturbed in
/-- Each dependency leads upwards: a transaction that writes has the place of its commit, any
other one that of its begin. -/
theorem noCycle : NoCycle past := by
  let place : TxnId → Nat := fun t =>
    if writesOf (journal past) t = [] then (journal past).idxOf (.began t)
    else (journal past).idxOf (.committed t)
  have hBegan : ∀ {t}, .committed t ∈ journal past → .began t ∈ journal past :=
    fun ht => (h.ledger.committed _ ht).2.began
  have hOpen : ∀ {t}, .committed t ∈ journal past →
      (journal past).idxOf (.began t) < (journal past).idxOf (.committed t) :=
    fun ht => (h.ledger.committed _ ht).2.idxOf_lt h.once
  have hWriter : ∀ {t k}, leaves (journal past) t k ≠ none →
      place t = (journal past).idxOf (.committed t) := by
    intro t k hWrote
    obtain ⟨w, hLast, hTxn, -⟩ := leaves_ne_none.mp hWrote
    exact if_neg (writesOf_ne_nil.mpr ⟨w, hLast.wrote, hTxn⟩)
  have hFromBegin : ∀ {t}, .committed t ∈ journal past → (journal past).idxOf (.began t) ≤ place t := by
    intro t ht
    dsimp only [place]
    split
    · exact le_rfl
    · exact (hOpen ht).le
  refine noCycle_of_lt place fun a b ha hb hEdge => ?_
  have hA := mem_committedOf.mp ha
  have hB := mem_committedOf.mp hb
  obtain ⟨hNe, k, ⟨hWroteA, hWroteB, hLt⟩ | ⟨hWrote, -, hSeen⟩ | ⟨hRead, hWrote, hUnseen⟩⟩ := hEdge
  · -- both wrote the key; had the second one committed first, the first one would have lost
    rw [hWriter hWroteA, hWriter hWroteB]
    by_contra hNot
    have hFirst : (journal past).idxOf (.began a) < (journal past).idxOf (.began b) :=
      h.ledger.ordered a b _ _ (List.getElem?_idxOf (hBegan hA)) (List.getElem?_idxOf (hBegan hB)) hLt
    obtain ⟨w, hLast, rfl, hKey⟩ := leaves_ne_none.mp hWroteA
    obtain ⟨w', hLast', rfl, hKey'⟩ := leaves_ne_none.mp hWroteB
    refine h.exclusive.first w w' hLast.wrote hLast'.wrote (hKey.trans hKey'.symm) hNe ⟨?_, ?_⟩
    · exact committedSince_of_idxOf_lt (hBegan hA) hB (hFirst.trans (hOpen hB))
    · exact committedSince_of_idxOf_lt (hBegan hB) hA ((hOpen hB).trans_le (Nat.not_lt.mp hNot))
  · -- the reader has seen the writer
    rw [hWriter hWrote]
    refine lt_of_lt_of_le ?_ (hFromBegin hB)
    by_contra hNot
    refine hSeen.2 (committedSince_of_idxOf_lt (hBegan hB) hA (lt_of_le_of_ne (Nat.not_lt.mp hNot) ?_))
    intro hEq
    have hSame := (List.idxOf_inj (hBegan hB)).mp hEq
    cases hSame
  · -- the reader has not seen the writer; if it writes, the check or its late read decides
    rw [hWriter hWrote]
    have hSince : CommittedSince (journal past) a b := not_not.mp fun hNot => hUnseen ⟨hB, hNot⟩
    by_cases hNone : writesOf (journal past) a = []
    · have hPlace : place a = (journal past).idxOf (.began a) := if_pos hNone
      rw [hPlace]
      exact hSince.idxOf_lt h.once
    · have hPlace : place a = (journal past).idxOf (.committed a) := if_neg hNone
      rw [hPlace]
      by_contra hNot
      have hAfter : (journal past).idxOf (.committed b) < (journal past).idxOf (.committed a) := by
        refine lt_of_le_of_ne (Nat.not_lt.mp hNot) fun hEq => hNe ?_
        exact (News.committed.inj ((List.idxOf_inj hB).mp hEq)).symm
      obtain ⟨w, hLast, rfl, rfl⟩ := leaves_ne_none.mp hWrote
      have hLate := h.noticed.noticed a _ w hRead hLast.wrote rfl (Or.inr hA)
        (overtakes_of_idxOf_lt (hBegan hA) hB hA (hSince.idxOf_lt h.once) hAfter)
      exact hNone (h.noticed.readOnly a hLate)

end Serves
end Steps

/-- The versions that are read right after an open. -/
def Engine.visible (db : Engine) : Set Z1Entry := {e | ∃ k, db.store.Wins db.snapshot.1 k e}

theorem Engine.finite_visible (db : Engine) : db.visible.Finite :=
  (List.finite_toSet db.store.held).subset fun _ ⟨_, hWins⟩ => hWins.isHeld

theorem Engine.value_visible (db : Engine) (k : Z1Key) : Value db.visible k (db.get k.cf k.key).1 := by
  obtain ⟨found, hFinds, hGet⟩ := db.store.getAt_finds db.snapshot.1 k.cf k.key
  refine ⟨found, ?_, by rw [get_eq, hGet]⟩
  cases found with
  | none =>
      rintro v ⟨k', hWins⟩ hKey _
      exact hFinds v hWins.isHeld hKey hWins.isVisible
  | some e =>
      refine ⟨⟨k, hFinds⟩, hFinds.hasKey, trivial, ?_⟩
      rintro v ⟨k', hWins⟩ hKey -
      exact hFinds.newest v hWins.isHeld hKey hWins.isVisible

theorem world_nil (old : Set Z1Entry) (among : TxnId → Prop) : world old [] among = old := by
  ext w
  exact or_iff_left fun hIn => not_lastOf_nil hIn.1

theorem Serves.of_open {codec : Codec} {maxFileSize : Nat} {env : OpenEnv} {config : Z1Config}
    {dir : DataDir} {db : Engine}
    (hOpen : Engine.openWithConfig codec maxFileSize env config dir = .ok db)
    (hFresh : ∀ e ∈ db.store.held, e.txnId ≤ db.mvcc.committedTxn)
    (hCopies : ∀ a ∈ db.store.held, ∀ b ∈ db.store.held, a.id = b.id → a = b) :
    Serves db.mvcc.committedTxn db.visible [] db := by
  have hSound := Engine.sound_of_open hOpen
  have hNone : db.txnSnapshots = ∅ := by
    obtain ⟨recovery, l1, -, rfl⟩ := Engine.openWithConfig_cases hOpen
    rfl
  have hNoSnap : ∀ t snap, AList.lookup t db.txnSnapshots ≠ some snap := by
    intro t snap hLookup
    rw [hNone] at hLookup
    cases hLookup
  obtain ⟨entries, -, hOpened⟩ := Engine.Opened.of_open hOpen
  have hSettled : ∀ e ∈ db.store.held, e ∈ db.store.settled := by
    intro e he
    rcases Store.mem_held_iff.mp he with hHot | hBeyond
    · exact Store.mem_settled.mpr (Or.inl hHot)
    · rcases (hOpened.beyond e).mp hBeyond with hL2 | hL3
      · exact Store.mem_settled.mpr (by simp [hL2])
      · exact Store.mem_settled.mpr (by simp [hL3])
  refine ⟨hSound, .of_open hOpen, fun e he => Or.inl (hFresh e (Engine.stored_of_open hOpen he)),
    fun w hw => absurd hw not_lastOf_nil,
    fun t snap hLookup => absurd hLookup (hNoSnap t snap), ?_,
    fun t snap hLookup => absurd hLookup (hNoSnap t snap), by simp, by simp [committedOf, journal],
    ⟨by simp [journal], by simp [FirstCommitterWins, journal]⟩, .nil _⟩
  · have hWorld : world db.visible (journal []) (.committed · ∈ journal []) = db.visible := world_nil _ _
    rw [hWorld]
    refine ⟨fun e he hSeen => ?_, ?_⟩
    · obtain ⟨found, hFinds, -⟩ := db.store.getAt_finds db.snapshot.1 e.key.cf e.key.key
      have hSees := (hSound.snapshot_sees _).mpr hSeen
      cases found with
      | none => exact absurd hSees (hFinds e he rfl)
      | some v => exact ⟨v, ⟨e.key, hFinds⟩, hFinds.hasKey, hFinds.newest e he rfl hSees⟩
    · intro k v hNewest
      obtain ⟨k', hWins⟩ := hNewest.isHeld
      exact ⟨⟨hSettled v hWins.isHeld, fun copy hCopy hId => hCopies copy hCopy v hWins.isHeld hId⟩,
        (hSound.snapshot_sees _).mp hWins.isVisible⟩

/-- The value of a key in a state is that of the highest of its writers. -/
theorem Value.newestValue {base : TxnId} {old : Set Z1Entry} {j : List News} {among : TxnId → Prop}
    {initial : Z1Key → Option Bytes} {k : Z1Key} {value : Option Bytes} {txns : Set TxnId}
    (h : Value (world old j among) k value) (hTxns : ∀ t, t ∈ txns ↔ among t)
    (hOld : ∀ e ∈ old, e.txnId ≤ base) (hAbove : ∀ t, among t → base < t)
    (hUnique : ∀ a ∈ old, ∀ b ∈ old, a.id = b.id → a = b) (hInitial : Value old k (initial k)) :
    NewestValue id (leaves j) initial txns k value := by
  have hWriter : ∀ t ∈ txns, leaves j t k ≠ none → ∃ w ∈ world old j among, w.txnId = t ∧ w.key = k := by
    intro t ht hWrote
    obtain ⟨w, hLast, rfl, hKey⟩ := leaves_ne_none.mp hWrote
    exact ⟨w, Or.inr ⟨hLast, (hTxns _).mp ht⟩, rfl, hKey⟩
  obtain ⟨start, hStart, hInitial⟩ := hInitial
  obtain ⟨found, hFinds, rfl⟩ := h
  cases found with
  | none =>
      refine Or.inr ⟨fun t ht => ?_, ?_⟩
      · by_contra hWrote
        obtain ⟨w, hw, -, hKey⟩ := hWriter t ht hWrote
        exact hFinds w hw hKey trivial
      · cases start with
        | none => exact hInitial.symm
        | some v => exact absurd trivial (hFinds v (Or.inl hStart.isHeld) hStart.hasKey)
  | some v =>
      rcases hFinds.isHeld with hIn | ⟨hLast, hIn⟩
      · refine Or.inr ⟨fun t ht => ?_, ?_⟩
        · by_contra hWrote
          obtain ⟨w, hw, rfl, hKey⟩ := hWriter t ht hWrote
          exact absurd ((hFinds.newest w hw hKey trivial).trans (hOld v hIn))
            (Nat.not_le.mpr (hAbove _ ((hTxns _).mp ht)))
        · cases start with
          | none => exact absurd trivial (hStart v hIn hFinds.hasKey)
          | some v' =>
              have hTxn : v.txnId = v'.txnId :=
                le_antisymm (hStart.newest v hIn hFinds.hasKey trivial)
                  (hFinds.newest v' (Or.inl hStart.isHeld) hStart.hasKey trivial)
              have hId : v.id = v'.id := Prod.ext (hFinds.hasKey.trans hStart.hasKey.symm) hTxn
              rw [hInitial, hUnique v hIn v' hStart.isHeld hId]
      · obtain ⟨key, txnId, written⟩ := v
        obtain rfl : key = k := hFinds.hasKey
        refine Or.inl ⟨txnId, (hTxns _).mpr hIn, leaves_eq_some.mpr hLast, fun u hu hWrote => ?_⟩
        obtain ⟨w, hw, rfl, hKey⟩ := hWriter u hu hWrote
        exact hFinds.newest w hw hKey trivial

/-- The committed transactions of a session have a serial order, if nothing takes versions
away from under their reads, and those who write do not touch keys that others have committed
meanwhile. Those who only read may do so. -/
theorem committed_transactions_serialize {codec : Codec} {maxFileSize : Nat} {env : OpenEnv}
    {config : Z1Config} {dir : DataDir} {db : Engine} {ops : List Op}
    (hOpen : Engine.openWithConfig codec maxFileSize env config dir = .ok db)
    (hFresh : ∀ e ∈ db.store.held, e.txnId ≤ db.mvcc.committedTxn)
    (hCopies : ∀ a ∈ db.store.held, ∀ b ∈ db.store.held, a.id = b.id → a = b)
    (hMeets : EachMeets (Engine.step codec) (Undisturbed codec) [] db ops) :
    Serializable (fun k => (db.get k.cf k.key).1)
      (fun k => ((db.run codec ops).2.get k.cf k.key).1) (db.run codec ops).1 := by
  have hEnd : Serves db.mvcc.committedTxn db.visible (db.run codec ops).1 (db.run codec ops).2 := by
    have hRun := runs_invariant (Serves db.mvcc.committedTxn db.visible) (Undisturbed codec)
      (fun _ _ _ hServes hUndisturbed => hServes.step hUndisturbed db.finite_visible)
      (Serves.of_open hOpen hFresh hCopies) hMeets
    simpa using hRun
  generalize (db.run codec ops).1 = past at hEnd ⊢
  generalize (db.run codec ops).2 = last at hEnd ⊢
  have hOld : ∀ e ∈ db.visible, e.txnId ≤ db.mvcc.committedTxn :=
    fun e ⟨_, hWins⟩ => hFresh e hWins.isHeld
  have hUnique : ∀ a ∈ db.visible, ∀ b ∈ db.visible, a.id = b.id → a = b :=
    fun a ⟨_, ha⟩ b ⟨_, hb⟩ => hCopies a ha.isHeld b hb.isHeld
  have hAbove : ∀ t, .committed t ∈ journal past → db.mvcc.committedTxn < t :=
    fun t ht => (hEnd.ledger.began t (hEnd.ledger.committed t ht).2.began).1
  obtain ⟨order, hPerm, hReads, hFinal⟩ := @exists_serial TxnId Z1Key (Option Bytes) id
    (leaves (journal past)) (fun k => (db.get k.cf k.key).1) (committedOf (journal past)) (ReadsKey past)
    (CommittedBefore (journal past)) hEnd.once (fun _ _ _ _ hEq => hEq)
    (fun t ht hBefore => hBefore.2 (hEnd.ledger.committed t hBefore.1).2) hEnd.noCycle
  refine ⟨order, hPerm, fun before t after hSplit k found hRead => ?_, fun k => ?_⟩
  · refine hReads before t after k found hSplit ⟨found, hRead⟩ ?_
    refine (hEnd.reads k t found hRead).2.newestValue (fun u => ?_) hOld (fun u hu => hAbove u hu.1) hUnique
      (db.value_visible k)
    exact ⟨fun hu => hu.2, fun hu => ⟨mem_committedOf.mpr hu.1, hu⟩⟩
  · refine hFinal k _ ?_
    have hValue := hEnd.current.getAt (finite_world db.finite_visible _) hEnd.sound.snapshot_sees k.cf k.key
    dsimp only
    rw [Engine.get_eq last]
    exact hValue.newestValue (fun u => mem_committedOf) hOld hAbove hUnique (db.value_visible k)

/-- A step that evidently disturbs nothing: all copies are hot, nothing is compacted, and the
prune of a commit has nothing to remove. -/
def quiet (codec : Codec) (past : List (Op × Reply)) (db : Engine) : Op → Bool
  | .begin => true
  | .put cf key _ t =>
      decide (Watched (journal past) t ⟨cf, key⟩ ∧ ¬ ReadsLate past t) && db.store.beyondHot.isEmpty
  | .getForTxn cf key t => decide (writesOf (journal past) t ≠ [] → Watched (journal past) t ⟨cf, key⟩)
  | .commit t env =>
      (db.compaction? codec (.commit t env)).isNone &&
        decide ((db.mvcc.enterCommit t env.ts env.insertedAt).overflow = 0 ∧
          (db.mvcc.enterCommit t env.ts env.insertedAt).cutoff env.nowMs = 0)
  | _ => false

theorem Undisturbed.of_quiet {codec : Codec} {past : List (Op × Reply)} {db : Engine} {op : Op}
    (h : quiet codec past db op = true) : Undisturbed codec past db op := by
  cases op with
  | begin => constructor <;> simp [Op.write?, Engine.compaction?]
  | put cf key value t =>
      obtain ⟨hWatched, hBeyond⟩ := Bool.and_eq_true_iff.mp h
      have hBeyond := List.isEmpty_iff.mp hBeyond
      constructor <;> simp [Op.write?, Engine.compaction?, hBeyond, of_decide_eq_true hWatched]
  | getForTxn cf key t =>
      have hWatched := of_decide_eq_true h
      refine ⟨by simp [Op.write?], fun k u hOp hWrites => ?_, by simp [Op.write?], by simp,
        by simp [Engine.compaction?], by simp⟩
      obtain ⟨rfl, rfl, rfl⟩ := Op.getForTxn.inj hOp
      exact hWatched hWrites
  | commit t env =>
      obtain ⟨hNone, hIdle⟩ := Bool.and_eq_true_iff.mp h
      obtain ⟨hCount, hTime⟩ := of_decide_eq_true hIdle
      have hNone := Option.isNone_iff_eq_none.mp hNone
      refine ⟨by simp [Op.write?], by simp, by simp [Op.write?], fun u env' hOp => ?_, by simp [hNone],
        by simp⟩
      obtain ⟨rfl, rfl⟩ := Op.commit.inj hOp
      intro m k e entry _ _
      exact ⟨hCount.le.trans (Nat.zero_le _), fun _ => hTime.le.trans (Nat.zero_le _)⟩
  | _ => cases h

/-- The second transaction has read the key, so the first one is refused; then one that only
reads overtakes a writer. -/
def readersAndWriters : List Op :=
  [.begin, .begin, .getForTxn 0 [107] 2, .put 0 [107] [1] 1, .commit 1 ⟨0, 0, 0, .listed, .succeed⟩,
    .put 0 [107] [2] 2, .commit 2 ⟨0, 0, 0, .listed, .succeed⟩, .begin, .begin, .getForTxn 0 [107] 3,
    .put 0 [109] [4] 4, .commit 4 ⟨0, 0, 0, .listed, .succeed⟩, .getForTxn 0 [109] 3,
    .commit 3 ⟨0, 0, 0, .listed, .succeed⟩]

theorem readers_and_writers_serialize :
    ∃ db, Engine.openWithConfig Postcard.codec engineSegmentSize (.listed 0) {} {} = .ok db ∧
      (db.run Postcard.codec readersAndWriters).1.map Prod.snd = [.began 1, .began 2, .value none, .done,
        .failed (.mvccConflict (.ssiConflict 1 2 false true)), .done, .done, .began 3, .began 4,
        .value (some [2]), .done, .done, .value none, .done] ∧
      Serializable (fun k => (db.get k.cf k.key).1)
        (fun k => ((db.run Postcard.codec readersAndWriters).2.get k.cf k.key).1)
        (db.run Postcard.codec readersAndWriters).1 := by
  have hStart : (Engine.openWithConfig Postcard.codec engineSegmentSize (.listed 0) {} {}).toOption.map
      (fun db => (db.store.held, (db.run Postcard.codec readersAndWriters).1.map Prod.snd)) =
        some ([], [.began 1, .began 2, .value none, .done,
          .failed (.mvccConflict (.ssiConflict 1 2 false true)), .done, .done, .began 3, .began 4,
          .value (some [2]), .done, .done, .value none, .done]) := by decide +kernel
  have hQuiet : (Engine.openWithConfig Postcard.codec engineSegmentSize (.listed 0) {} {}).toOption.map
      (fun db => decide (EachMeets (Engine.step Postcard.codec)
        (fun past db op => quiet Postcard.codec past db op = true) [] db readersAndWriters)) =
        some true := by decide +kernel
  obtain ⟨db, hDb, hState⟩ := Option.map_eq_some_iff.mp hStart
  rw [hDb, Option.map_some, Option.some_inj] at hQuiet
  obtain ⟨hHeld, hReplies⟩ := Prod.mk.inj hState
  have hOpen := ok_of_toOption hDb
  refine ⟨db, hOpen, hReplies, ?_⟩
  refine committed_transactions_serialize hOpen (by rw [hHeld]; simp) (by rw [hHeld]; simp) ?_
  exact (of_decide_eq_true hQuiet).mono fun _ _ _ => Undisturbed.of_quiet

/-- Two transactions; each reads a key that the other one writes, and the second one reads
it after the first one has committed. -/
def writeSkew : List Op :=
  [.begin, .begin, .getForTxn 0 [120] 1, .put 0 [121] [1] 1, .commit 1 ⟨0, 0, 0, .listed, .succeed⟩,
    .getForTxn 0 [121] 2, .put 0 [120] [2] 2, .commit 2 ⟨0, 0, 0, .listed, .succeed⟩]

/-- Both commit, and neither order explains what they have read. -/
theorem write_skew_commits :
    ¬ ∀ ops db, Engine.openWithConfig Postcard.codec engineSegmentSize (.listed 0) {} {} = .ok db →
      Serializable (fun k => (db.get k.cf k.key).1)
        (fun k => ((db.run Postcard.codec ops).2.get k.cf k.key).1) (db.run Postcard.codec ops).1 := by
  have hRun : (Engine.openWithConfig Postcard.codec engineSegmentSize (.listed 0) {} {}).toOption.map
      (fun db => (journal (db.run Postcard.codec writeSkew).1,
        ((db.run Postcard.codec (writeSkew.take 2)).2.step Postcard.codec (.getForTxn 0 [120] 1)).1,
        ((db.run Postcard.codec (writeSkew.take 5)).2.step Postcard.codec (.getForTxn 0 [121] 2)).1)) =
        some ([.began 1, .began 2, .other, .wrote ⟨⟨0, [121]⟩, 1, some [1]⟩, .committed 1, .other,
          .wrote ⟨⟨0, [120]⟩, 2, some [2]⟩, .committed 2], .value none, .value none) := by
    decide +kernel
  obtain ⟨db, hDb, hState⟩ := Option.map_eq_some_iff.mp hRun
  obtain ⟨hJournal, hReplies⟩ := Prod.mk.inj hState
  obtain ⟨hFirst, hSecond⟩ := Prod.mk.inj hReplies
  intro h
  obtain ⟨order, hPerm, hReads, -⟩ := h writeSkew db (ok_of_toOption hDb)
  have hEvents : ∀ i, (db.run Postcard.codec writeSkew).1[i]? = _ :=
    runs_getElem? db writeSkew
  have hFirstRead : (Op.getForTxn 0 [120] 1, Reply.value none) ∈ (db.run Postcard.codec writeSkew).1 := by
    refine List.mem_of_getElem? ((hEvents 2).trans ?_)
    exact congrArg (fun reply => some (Op.getForTxn 0 [120] 1, reply)) hFirst
  have hSecondRead : (Op.getForTxn 0 [121] 2, Reply.value none) ∈ (db.run Postcard.codec writeSkew).1 := by
    refine List.mem_of_getElem? ((hEvents 5).trans ?_)
    exact congrArg (fun reply => some (Op.getForTxn 0 [121] 2, reply)) hSecond
  rw [hJournal] at hPerm hReads
  have hPerm : order.Perm [1, 2] := hPerm
  have hOrder : order = [1, 2] ∨ order = [2, 1] := by
    obtain ⟨a, b, rfl⟩ := List.length_eq_two.mp hPerm.length_eq
    have hOne : 1 ∈ [a, b] := hPerm.mem_iff.mpr (by simp)
    have hTwo : 2 ∈ [a, b] := hPerm.mem_iff.mpr (by simp)
    simp only [List.mem_cons, List.not_mem_nil, or_false] at hOne hTwo
    rcases hOne with rfl | rfl
    · rcases hTwo with hTwo | rfl
      · cases hTwo
      · exact Or.inl rfl
    · rcases hTwo with rfl | hTwo
      · exact Or.inr rfl
      · cases hTwo
  rcases hOrder with rfl | rfl
  · exact absurd (hReads [1] 2 [] rfl ⟨0, [121]⟩ none hSecondRead) (by simp [produced, leaves, writesOf])
  · exact absurd (hReads [2] 1 [] rfl ⟨0, [120]⟩ none hFirstRead) (by simp [produced, leaves, writesOf])

end Z1Kv
