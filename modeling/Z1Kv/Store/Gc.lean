import Mathlib.Algebra.BigOperators.Group.List.Basic
import Mathlib.Data.List.SplitBy
import Mathlib.Data.List.TakeWhile
import Z1Kv.Store.Disk

/-! Version reclamation. Of the versions of a key below the watermark only the
newest one is kept; commit history plays no part in the choice. -/
namespace Z1Kv

structure GcStats where
  scanned : Nat
  retained : Nat
  reclaimed : Nat
  deriving DecidableEq

/-- Index of the newest version below the watermark in an ascending chain. -/
def lastBeforeWatermark (watermark : TxnId) (chain : List PatchEntry) : Option Nat :=
  let below := chain.takeWhile (·.txnId < watermark)
  if below = [] then none else some (below.length - 1)

/-- What is kept of the version chain of one key. -/
def gcChain (watermark : TxnId) (chain : List PatchEntry) : List PatchEntry :=
  (chain.zipIdx.filter fun (e, k) =>
    some k = lastBeforeWatermark watermark chain ∨ e.txnId ≥ watermark).map Prod.fst

/-- How many versions of the chain are not kept. -/
def gcReclaimed (watermark : TxnId) (chain : List PatchEntry) : Nat :=
  (chain.zipIdx.filter fun (e, k) =>
    ¬ (some k = lastBeforeWatermark watermark chain ∨ e.txnId ≥ watermark)).length

/-- GC-merge the versions of one column family. -/
def gcEntries (entries : List PatchEntry) (minActiveBeginTs : TxnId) : List PatchEntry × GcStats :=
  let chains := (entries.insertionSort PatchEntry.Le).splitBy fun a b => a.key = b.key
  let retained := chains.flatMap (gcChain minActiveBeginTs)
  (retained,
    { scanned := entries.length
      retained := (chains.map fun chain => (gcChain minActiveBeginTs chain).length).sum
      reclaimed := (chains.map (gcReclaimed minActiveBeginTs)).sum })

theorem gcChain_sublist (watermark : TxnId) (chain : List PatchEntry) :
    (gcChain watermark chain).Sublist chain := by
  have h : (gcChain watermark chain).Sublist (chain.zipIdx.map Prod.fst) :=
    List.filter_sublist.map Prod.fst
  rwa [List.zipIdx_map_fst] at h

theorem mem_gcChain_of_ge {watermark : TxnId} {chain : List PatchEntry} {e : PatchEntry}
    (he : e ∈ chain) (h : watermark ≤ e.txnId) : e ∈ gcChain watermark chain := by
  obtain ⟨k, hk, rfl⟩ := List.getElem_of_mem he
  rw [gcChain, List.mem_map]
  refine ⟨(chain[k], k), ?_, rfl⟩
  rw [List.mem_filter]
  exact ⟨by simp [List.mem_zipIdx_iff_getElem?], by simp [h]⟩

/-- An ascending chain keeps a version at least as new as each one below the
watermark, itself below the watermark. -/
theorem exists_gcChain_of_lt {watermark : TxnId} {chain : List PatchEntry} {e : PatchEntry}
    (hSorted : chain.Pairwise fun a b => a.txnId ≤ b.txnId) (he : e ∈ chain)
    (h : e.txnId < watermark) :
    ∃ kept ∈ gcChain watermark chain, kept.txnId < watermark ∧ e.txnId ≤ kept.txnId := by
  let below := chain.takeWhile (·.txnId < watermark)
  let above := chain.dropWhile (·.txnId < watermark)
  have hSplit : chain = below ++ above := List.takeWhile_append_dropWhile.symm
  have hBelow : e ∈ below := by
    rw [hSplit] at he hSorted
    rcases List.mem_append.mp he with he | he
    · exact he
    · have hNonempty : above ≠ [] := List.ne_nil_of_mem he
      have hHead : ¬ (above.head hNonempty).txnId < watermark := by
        simpa using List.head_dropWhile_not (fun a : PatchEntry => decide (a.txnId < watermark)) hNonempty
      have hLe : (above.head hNonempty).txnId ≤ e.txnId := by
        have hAbove := (List.pairwise_append.mp hSorted).2.1
        obtain ⟨first, rest, hCons⟩ := List.exists_cons_of_ne_nil hNonempty
        simp only [hCons, List.head_cons] at he hAbove ⊢
        rcases List.mem_cons.mp he with rfl | he
        · exact le_rfl
        · exact (List.pairwise_cons.mp hAbove).1 e he
      exact absurd (Nat.lt_of_le_of_lt hLe h) hHead
  have hNonempty : below ≠ [] := List.ne_nil_of_mem hBelow
  obtain ⟨front, last, hLast⟩ := List.eq_nil_or_concat' below |>.resolve_left hNonempty
  have hIndex : lastBeforeWatermark watermark chain = some front.length := by
    rw [lastBeforeWatermark, if_neg hNonempty]
    change some (below.length - 1) = _
    rw [hLast]
    simp
  refine ⟨last, ?_, ?_, ?_⟩
  · rw [gcChain, List.mem_map]
    refine ⟨(last, front.length), ?_, rfl⟩
    rw [List.mem_filter, hIndex]
    refine ⟨?_, by simp⟩
    rw [List.mem_zipIdx_iff_getElem?, hSplit, hLast]
    simp
  · have hMem : last ∈ below := by rw [hLast]; simp
    simpa using List.mem_takeWhile_imp hMem
  · rw [hSplit] at hSorted
    have hAscending := (List.pairwise_append.mp hSorted).1
    rw [hLast] at hAscending hBelow
    rcases List.mem_append.mp hBelow with hFront | hHere
    · exact (List.pairwise_append.mp hAscending).2.2 e hFront last (by simp)
    · exact (List.mem_singleton.mp hHere) ▸ le_rfl

section
variable {entries : List PatchEntry} {watermark : TxnId}

/-- Each chain that the merge looks at belongs to one key and ascends. -/
private theorem chain_facts {chain : List PatchEntry}
    (h : chain ∈ (entries.insertionSort PatchEntry.Le).splitBy fun a b => a.key = b.key) :
    chain.Sublist (entries.insertionSort PatchEntry.Le) ∧
      (∀ a ∈ chain, ∀ b ∈ chain, a.key = b.key) ∧
      chain.Pairwise fun a b => a.txnId ≤ b.txnId := by
  have hSublist : chain.Sublist (entries.insertionSort PatchEntry.Le) := by
    have := List.sublist_flatten_of_mem h
    rwa [List.flatten_splitBy] at this
  have hPairs : chain.Pairwise fun a b => a.key = b.key := by
    have hChain := List.isChain_of_mem_splitBy h
    simp only [decide_eq_true_eq] at hChain
    have : IsTrans PatchEntry fun a b => a.key = b.key := ⟨fun _ _ _ => Eq.trans⟩
    exact List.isChain_iff_pairwise.mp hChain
  have hKeys : ∀ a ∈ chain, ∀ b ∈ chain, a.key = b.key := by
    have : Std.Symm fun a b : PatchEntry => a.key = b.key := ⟨fun _ _ => Eq.symm⟩
    have hSelf : ∀ a ∈ chain, a.key = a.key := fun _ _ => rfl
    exact fun a ha b hb => List.Pairwise.forall_of_forall hSelf hPairs ha hb
  refine ⟨hSublist, hKeys, ?_⟩
  have hSorted := (List.pairwise_insertionSort PatchEntry.Le entries).sublist hSublist
  refine (hSorted.and hPairs).imp ?_
  rintro a b ⟨hLe, hKey⟩
  rcases hLe with hLt | ⟨-, hTxn⟩
  · exact absurd hKey hLt.ne
  · exact hTxn

theorem mem_of_mem_gcEntries {e : PatchEntry} (h : e ∈ (gcEntries entries watermark).1) :
    e ∈ entries := by
  obtain ⟨chain, hChain, he⟩ := List.mem_flatMap.mp h
  have := (gcChain_sublist watermark chain).subset he
  exact (List.mem_insertionSort _).mp ((chain_facts hChain).1.subset this)

private theorem exists_chain {e : PatchEntry} (h : e ∈ entries) :
    ∃ chain ∈ (entries.insertionSort PatchEntry.Le).splitBy fun a b => a.key = b.key, e ∈ chain := by
  rw [← List.mem_flatten, List.flatten_splitBy]
  exact (List.mem_insertionSort _).mpr h

/-- Versions at or above the watermark are kept. -/
theorem mem_gcEntries_of_ge {e : PatchEntry} (h : e ∈ entries) (hTxn : watermark ≤ e.txnId) :
    e ∈ (gcEntries entries watermark).1 := by
  obtain ⟨chain, hChain, he⟩ := exists_chain h
  exact List.mem_flatMap.mpr ⟨chain, hChain, mem_gcChain_of_ge he hTxn⟩

/-- For each version below the watermark one of its key that is at least as new
is kept, itself below the watermark. -/
theorem exists_gcEntries_of_lt {e : PatchEntry} (h : e ∈ entries) (hTxn : e.txnId < watermark) :
    ∃ kept ∈ (gcEntries entries watermark).1,
      kept.key = e.key ∧ kept.txnId < watermark ∧ e.txnId ≤ kept.txnId := by
  obtain ⟨chain, hChain, he⟩ := exists_chain h
  obtain ⟨-, hKeys, hAscending⟩ := chain_facts hChain
  obtain ⟨kept, hKept, hBelow, hNewer⟩ := exists_gcChain_of_lt hAscending he hTxn
  refine ⟨kept, List.mem_flatMap.mpr ⟨chain, hChain, hKept⟩, ?_, hBelow, hNewer⟩
  exact hKeys kept ((gcChain_sublist watermark chain).subset hKept) e he

end

/-- What the merge is for, on a list in the order of keys and transactions: an entry below
the watermark goes if a later one of its key is below the watermark too. -/
def keepNewestBelow (watermark : TxnId) : List PatchEntry → List PatchEntry
  | [] => []
  | e :: later =>
      if watermark ≤ e.txnId ∨ ∀ l ∈ later, l.key = e.key → watermark ≤ l.txnId then
        e :: keepNewestBelow watermark later
      else keepNewestBelow watermark later

/-- The last entry of a key up to a transaction, in the stable order of keys and
transactions. -/
def newestUpTo (entries : List PatchEntry) (key : Bytes) (s : TxnId) : Option PatchEntry :=
  ((entries.insertionSort PatchEntry.Le).filter fun e => e.key = key ∧ e.txnId ≤ s).getLast?

section Keep
variable {watermark : TxnId}

theorem keepNewestBelow_sublist (entries : List PatchEntry) :
    (keepNewestBelow watermark entries).Sublist entries := by
  induction entries with
  | nil => exact .slnil
  | cons e later ih =>
      rw [keepNewestBelow]
      split
      · exact ih.cons_cons e
      · exact ih.cons e

/-- Chains of different keys do not see each other. -/
theorem keepNewestBelow_append {first second : List PatchEntry}
    (h : ∀ a ∈ first, ∀ b ∈ second, b.key ≠ a.key) :
    keepNewestBelow watermark (first ++ second) =
      keepNewestBelow watermark first ++ keepNewestBelow watermark second := by
  induction first with
  | nil => rfl
  | cons e later ih =>
      have hLater := ih fun a ha => h a (List.mem_cons_of_mem _ ha)
      have hSame : (∀ l ∈ later ++ second, l.key = e.key → watermark ≤ l.txnId) ↔
          ∀ l ∈ later, l.key = e.key → watermark ≤ l.txnId := by
        constructor
        · exact fun hAll l hl => hAll l (List.mem_append_left _ hl)
        · intro hAll l hl hKey
          rcases List.mem_append.mp hl with hl | hl
          · exact hAll l hl hKey
          · exact absurd hKey (h e (by simp) l hl)
      rw [List.cons_append, keepNewestBelow, keepNewestBelow, hLater]
      simp only [hSame]
      split <;> rfl

theorem keepNewestBelow_of_ge {entries : List PatchEntry} (h : ∀ e ∈ entries, watermark ≤ e.txnId) :
    keepNewestBelow watermark entries = entries := by
  induction entries with
  | nil => rfl
  | cons e later ih =>
      rw [keepNewestBelow, if_pos (Or.inl (h e (by simp))), ih fun l hl => h l (by simp [hl])]

/-- Of versions below the watermark the last one of the key is left. -/
theorem keepNewestBelow_below {front above : List PatchEntry} {last : PatchEntry}
    (hBelow : ∀ e ∈ front ++ [last], e.txnId < watermark) (hKeys : ∀ e ∈ front, e.key = last.key)
    (hAbove : ∀ e ∈ above, watermark ≤ e.txnId) :
    keepNewestBelow watermark (front ++ last :: above) = last :: above := by
  induction front with
  | nil => rw [List.nil_append, keepNewestBelow, if_pos (Or.inr fun l hl _ => hAbove l hl),
      keepNewestBelow_of_ge hAbove]
  | cons e later ih =>
      rw [List.cons_append, keepNewestBelow, if_neg, ih]
      · exact fun a ha => hBelow a (by simp at ha ⊢; tauto)
      · exact fun a ha => hKeys a (by simp [ha])
      · rintro (hGe | hAll)
        · exact absurd (hBelow e (by simp)) (Nat.not_lt.mpr hGe)
        · exact absurd (hBelow last (by simp))
            (Nat.not_lt.mpr (hAll last (by simp) (hKeys e (by simp)).symm))

/-- A chain is split at the watermark. -/
theorem chain_split {chain : List PatchEntry} (hSorted : chain.Pairwise fun a b => a.txnId ≤ b.txnId) :
    ∃ above, chain = chain.takeWhile (·.txnId < watermark) ++ above ∧
      ∀ e ∈ above, watermark ≤ e.txnId := by
  refine ⟨chain.dropWhile (·.txnId < watermark), List.takeWhile_append_dropWhile.symm, ?_⟩
  induction chain with
  | nil => simp
  | cons e later ih =>
      obtain ⟨hFirst, hLater⟩ := List.pairwise_cons.mp hSorted
      by_cases hLt : e.txnId < watermark
      · rw [List.dropWhile_cons_of_pos (by simpa using hLt)]
        exact ih hLater
      · rw [List.dropWhile_cons_of_neg (by simpa using hLt)]
        intro l hl
        rcases List.mem_cons.mp hl with rfl | hl
        · exact Nat.le_of_not_lt hLt
        · exact (Nat.le_of_not_lt hLt).trans (hFirst l hl)

theorem gcChain_eq {chain : List PatchEntry} (hKeys : ∀ a ∈ chain, ∀ b ∈ chain, a.key = b.key)
    (hSorted : chain.Pairwise fun a b => a.txnId ≤ b.txnId) :
    gcChain watermark chain = keepNewestBelow watermark chain := by
  obtain ⟨above, hSplit, hAbove⟩ := @chain_split watermark chain hSorted
  have hWhile : ∀ e ∈ chain.takeWhile (·.txnId < watermark), e.txnId < watermark :=
    fun e he => by simpa using List.mem_takeWhile_imp he
  rcases List.eq_nil_or_concat' (chain.takeWhile (·.txnId < watermark)) with hNone | ⟨front, last, hLast⟩
  · have hAll : ∀ e ∈ chain, watermark ≤ e.txnId := by
      rw [hSplit, hNone]
      exact hAbove
    rw [keepNewestBelow_of_ge hAll, gcChain, List.filter_eq_self.mpr, List.zipIdx_map_fst]
    rintro ⟨e, k⟩ hIn
    have he : e ∈ chain := (List.mem_zipIdx hIn).2.2 ▸ List.getElem_mem _
    simp [hAll e he]
  · have hIndex : lastBeforeWatermark watermark chain = some front.length := by
      rw [lastBeforeWatermark, hLast, if_neg (by simp)]
      simp
    have hChain : chain = front ++ last :: above := by
      rw [hSplit, hLast, List.append_assoc, List.singleton_append]
    rw [hLast] at hWhile
    have hSame : ∀ e ∈ front, e.key = last.key := fun e he =>
      hKeys e (by simp [hChain, he]) last (by simp [hChain])
    rw [gcChain, hIndex, hChain, keepNewestBelow_below hWhile hSame hAbove, List.zipIdx_append,
      List.filter_append, List.map_append]
    have hFront : (front.zipIdx.filter fun (e, k) =>
        decide (some k = some front.length ∨ e.txnId ≥ watermark)) = [] := by
      rw [List.filter_eq_nil_iff]
      rintro ⟨e, k⟩ hIn
      obtain ⟨-, hLt, hEq⟩ := List.mem_zipIdx hIn
      have he : e ∈ front := hEq ▸ List.getElem_mem _
      have hBelow := hWhile e (by simp [he])
      have hNe : k ≠ front.length := by omega
      simp [hNe, hBelow]
    have hKept : ∀ (entries : List PatchEntry) (start : Nat), (∀ e ∈ entries, watermark ≤ e.txnId) →
        ((entries.zipIdx start).filter fun (e, k) =>
          decide (some k = some front.length ∨ e.txnId ≥ watermark)).map Prod.fst = entries := by
      intro entries start hAll
      rw [List.filter_eq_self.mpr, List.zipIdx_map_fst]
      rintro ⟨e, k⟩ hIn
      have he : e ∈ entries := (List.mem_zipIdx hIn).2.2 ▸ List.getElem_mem _
      simp [hAll e he]
    rw [hFront, List.map_nil, List.nil_append, List.zipIdx_cons, List.filter_cons_of_pos (by simp),
      List.map_cons, hKept above _ hAbove]

/-- The chains of a sorted list one after the other. -/
theorem flatMap_keepNewestBelow {chains : List (List PatchEntry)}
    (hSorted : chains.flatten.Pairwise fun a b => a.key ≤ b.key) (hNonempty : [] ∉ chains)
    (hKeys : ∀ chain ∈ chains, ∀ a ∈ chain, ∀ b ∈ chain, a.key = b.key)
    (hApart : chains.IsChain fun a b => ∃ ha hb, decide ((a.getLast ha).key = (b.head hb).key) = false) :
    chains.flatMap (keepNewestBelow watermark) = keepNewestBelow watermark chains.flatten := by
  induction chains with
  | nil => rfl
  | cons chain rest ih =>
      rw [List.flatten_cons] at hSorted ⊢
      obtain ⟨-, hLater, hBelow⟩ := List.pairwise_append.mp hSorted
      have hRest := ih hLater (fun hIn => hNonempty (by simp [hIn]))
        (fun c hc => hKeys c (List.mem_cons_of_mem _ hc)) hApart.of_cons
      rw [List.flatMap_cons, hRest, keepNewestBelow_append]
      intro a ha b hb hKey
      cases rest with
      | nil => cases hb
      | cons next rest =>
          obtain ⟨hChain, hNext, hDiffer⟩ := (List.isChain_cons_cons.mp hApart).1
          have hHead : (next.head hNext) ∈ (next :: rest).flatten :=
            List.mem_flatten.mpr ⟨next, by simp, List.head_mem hNext⟩
          -- the first key of the rest lies between that of `a` and that of `b`
          have hLow : a.key ≤ (next.head hNext).key := hBelow a ha _ hHead
          have hHigh : (next.head hNext).key ≤ b.key := by
            obtain ⟨first, later, hCons⟩ := List.exists_cons_of_ne_nil hNext
            simp only [hCons, List.head_cons, List.flatten_cons, List.cons_append] at hb hLater ⊢
            rcases List.mem_cons.mp hb with rfl | hb
            · exact le_rfl
            · exact (List.pairwise_cons.mp hLater).1 b hb
          have hSame : (chain.getLast hChain).key = a.key :=
            hKeys chain (by simp) _ (List.getLast_mem hChain) a ha
          refine absurd ?_ (by simpa using hDiffer)
          rw [hSame]
          exact le_antisymm hLow (hHigh.trans hKey.le)

theorem gcEntries_eq (entries : List PatchEntry) :
    (gcEntries entries watermark).1 = keepNewestBelow watermark (entries.insertionSort PatchEntry.Le) := by
  have hChains : (gcEntries entries watermark).1 =
      ((entries.insertionSort PatchEntry.Le).splitBy fun a b => a.key = b.key).flatMap
        (keepNewestBelow watermark) := by
    refine List.flatMap_congr fun chain hChain => ?_
    obtain ⟨-, hKeys, hSorted⟩ := chain_facts hChain
    exact gcChain_eq hKeys hSorted
  rw [hChains, flatMap_keepNewestBelow, List.flatten_splitBy]
  · rw [List.flatten_splitBy]
    exact (List.pairwise_insertionSort PatchEntry.Le entries).imp fun hLe => hLe.key_le
  · exact List.nil_notMem_splitBy _ _
  · exact fun chain hChain => (chain_facts hChain).2.1
  · exact List.isChain_getLast_head_splitBy (fun a b : PatchEntry => decide (a.key = b.key)) _

theorem keepNewestBelow_idem (entries : List PatchEntry) :
    keepNewestBelow watermark (keepNewestBelow watermark entries) = keepNewestBelow watermark entries := by
  induction entries with
  | nil => rfl
  | cons e later ih =>
      rw [keepNewestBelow]
      split
      · next hKept =>
        rw [keepNewestBelow, if_pos, ih]
        exact hKept.imp_right fun hAll l hl => hAll l ((keepNewestBelow_sublist later).subset hl)
      · exact ih

/-- A snapshot at or above the watermark finds the same last entry. -/
theorem getLast?_keepNewestBelow {s : TxnId} (hSnap : watermark ≤ s + 1) (key : Bytes)
    (entries : List PatchEntry) :
    ((keepNewestBelow watermark entries).filter fun e => e.key = key ∧ e.txnId ≤ s).getLast? =
      (entries.filter fun e => e.key = key ∧ e.txnId ≤ s).getLast? := by
  induction entries with
  | nil => rfl
  | cons e later ih =>
      rw [keepNewestBelow]
      split
      · by_cases hMatches : e.key = key ∧ e.txnId ≤ s
        · rw [List.filter_cons_of_pos (by simpa using hMatches),
            List.filter_cons_of_pos (by simpa using hMatches), List.getLast?_cons, List.getLast?_cons, ih]
        · rw [List.filter_cons_of_neg (by simpa using hMatches),
            List.filter_cons_of_neg (by simpa using hMatches), ih]
      · next hDropped =>
        rw [ih]
        by_cases hMatches : e.key = key ∧ e.txnId ≤ s
        · -- a later entry of the key is below the watermark, so it matches as well
          obtain ⟨l, hl, hKey, hBelow⟩ : ∃ l ∈ later, l.key = e.key ∧ l.txnId < watermark := by
            by_contra hNone
            refine hDropped (Or.inr fun l hl hKey => Nat.le_of_not_lt fun hBelow => ?_)
            exact hNone ⟨l, hl, hKey, hBelow⟩
          have hIn : l ∈ later.filter fun e => decide (e.key = key ∧ e.txnId ≤ s) := by
            refine List.mem_filter.mpr ⟨hl, ?_⟩
            have hLe : l.txnId ≤ s := Nat.le_of_lt_succ (hBelow.trans_le hSnap)
            simp [hKey, hMatches.1, hLe]
          rw [List.filter_cons_of_pos (by simpa using hMatches), List.getLast?_cons]
          cases hLast : (later.filter fun e => decide (e.key = key ∧ e.txnId ≤ s)).getLast? with
          | none =>
              rw [List.getLast?_eq_none_iff.mp hLast] at hIn
              cases hIn
          | some last => rfl
        · rw [List.filter_cons_of_neg (by simpa using hMatches)]

theorem gcChain_length (chain : List PatchEntry) :
    chain.length = (gcChain watermark chain).length + gcReclaimed watermark chain := by
  rw [gcChain, gcReclaimed, List.length_map, ← List.length_zipIdx (l := chain) (i := 0)]
  rw [List.length_eq_length_filter_add fun (e, k) =>
    decide (some k = lastBeforeWatermark watermark chain ∨ e.txnId ≥ watermark)]
  simp only [decide_not]

end Keep

/-- The merge keeps the versions from the watermark on and, for each key, the last one below
it, in the order of keys and transactions; so every snapshot that is not below the watermark
finds what it found before. The counts add up, and a second merge changes nothing. -/
theorem gcEntries_conservative (entries : List PatchEntry) (watermark : TxnId) :
    (∀ key s, watermark ≤ s + 1 →
      newestUpTo (gcEntries entries watermark).1 key s = newestUpTo entries key s) ∧
    (gcEntries entries watermark).1.Pairwise PatchEntry.Le ∧
    (gcEntries entries watermark).1 =
      keepNewestBelow watermark (entries.insertionSort PatchEntry.Le) ∧
    (gcEntries entries watermark).2.scanned = entries.length ∧
    (gcEntries entries watermark).2.retained = (gcEntries entries watermark).1.length ∧
    (gcEntries entries watermark).2.scanned =
      (gcEntries entries watermark).2.retained + (gcEntries entries watermark).2.reclaimed ∧
    (gcEntries (gcEntries entries watermark).1 watermark).1 = (gcEntries entries watermark).1 := by
  have hEq := @gcEntries_eq watermark entries
  have hSorted : (gcEntries entries watermark).1.Pairwise PatchEntry.Le := by
    rw [hEq]
    exact (List.pairwise_insertionSort PatchEntry.Le entries).sublist (keepNewestBelow_sublist _)
  refine ⟨fun key s hSnap => ?_, hSorted, hEq, rfl, ?_, ?_, ?_⟩
  · unfold newestUpTo
    rw [hSorted.insertionSort_eq, hEq]
    exact getLast?_keepNewestBelow hSnap key _
  · simp [gcEntries, List.length_flatMap]
  · have hLength : entries.length =
        ((entries.insertionSort PatchEntry.Le).splitBy fun a b => a.key = b.key).flatten.length := by
      rw [List.flatten_splitBy, List.length_insertionSort]
    dsimp only [gcEntries]
    rw [hLength, List.length_flatten, ← List.sum_map_add]
    congr 1
    exact List.map_congr_left fun chain _ => gcChain_length chain
  · rw [gcEntries_eq, hSorted.insertionSort_eq, hEq, keepNewestBelow_idem]

end Z1Kv
