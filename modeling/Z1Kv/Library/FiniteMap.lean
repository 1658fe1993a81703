import Mathlib.Data.List.AList
import Mathlib.Data.List.MinMax
import Mathlib.Data.List.TakeWhile
import Mathlib.Data.List.Sort

/-! Finite maps as association lists without repeated keys: bulk removal,
insertion of the larger of two values, iteration by ascending key, and the last
maximum of a list. -/
namespace Z1Kv

abbrev FinMap (κ V : Type) := AList fun _ : κ => V

namespace FinMap
section
variable {κ V : Type} [DecidableEq κ]

/-- Keep the entries that satisfy the predicate. -/
def retain (keep : κ → V → Bool) (m : FinMap κ V) : FinMap κ V :=
  ⟨m.entries.filter fun e => keep e.1 e.2, m.nodupKeys.sublist List.filter_sublist⟩

theorem mem_lookup_retain {keep : κ → V → Bool} {m : FinMap κ V} {k : κ} {v : V} :
    AList.lookup k (m.retain keep) = some v ↔ AList.lookup k m = some v ∧ keep k v = true := by
  rw [← Option.mem_def, ← Option.mem_def, AList.mem_lookup_iff, AList.mem_lookup_iff]
  simp [retain]

/-- Remove every listed key. -/
def eraseAll (m : FinMap κ V) (keys : List κ) : FinMap κ V :=
  keys.foldl (fun m k => AList.erase k m) m

theorem lookup_eraseAll (m : FinMap κ V) (keys : List κ) (k : κ) :
    AList.lookup k (m.eraseAll keys) = if k ∈ keys then none else AList.lookup k m := by
  induction keys generalizing m with
  | nil => simp [eraseAll]
  | cons first rest ih =>
      rw [eraseAll, List.foldl_cons, ← eraseAll, ih]
      by_cases hRest : k ∈ rest
      · simp [hRest]
      · by_cases hFirst : k = first
        · subst hFirst
          simp
        · simp [hRest, hFirst, AList.lookup_erase_ne hFirst]

/-- Insert every pair; a later one replaces an earlier one. -/
def insertAll (m : FinMap κ V) (pairs : List (κ × V)) : FinMap κ V :=
  pairs.foldl (fun m pair => AList.insert pair.1 pair.2 m) m

/-- What is found after the insertions is one of the pairs, or was there under a
key that none of them has. -/
theorem lookup_insertAll {m : FinMap κ V} {pairs : List (κ × V)} {k : κ} {v : V}
    (h : AList.lookup k (m.insertAll pairs) = some v) :
    (k, v) ∈ pairs ∨ AList.lookup k m = some v ∧ ∀ pair ∈ pairs, pair.1 ≠ k := by
  induction pairs generalizing m with
  | nil => exact Or.inr ⟨h, by simp⟩
  | cons first rest ih =>
      rcases ih h with hRest | ⟨hLookup, hNone⟩
      · exact Or.inl (by simp [hRest])
      · by_cases hKey : k = first.1
        · subst hKey
          rw [AList.lookup_insert] at hLookup
          obtain rfl := Option.some.inj hLookup
          exact Or.inl (by simp)
        · rw [AList.lookup_insert_ne hKey] at hLookup
          refine Or.inr ⟨hLookup, ?_⟩
          intro pair hp
          rcases List.mem_cons.mp hp with rfl | hp
          · exact Ne.symm hKey
          · exact hNone pair hp

theorem mem_insertAll {m : FinMap κ V} {pairs : List (κ × V)} {k : κ} :
    k ∈ m.insertAll pairs ↔ k ∈ m ∨ k ∈ pairs.map Prod.fst := by
  induction pairs generalizing m with
  | nil => simp [insertAll]
  | cons first rest ih =>
      rw [insertAll, List.foldl_cons, ← insertAll, ih, AList.mem_insert, List.map_cons,
        List.mem_cons]
      tauto

/-- Replace each value, by its key. -/
def mapValues {W : Type} (f : κ → V → W) (m : FinMap κ V) : FinMap κ W :=
  ⟨m.entries.map fun e => ⟨e.1, f e.1 e.2⟩, by
    rw [List.NodupKeys, List.keys, List.map_map]
    exact m.nodupKeys⟩

@[simp] theorem lookup_mapValues {W : Type} (f : κ → V → W) (m : FinMap κ V) (k : κ) :
    AList.lookup k (m.mapValues f) = (AList.lookup k m).map (f k) :=
  List.dlookup_map₂ k

theorem mem_iff_lookup {m : FinMap κ V} {k : κ} : k ∈ m ↔ ∃ v, AList.lookup k m = some v := by
  rw [← AList.lookup_isSome, Option.isSome_iff_exists]

theorem mem_entries {m : FinMap κ V} {k : κ} {v : V} :
    ⟨k, v⟩ ∈ m.entries ↔ AList.lookup k m = some v := by
  rw [← AList.mem_lookup_iff, Option.mem_def]

end

section
variable {κ V : Type} [DecidableEq κ]

/-- Insert unless the value already there ranks at least as high. -/
def keepMax (rank : V → Nat) (m : FinMap κ V) (k : κ) (v : V) : FinMap κ V :=
  match AList.lookup k m with
  | some current => if rank current ≥ rank v then m else AList.insert k v m
  | none => AList.insert k v m

theorem lookup_keepMax_ne (rank : V → Nat) (m : FinMap κ V) {k other : κ} (v : V) (h : k ≠ other) :
    AList.lookup k (m.keepMax rank other v) = AList.lookup k m := by
  unfold keepMax
  split
  · split
    · rfl
    · exact AList.lookup_insert_ne h
  · exact AList.lookup_insert_ne h

theorem lookup_keepMax (rank : V → Nat) (m : FinMap κ V) (k : κ) (v : V) :
    ∃ best, AList.lookup k (m.keepMax rank k v) = some best ∧ rank v ≤ rank best ∧
      (∀ old, AList.lookup k m = some old → rank old ≤ rank best) ∧
      (best = v ∨ AList.lookup k m = some best) := by
  unfold keepMax
  cases hOld : AList.lookup k m with
  | none => exact ⟨v, by simp, le_rfl, by simp, Or.inl rfl⟩
  | some current =>
      by_cases hRank : rank current ≥ rank v
      · exact ⟨current, by simp [hRank, hOld], hRank, by simp, Or.inr rfl⟩
      · refine ⟨v, by simp [hRank], le_rfl, ?_, Or.inl rfl⟩
        rintro old hCurrent
        obtain rfl := Option.some.inj hCurrent
        omega

/-- Insert all pairs, a larger value winning over a smaller one. -/
def keepMaxAll (rank : V → Nat) (m : FinMap κ V) (pairs : List (κ × V)) : FinMap κ V :=
  pairs.foldl (fun m pair => m.keepMax rank pair.1 pair.2) m

/-- What is found under a key afterwards was there or is one of the pairs, and
ranks highest among them. -/
theorem keepMaxAll_sound (rank : V → Nat) {m : FinMap κ V} {pairs : List (κ × V)} {k : κ} {best : V}
    (h : AList.lookup k (m.keepMaxAll rank pairs) = some best) :
    (AList.lookup k m = some best ∨ (k, best) ∈ pairs) ∧
      (∀ old, AList.lookup k m = some old → rank old ≤ rank best) ∧
      ∀ v, (k, v) ∈ pairs → rank v ≤ rank best := by
  induction pairs generalizing m with
  | nil =>
      refine ⟨Or.inl h, ?_, by simp⟩
      intro old hOld
      exact (Option.some.inj (hOld.symm.trans h)) ▸ le_rfl
  | cons pair rest ih =>
      obtain ⟨hFrom, hOld, hRest⟩ := ih h
      by_cases hKey : k = pair.1
      · obtain ⟨middle, hLookup, hPair, hBefore, hMiddle⟩ := lookup_keepMax rank m pair.1 pair.2
        rw [hKey] at hFrom hOld hRest ⊢
        have hLe := hOld middle hLookup
        refine ⟨?_, fun old h => (hBefore old h).trans hLe, ?_⟩
        · rcases hFrom with hFrom | hFrom
          · obtain rfl := Option.some.inj (hLookup.symm.trans hFrom)
            rcases hMiddle with rfl | hMiddle
            · exact Or.inr (by simp)
            · exact Or.inl hMiddle
          · exact Or.inr (by simp [hFrom])
        · intro v hv
          rcases List.mem_cons.mp hv with hv | hv
          · obtain rfl : v = pair.2 := congrArg Prod.snd hv
            exact hPair.trans hLe
          · exact hRest v hv
      · rw [lookup_keepMax_ne rank m pair.2 hKey] at hFrom hOld
        refine ⟨hFrom.imp id fun h => by simp [h], hOld, ?_⟩
        intro v hv
        rcases List.mem_cons.mp hv with hv | hv
        · exact absurd (congrArg Prod.fst hv) hKey
        · exact hRest v hv

/-- A key of one of the pairs is found afterwards. -/
theorem keepMaxAll_complete (rank : V → Nat) {m : FinMap κ V} {pairs : List (κ × V)} {k : κ}
    (h : k ∈ m ∨ ∃ v, (k, v) ∈ pairs) : k ∈ m.keepMaxAll rank pairs := by
  induction pairs generalizing m with
  | nil => simpa [keepMaxAll] using h
  | cons pair rest ih =>
      apply ih
      by_cases hKey : k = pair.1
      · obtain ⟨middle, hLookup, -⟩ := lookup_keepMax rank m pair.1 pair.2
        exact Or.inl (mem_iff_lookup.mpr ⟨middle, by rw [hKey]; exact hLookup⟩)
      · rcases h with h | ⟨v, hv⟩
        · obtain ⟨v, hv⟩ := mem_iff_lookup.mp h
          exact Or.inl (mem_iff_lookup.mpr ⟨v, by rw [lookup_keepMax_ne rank m pair.2 hKey]; exact hv⟩)
        · rcases List.mem_cons.mp hv with hv | hv
          · exact absurd (congrArg Prod.fst hv) hKey
          · exact Or.inr ⟨v, hv⟩

end

section
variable {κ V : Type} [LinearOrder κ]

/-- The entries by ascending key. -/
def ascending (m : FinMap κ V) : List (κ × V) :=
  (m.entries.map fun e => (e.1, e.2)).insertionSort (·.1 ≤ ·.1)

theorem mem_ascending [DecidableEq κ] {m : FinMap κ V} {pair : κ × V} :
    pair ∈ m.ascending ↔ AList.lookup pair.1 m = some pair.2 := by
  rw [ascending, List.mem_insertionSort, List.mem_map, ← mem_entries]
  constructor
  · rintro ⟨e, he, rfl⟩
    exact he
  · exact fun h => ⟨⟨pair.1, pair.2⟩, h, rfl⟩

theorem ascending_pairwise (m : FinMap κ V) : m.ascending.Pairwise (·.1 < ·.1) := by
  have hSorted : m.ascending.Pairwise (·.1 ≤ ·.1) := by
    have := List.pairwise_insertionSort (fun a b : κ × V => a.1 ≤ b.1)
      (m.entries.map fun e => (e.1, e.2))
    exact this
  have hNodup : (m.ascending.map Prod.fst).Nodup := by
    have hPerm := (List.perm_insertionSort (fun a b : κ × V => a.1 ≤ b.1)
      (m.entries.map fun e => (e.1, e.2))).map Prod.fst
    refine hPerm.nodup_iff.mpr ?_
    rw [List.map_map]
    exact m.nodupKeys
  have hNe := List.pairwise_map.mp hNodup
  exact (hSorted.and hNe).imp fun h => lt_of_le_of_ne h.1 h.2

end
end FinMap

/-- The last element of largest rank. -/
def maxByKey {α : Type} (rank : α → Nat) (l : List α) : Option α := l.reverse.argmax rank

section
variable {α : Type} {rank : α → Nat} {l : List α}

theorem maxByKey_eq_none : maxByKey rank l = none ↔ l = [] := by
  simp [maxByKey]

theorem maxByKey_mem {a : α} (h : maxByKey rank l = some a) : a ∈ l := by
  simpa using List.argmax_mem h

theorem le_maxByKey {a b : α} (h : maxByKey rank l = some a) (hb : b ∈ l) : rank b ≤ rank a :=
  List.le_of_mem_argmax (by simpa using hb) h

/-- An element of largest rank is found if any element is there. -/
theorem maxByKey_exists {b : α} (hb : b ∈ l) : ∃ a, maxByKey rank l = some a ∧ rank b ≤ rank a := by
  cases h : maxByKey rank l with
  | none =>
      rw [maxByKey_eq_none.mp h] at hb
      simp at hb
  | some a => exact ⟨a, rfl, le_maxByKey h hb⟩

/-- The element found is the last one of its rank. -/
theorem maxByKey_getLast {a : α} (h : maxByKey rank l = some a) :
    (l.filter (rank · = rank a)).getLast? = some a := by
  have hHead : ∀ m : List α, m.argmax rank = some a → (m.filter (rank · = rank a)).head? = some a := by
    intro m
    induction m with
    | nil => exact fun h => by simp at h
    | cons x rest ih =>
        intro hMax
        rw [List.argmax_cons] at hMax
        cases hRest : rest.argmax rank with
        | none =>
            rw [hRest] at hMax
            obtain rfl := Option.some.inj hMax
            simp
        | some c =>
            simp only [hRest] at hMax
            split at hMax
            · next hLt =>
              obtain rfl := Option.some.inj hMax
              rw [List.filter_cons_of_neg (by simpa using hLt.ne)]
              exact ih hRest
            · obtain rfl := Option.some.inj hMax
              simp
  have hReverse := hHead l.reverse h
  rwa [List.filter_reverse, List.head?_reverse] at hReverse

/-- Sorting by rank keeps the order among elements of one rank. -/
theorem filter_insertionSort (r : Nat) :
    (l.insertionSort (rank · ≤ rank ·)).filter (rank · = r) = l.filter (rank · = r) := by
  have hInsert : ∀ (x : α) (m : List α), (m.orderedInsert (rank · ≤ rank ·) x).filter (rank · = r) =
      (x :: m).filter (rank · = r) := by
    intro x m
    induction m with
    | nil => rfl
    | cons y rest ih =>
        rw [List.orderedInsert_cons]
        split
        · rfl
        · next hLt =>
          rw [List.filter_cons, ih]
          by_cases hx : rank x = r
          · have hy : rank y ≠ r := by omega
            simp [hx, hy]
          · simp [List.filter_cons, hx]
  induction l with
  | nil => rfl
  | cons x rest ih =>
      rw [List.insertionSort_cons, hInsert, List.filter_cons, List.filter_cons, ih]

/-- Among the first `n` of a list sorted by rank stand elements with fewer than
`n` below them. -/
theorem countP_lt_of_mem_take {n : Nat} {x : α} (hSorted : l.Pairwise (rank · ≤ rank ·))
    (hx : x ∈ l.take n) : l.countP (rank · < rank x) < n := by
  have hSplit : (l.take n ++ l.drop n).Pairwise (rank · ≤ rank ·) := by
    rw [List.take_append_drop]
    exact hSorted
  have hAbove := (List.pairwise_append.mp hSplit).2.2 x hx
  have hRest : (l.drop n).countP (rank · < rank x) = 0 := by
    rw [List.countP_eq_zero]
    intro y hy
    simpa using hAbove y hy
  have hFirst : (l.take n).countP (rank · < rank x) < (l.take n).length := by
    refine lt_of_le_of_ne List.countP_le_length fun hAll => ?_
    simpa using List.countP_eq_length.mp hAll x hx
  have hLength : (l.take n).length ≤ n := List.length_take_le n l
  have hCount := congrArg (List.countP (rank · < rank x)) (List.take_append_drop n l)
  rw [List.countP_append, hRest] at hCount
  omega

/-- After them stand elements with more than `n` not above them. -/
theorem lt_countP_of_mem_drop {n : Nat} {x : α} (hSorted : l.Pairwise (rank · ≤ rank ·))
    (hx : x ∈ l.drop n) : n < l.countP (rank · ≤ rank x) := by
  have hSplit : (l.take n ++ l.drop n).Pairwise (rank · ≤ rank ·) := by
    rw [List.take_append_drop]
    exact hSorted
  have hBelow := (List.pairwise_append.mp hSplit).2.2
  have hFirst : (l.take n).countP (rank · ≤ rank x) = (l.take n).length := by
    rw [List.countP_eq_length]
    intro y hy
    simpa using hBelow y hy x hx
  have hRest : 0 < (l.drop n).countP (rank · ≤ rank x) :=
    List.countP_pos_iff.mpr ⟨x, hx, by simp⟩
  have hLength : n < l.length := by
    have := List.length_pos_of_mem hx
    rw [List.length_drop] at this
    omega
  have hCount := congrArg (List.countP (rank · ≤ rank x)) (List.take_append_drop n l)
  rw [List.countP_append, hFirst, List.length_take] at hCount
  omega

/-- An element in front of its list is sorted behind those below it only. -/
theorem mem_take_insertionSort {n : Nat} {x : α} (h : l.countP (rank · < rank x) < n) :
    x ∈ ((x :: l).insertionSort (rank · ≤ rank ·)).take n := by
  rw [List.insertionSort_cons_eq_take_drop]
  have hBelow : ((l.insertionSort (rank · ≤ rank ·)).takeWhile
      fun y => ¬ rank x ≤ rank y).length < n := by
    have hAll : ((l.insertionSort (rank · ≤ rank ·)).takeWhile
        fun y => ¬ rank x ≤ rank y).countP (rank · < rank x) =
          ((l.insertionSort (rank · ≤ rank ·)).takeWhile fun y => ¬ rank x ≤ rank y).length := by
      rw [List.countP_eq_length]
      intro y hy
      simpa using List.mem_takeWhile_imp hy
    have hCount := (List.takeWhile_sublist (l := l.insertionSort (rank · ≤ rank ·))
      fun y => ¬ rank x ≤ rank y).countP_le (p := (rank · < rank x))
    rw [hAll, (List.perm_insertionSort _ l).countP_eq] at hCount
    exact lt_of_le_of_lt hCount h
  rw [List.take_append, List.mem_append]
  refine Or.inr ?_
  obtain ⟨k, hk⟩ := Nat.exists_eq_succ_of_ne_zero (Nat.sub_ne_zero_of_lt hBelow)
  rw [hk, List.take_succ_cons]
  exact List.mem_cons_self

end
end Z1Kv
