import Z1Kv.Mvcc.Visibility

/-! Core types of the versioned store: `(cf, key, txn_id) -> value | tombstone`.
The wall-clock field of an entry is left out, nothing reads it. -/
namespace Z1Kv

/-- Column family and user key. -/
structure Z1Key where
  cf : UInt16
  key : Bytes
  deriving DecidableEq

/-- One version of one key; `value = none` is a tombstone. -/
structure Z1Entry where
  key : Z1Key
  txnId : TxnId
  value : Option Bytes
  deriving DecidableEq

namespace Z1Entry

/-- What tells versions apart. -/
def id (e : Z1Entry) : Z1Key × TxnId := (e.key, e.txnId)

def isVisibleAtCommit (e : Z1Entry) (snap : TxnSnapshot) : Bool := snap.sees e.txnId

end Z1Entry

/-- `BTreeMap<(Z1Key, TxnId), Z1Entry>`; the key repeats what the entry has. -/
abbrev VersionMap := FinMap (Z1Key × TxnId) (Option Bytes)

namespace VersionMap

def put (m : VersionMap) (e : Z1Entry) : VersionMap := AList.insert e.id e.value m

def putAll (m : VersionMap) (entries : List Z1Entry) : VersionMap := entries.foldl put m

def values (m : VersionMap) : List Z1Entry := m.entries.map fun e => ⟨e.1.1, e.1.2, e.2⟩

theorem mem_values {m : VersionMap} {e : Z1Entry} :
    e ∈ m.values ↔ AList.lookup e.id m = some e.value := by
  rw [values, List.mem_map, ← FinMap.mem_entries]
  constructor
  · rintro ⟨s, hs, rfl⟩
    exact hs
  · exact fun h => ⟨⟨e.id, e.value⟩, h, rfl⟩

/-- A map holds one value for each version. -/
theorem values_inj {m : VersionMap} {a b : Z1Entry} (ha : a ∈ m.values) (hb : b ∈ m.values)
    (h : a.id = b.id) : a = b := by
  rw [mem_values] at ha hb
  rw [h] at ha
  have hValue := Option.some.inj (ha.symm.trans hb)
  cases a
  cases b
  simp_all [Z1Entry.id]

theorem mem_values_put {m : VersionMap} {e new : Z1Entry} :
    e ∈ (m.put new).values ↔ e = new ∨ e ∈ m.values ∧ e.id ≠ new.id := by
  rw [mem_values, mem_values, put]
  by_cases h : e.id = new.id
  · rw [h, AList.lookup_insert]
    constructor
    · intro hValue
      left
      have := Option.some.inj hValue
      cases e
      cases new
      simp_all [Z1Entry.id]
    · rintro (rfl | ⟨-, hNe⟩)
      · rfl
      · exact absurd rfl hNe
  · rw [AList.lookup_insert_ne h]
    constructor
    · exact fun hLookup => Or.inr ⟨hLookup, h⟩
    · rintro (rfl | ⟨hLookup, -⟩)
      · exact absurd rfl h
      · exact hLookup

@[simp] theorem values_empty : values ∅ = [] := rfl

/-- After all insertions a version is the last inserted one with its id, or an
old one. -/
theorem mem_values_putAll {m : VersionMap} {entries : List Z1Entry} {e : Z1Entry}
    (h : e ∈ (m.putAll entries).values) : e ∈ entries ∨ e ∈ m.values ∧ ∀ n ∈ entries, n.id ≠ e.id := by
  induction entries generalizing m with
  | nil => exact Or.inr ⟨h, by simp⟩
  | cons new rest ih =>
      rcases ih h with hRest | ⟨hOld, hOther⟩
      · exact Or.inl (by simp [hRest])
      · rcases mem_values_put.mp hOld with rfl | ⟨hOld, hNe⟩
        · exact Or.inl (by simp)
        · refine Or.inr ⟨hOld, ?_⟩
          intro n hn
          rcases List.mem_cons.mp hn with rfl | hn
          · exact hNe.symm
          · exact hOther n hn

/-- Every inserted version and every old one is there afterwards, possibly with
a later value. -/
theorem exists_putAll {m : VersionMap} {entries : List Z1Entry} {e : Z1Entry}
    (h : e ∈ entries ∨ e ∈ m.values) : ∃ v ∈ (m.putAll entries).values, v.id = e.id := by
  induction entries generalizing m e with
  | nil => exact ⟨e, by simpa [putAll] using h, rfl⟩
  | cons new rest ih =>
      have hStep : ∀ v, v ∈ m.values → ∃ w ∈ (m.put new).values, w.id = v.id := by
        intro v hv
        by_cases hId : v.id = new.id
        · exact ⟨new, mem_values_put.mpr (Or.inl rfl), hId.symm⟩
        · exact ⟨v, mem_values_put.mpr (Or.inr ⟨hv, hId⟩), rfl⟩
      rcases h with h | h
      · rcases List.mem_cons.mp h with rfl | h
        · exact ih (Or.inr (mem_values_put.mpr (Or.inl rfl)))
        · exact ih (Or.inl h)
      · obtain ⟨w, hw, hId⟩ := hStep e h
        obtain ⟨v, hv, hv'⟩ := ih (m := m.put new) (Or.inr hw)
        exact ⟨v, hv, hv'.trans hId⟩

/-- The last inserted version of an id stays. -/
theorem mem_putAll_last {m : VersionMap} {before after : List Z1Entry} {e : Z1Entry}
    (h : ∀ later ∈ after, later.id ≠ e.id) : e ∈ (m.putAll (before ++ e :: after)).values := by
  have hStay : ∀ (after : List Z1Entry) (m : VersionMap), (∀ later ∈ after, later.id ≠ e.id) →
      e ∈ m.values → e ∈ (m.putAll after).values := by
    intro after
    induction after with
    | nil => exact fun m _ he => he
    | cons next rest ih =>
        intro m hOther he
        exact ih (m.put next) (fun later hl => hOther later (by simp [hl]))
          (mem_values_put.mpr (Or.inr ⟨he, (hOther next (by simp)).symm⟩))
  rw [putAll, List.foldl_append, List.foldl_cons]
  exact hStay after _ h (mem_values_put.mpr (Or.inl rfl))

/-- After the insertion of another map its value wins. -/
theorem lookup_putAll (m other : VersionMap) (id : Z1Key × TxnId) :
    AList.lookup id (m.putAll other.values) = (AList.lookup id other).or (AList.lookup id m) := by
  cases hOther : AList.lookup id other with
  | some value =>
      have he : (⟨id.1, id.2, value⟩ : Z1Entry) ∈ other.values := mem_values.mpr hOther
      obtain ⟨v, hv, hId⟩ := @exists_putAll m other.values _ (Or.inl he)
      rcases mem_values_putAll hv with hNew | ⟨-, hNone⟩
      · rw [values_inj hNew he hId] at hv
        exact mem_values.mp hv
      · exact absurd hId.symm (hNone _ he)
  | none =>
      have hOld : ∀ v : Z1Entry, v.id = id → v ∉ other.values := by
        rintro v rfl hv
        rw [mem_values, hOther] at hv
        cases hv
      rw [Option.none_or]
      refine Option.ext fun value => ?_
      have hIff : (⟨id.1, id.2, value⟩ : Z1Entry) ∈ (m.putAll other.values).values ↔
          (⟨id.1, id.2, value⟩ : Z1Entry) ∈ m.values := by
        constructor
        · exact fun he => ((mem_values_putAll he).resolve_left (hOld _ rfl)).1
        · intro he
          obtain ⟨v, hv, hId⟩ := @exists_putAll m other.values _ (Or.inr he)
          obtain ⟨hv', -⟩ := (mem_values_putAll hv).resolve_left (hOld v hId)
          rwa [← values_inj hv' he hId]
      rwa [mem_values, mem_values] at hIff

end VersionMap
end Z1Kv
