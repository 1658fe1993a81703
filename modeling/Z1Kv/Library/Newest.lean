import Mathlib.Data.Set.Basic
import Mathlib.Order.Defs.LinearOrder

/-! Multi-version reads over arbitrary sets of versions: a read at a key finds
the newest version that is visible. What changes the set or the visibility
without touching that version changes no read. -/
namespace Z1Kv

section
variable {V κ τ : Type} [LinearOrder τ] (key : V → κ) (rank : V → τ)

/-- The newest visible version of a key. -/
structure IsNewest (held : Set V) (visible : τ → Prop) (k : κ) (v : V) : Prop where
  isHeld : v ∈ held
  hasKey : key v = k
  isVisible : visible (rank v)
  newest : ∀ w ∈ held, key w = k → visible (rank w) → rank w ≤ rank v

/-- What a read at a key may find. -/
def Finds (held : Set V) (visible : τ → Prop) (k : κ) : Option V → Prop
  | some v => IsNewest key rank held visible k v
  | none => ∀ w ∈ held, key w = k → ¬ visible (rank w)

/-- Two versions of one key and rank are the same. -/
def Consistent (held : Set V) : Prop :=
  ∀ a ∈ held, ∀ b ∈ held, key a = key b → rank a = rank b → a = b

variable {key rank} {held held' : Set V} {visible visible' : τ → Prop} {k : κ} {found found' : Option V}

omit [LinearOrder τ] in
theorem Consistent.mono (h : Consistent key rank held) (hSub : held' ⊆ held) :
    Consistent key rank held' :=
  fun a ha b hb => h a (hSub ha) b (hSub hb)

/-- What a read finds is determined if the visible versions of its key are consistent. -/
theorem Finds.unique (hConsistent : Consistent key rank {v | v ∈ held ∧ key v = k ∧ visible (rank v)})
    (h : Finds key rank held visible k found) (h' : Finds key rank held visible k found') :
    found = found' := by
  cases found with
  | none =>
      cases found' with
      | none => rfl
      | some v => exact absurd h'.isVisible (h v h'.isHeld h'.hasKey)
  | some v =>
      cases found' with
      | none => exact absurd h.isVisible (h' v h.isHeld h.hasKey)
      | some w =>
          have hRank := le_antisymm (h'.newest v h.isHeld h.hasKey h.isVisible)
            (h.newest w h'.isHeld h'.hasKey h'.isVisible)
          have hSame := hConsistent v ⟨h.isHeld, h.hasKey, h.isVisible⟩ w ⟨h'.isHeld, h'.hasKey, h'.isVisible⟩
          rw [hSame (h.hasKey.trans h'.hasKey.symm) hRank]

/-- Only the visibility of the versions of the key matters. -/
theorem Finds.congr (h : Finds key rank held visible k found)
    (hVisible : ∀ v ∈ held, key v = k → (visible (rank v) ↔ visible' (rank v))) :
    Finds key rank held visible' k found := by
  cases found with
  | none => exact fun w hw hKey => (hVisible w hw hKey).not.mp (h w hw hKey)
  | some v =>
      exact ⟨h.isHeld, h.hasKey, (hVisible v h.isHeld h.hasKey).mp h.isVisible, fun w hw hKey hSeen =>
        h.newest w hw hKey ((hVisible w hw hKey).mpr hSeen)⟩

end
end Z1Kv
