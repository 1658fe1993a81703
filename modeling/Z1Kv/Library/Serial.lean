import Mathlib.Data.List.Sort
import Mathlib.Logic.Relation
import Mathlib.Order.Extension.Linear

/-! Serial orders of transactions over a multi-version store, where a read returns the
version of the highest rank among those it may see. If the dependencies between the
transactions have no cycle, the transactions have a serial order. -/
namespace Z1Kv

section Orders
variable {τ : Type}

/-- A relation without cycles can be put in order. -/
theorem exists_order {before : τ → τ → Prop} (hAcyclic : ∀ t, ¬ Relation.TransGen before t t)
    (txns : List τ) :
    ∃ order : List τ, order.Perm txns ∧ order.Pairwise fun a b => ¬ before b a := by
  classical
  have hPartial : IsPartialOrder τ (Relation.ReflTransGen before) :=
    { refl := fun _ => .refl
      trans := fun _ _ _ => .trans
      antisymm := fun a b hab hba => by
        rcases Relation.reflTransGen_iff_eq_or_transGen.mp hab with hEq | hLt
        · exact hEq.symm
        · exact absurd (hLt.trans_left hba) (hAcyclic a) }
  obtain ⟨le, hLinear, hExtends⟩ := extend_partialOrder (Relation.ReflTransGen before)
  refine ⟨txns.insertionSort le, List.perm_insertionSort le txns, ?_⟩
  refine (List.pairwise_insertionSort le txns).imp fun {a b} hLe hBefore => ?_
  have hEq : a = b := hLinear.antisymm a b hLe (hExtends b a (.single hBefore))
  exact hAcyclic b (.single (hEq ▸ hBefore))

end Orders

section Serial
variable {τ κ V : Type} (rank : τ → Nat) (writes : τ → κ → Option V) (initial : κ → V)

/-- The state that the transactions of a list produce, one after the other. -/
def produced (order : List τ) (k : κ) : V :=
  order.foldl (fun value t => (writes t k).getD value) (initial k)

/-- The value of a key after the transactions of a set, the highest rank first. -/
def NewestValue (txns : Set τ) (k : κ) (value : V) : Prop :=
  (∃ t ∈ txns, writes t k = some value ∧ ∀ u ∈ txns, writes u k ≠ none → rank u ≤ rank t) ∨
    (∀ t ∈ txns, writes t k = none) ∧ value = initial k

/-- The first transaction has to come before the second one: it wrote a key that the
second one wrote with a higher rank, or read having seen it; or it read, without having
seen it, a key that the second one wrote. -/
def DependsOn (reads : τ → κ → Prop) (saw : τ → τ → Prop) (t u : τ) : Prop :=
  t ≠ u ∧ ∃ k, (writes t k ≠ none ∧ writes u k ≠ none ∧ rank t < rank u) ∨
    (writes t k ≠ none ∧ reads u k ∧ saw u t) ∨ (reads t k ∧ writes u k ≠ none ∧ ¬ saw t u)

variable {rank writes initial}

theorem produced_append (before after : List τ) (k : κ) :
    produced writes initial (before ++ after) k =
      produced writes (produced writes initial before) after k := by
  simp [produced]

theorem produced_of_none {order : List τ} {k : κ} (h : ∀ t ∈ order, writes t k = none) :
    produced writes initial order k = initial k := by
  unfold produced
  generalize initial k = value
  induction order with
  | nil => rfl
  | cons t rest ih =>
      rw [List.foldl_cons, h t (by simp), Option.getD_none]
      exact ih fun u hu => h u (by simp [hu])

theorem produced_of_last {before after : List τ} {t : τ} {k : κ} {value : V}
    (ht : writes t k = some value) (hAfter : ∀ u ∈ after, writes u k = none) :
    produced writes initial (before ++ t :: after) k = value := by
  rw [List.append_cons, produced_append, produced_of_none hAfter, produced_append]
  simp [produced, ht]

/-- The last writer of a list that goes up in rank is the one of the highest rank. -/
theorem NewestValue.eq_produced {order : List τ} {txns : Set τ} {k : κ} {value : V}
    (h : NewestValue rank writes initial txns k value)
    (hSame : ∀ t, writes t k ≠ none → (t ∈ order ↔ t ∈ txns))
    (hRanked : order.Pairwise fun a b => writes a k ≠ none → writes b k ≠ none → rank a < rank b) :
    value = produced writes initial order k := by
  rcases h with ⟨t, ht, hWrites, hTop⟩ | ⟨hNone, rfl⟩
  · have hWrote : writes t k ≠ none := by simp [hWrites]
    obtain ⟨before, after, rfl⟩ := List.append_of_mem ((hSame t hWrote).mpr ht)
    refine (produced_of_last hWrites fun u hu => ?_).symm
    by_contra hAlso
    have hLt := (List.pairwise_cons.mp (List.pairwise_append.mp hRanked).2.1).1 u hu hWrote hAlso
    exact absurd (hTop u ((hSame u hAlso).mp (by simp [hu])) hAlso) (Nat.not_le.mpr hLt)
  · refine (produced_of_none fun t ht => ?_).symm
    by_contra hWrote
    exact hWrote (hNone t ((hSame t hWrote).mp ht))

/-- Transactions whose dependencies have no cycle have a serial order. -/
theorem exists_serial {txns : List τ} {reads : τ → κ → Prop} {saw : τ → τ → Prop} (hNodup : txns.Nodup)
    (hRank : ∀ t ∈ txns, ∀ u ∈ txns, rank t = rank u → t = u) (hSaw : ∀ t ∈ txns, ¬ saw t t)
    (hAcyclic : ∀ t, ¬ Relation.TransGen
      (fun a b => a ∈ txns ∧ b ∈ txns ∧ DependsOn rank writes reads saw a b) t t) :
    ∃ order : List τ, order.Perm txns ∧
      (∀ before t after k value, order = before ++ t :: after → reads t k →
        NewestValue rank writes initial {u | u ∈ txns ∧ saw t u} k value →
          value = produced writes initial before k) ∧
      ∀ k value, NewestValue rank writes initial {t | t ∈ txns} k value →
        value = produced writes initial order k := by
  obtain ⟨order, hPerm, hOrder⟩ := exists_order hAcyclic txns
  have hDistinct : order.Nodup := hPerm.nodup_iff.mpr hNodup
  have hRanked : ∀ k, order.Pairwise fun a b =>
      writes a k ≠ none → writes b k ≠ none → rank a < rank b := by
    intro k
    refine (hOrder.and hDistinct).imp_of_mem fun {a b} ha hb hBoth hWroteA hWroteB => ?_
    have hA := hPerm.mem_iff.mp ha
    have hB := hPerm.mem_iff.mp hb
    rcases Nat.lt_trichotomy (rank a) (rank b) with hLt | hEq | hGt
    · exact hLt
    · exact absurd (hRank a hA b hB hEq) hBoth.2
    · exact absurd ⟨hB, hA, Ne.symm hBoth.2, k, Or.inl ⟨hWroteB, hWroteA, hGt⟩⟩ hBoth.1
  refine ⟨order, hPerm, fun before t after k value hSplit hReads hNewest => ?_,
    fun k value hNewest => hNewest.eq_produced (fun t _ => hPerm.mem_iff) (hRanked k)⟩
  subst hSplit
  have hT : t ∈ txns := hPerm.mem_iff.mp (by simp)
  have hApart := List.pairwise_append.mp hDistinct
  have hSides := List.pairwise_append.mp hOrder
  refine hNewest.eq_produced (fun u hWrote => ⟨fun hu => ?_, fun ⟨hu, hSeen⟩ => ?_⟩)
    (List.pairwise_append.mp (hRanked k)).1
  · have hU : u ∈ txns := hPerm.mem_iff.mp (by simp [hu])
    refine ⟨hU, ?_⟩
    by_contra hUnseen
    have hNe : t ≠ u := Ne.symm (hApart.2.2 u hu t (by simp))
    exact hSides.2.2 u hu t (by simp) ⟨hT, hU, hNe, k, Or.inr (Or.inr ⟨hReads, hWrote, hUnseen⟩)⟩
  · have hIn : u ∈ before ++ t :: after := hPerm.mem_iff.mpr hu
    rcases List.mem_append.mp hIn with hBefore | hRest
    · exact hBefore
    · rcases List.mem_cons.mp hRest with rfl | hAfter
      · exact absurd hSeen (hSaw u hT)
      · have hNe : u ≠ t := by
          rintro rfl
          exact (List.pairwise_cons.mp hApart.2.1).1 u hAfter rfl
        exact absurd ⟨hu, hT, hNe, k, Or.inr (Or.inl ⟨hWrote, hReads, hSeen⟩)⟩
          ((List.pairwise_cons.mp hSides.2.1).1 u hAfter)

end Serial
end Z1Kv
