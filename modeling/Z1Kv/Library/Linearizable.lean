import Mathlib.Data.List.Pairwise

/-! Calls that overlap in time on an object that is specified by what one call after the
other may do. -/
namespace Z1Kv

inductive CallEvent (Op Ret : Type)
  | invoke (id : Nat) (op : Op)
  | respond (id : Nat) (ret : Ret)

/-- A call with its answer. -/
structure Answered (Op Ret : Type) where
  id : Nat
  op : Op
  ret : Ret

section
variable {σ Op Ret : Type}

/-- Call `p` had returned before call `q` was invoked. -/
def PrecedesIn (history : List (CallEvent Op Ret)) (p q : Nat) : Prop :=
  ∃ early late, history = early ++ late ∧ (∃ ret, .respond p ret ∈ early) ∧ ∃ op, .invoke q op ∈ late

/-- The calls one after the other, each as the specification allows. -/
inductive Legal (spec : σ → Op → Ret → σ → Prop) : σ → List (Answered Op Ret) → σ → Prop
  | nil (s : σ) : Legal spec s [] s
  | cons {s next last : σ} {call : Answered Op Ret} {rest : List (Answered Op Ret)}
      (first : spec s call.op call.ret next) (later : Legal spec next rest last) :
      Legal spec s (call :: rest) last

/-- Every call that has returned stands in the order, with the answer it gave; calls that
have not returned may stand in it. A call that had returned before another was invoked does
not come after it. -/
structure Orders (history : List (CallEvent Op Ret)) (order : List (Answered Op Ret)) : Prop where
  nodup : (order.map Answered.id).Nodup
  invoked : ∀ call ∈ order, .invoke call.id call.op ∈ history
  responded : ∀ id ret, .respond id ret ∈ history → ∃ call ∈ order, call.id = id ∧ call.ret = ret
  realTime : order.Pairwise fun p q => ¬ PrecedesIn history q.id p.id

/-- The calls answer as if each had taken place at one moment between its invocation and
its response, one after the other from `s` to `last`. -/
def LinearizesTo (spec : σ → Op → Ret → σ → Prop) (s : σ) (history : List (CallEvent Op Ret)) (last : σ) :
    Prop :=
  ∃ order, Orders history order ∧ Legal spec s order last

theorem Legal.append {spec : σ → Op → Ret → σ → Prop} {s middle last : σ}
    {first second : List (Answered Op Ret)} (left : Legal spec s first middle)
    (right : Legal spec middle second last) : Legal spec s (first ++ second) last := by
  induction left with
  | nil => exact right
  | cons first later ih => exact .cons first (ih right)

theorem Legal.concat {spec : σ → Op → Ret → σ → Prop} {s middle last : σ}
    {order : List (Answered Op Ret)} {call : Answered Op Ret} (prior : Legal spec s order middle)
    (final : spec middle call.op call.ret last) : Legal spec s (order ++ [call]) last :=
  prior.append (.cons final (.nil last))

variable {history : List (CallEvent Op Ret)} {p q : Nat}

theorem PrecedesIn.responded (h : PrecedesIn history p q) : ∃ ret, .respond p ret ∈ history := by
  obtain ⟨early, late, rfl, ⟨ret, hRet⟩, -⟩ := h
  exact ⟨ret, List.mem_append_left late hRet⟩

theorem precedesIn_concat {event : CallEvent Op Ret} :
    PrecedesIn (history ++ [event]) p q ↔
      PrecedesIn history p q ∨ (∃ ret, .respond p ret ∈ history) ∧ ∃ op, event = .invoke q op := by
  constructor
  · rintro ⟨early, late, hSplit, hEarly, op, hLate⟩
    rcases List.eq_nil_or_concat late with rfl | ⟨late, last, rfl⟩
    · cases hLate
    · rw [List.concat_eq_append, ← List.append_assoc] at hSplit
      obtain ⟨rfl, hLast⟩ := List.append_inj' hSplit rfl
      obtain rfl : event = last := by simpa using hLast
      rw [List.concat_eq_append, List.mem_append, List.mem_singleton] at hLate
      rcases hLate with hIn | hHere
      · exact Or.inl ⟨early, late, rfl, hEarly, op, hIn⟩
      · obtain ⟨ret, hRet⟩ := hEarly
        exact Or.inr ⟨⟨ret, List.mem_append_left late hRet⟩, op, hHere.symm⟩
  · rintro (⟨early, late, rfl, hEarly, op, hLate⟩ | ⟨hRet, op, rfl⟩)
    · exact ⟨early, late ++ [event], by simp, hEarly, op, List.mem_append_left _ hLate⟩
    · exact ⟨history, [.invoke q op], rfl, hRet, op, List.mem_singleton.mpr rfl⟩

/-- An answer comes too late to precede anything. -/
theorem precedesIn_respond {id : Nat} {ret : Ret} :
    PrecedesIn (history ++ [.respond id ret]) p q ↔ PrecedesIn history p q := by
  rw [precedesIn_concat]
  simp

namespace Orders
variable {order early late : List (Answered Op Ret)}

theorem nil : Orders ([] : List (CallEvent Op Ret)) [] where
  nodup := List.nodup_nil
  invoked := by simp
  responded := by simp
  realTime := List.Pairwise.nil

/-- A new call is invoked. -/
theorem invoke (h : Orders history order) {id : Nat} (op : Op)
    (hFresh : ∀ op, .invoke id op ∉ history) : Orders (history ++ [.invoke id op]) order where
  nodup := h.nodup
  invoked call hCall := List.mem_append_left _ (h.invoked call hCall)
  responded other ret hRet := h.responded other ret (by simpa using hRet)
  realTime := by
    refine h.realTime.imp_of_mem fun {p q} hp _ hApart => ?_
    rw [precedesIn_concat]
    rintro (hBefore | ⟨-, op', hNew⟩)
    · exact hApart hBefore
    · injection hNew with hId
      exact hFresh p.op (hId ▸ h.invoked p hp)

/-- A call of the order returns. -/
theorem respond (h : Orders history order) {call : Answered Op Ret} (hCall : call ∈ order) :
    Orders (history ++ [.respond call.id call.ret]) order where
  nodup := h.nodup
  invoked other hOther := List.mem_append_left _ (h.invoked other hOther)
  responded other ret hRet := by
    rw [List.mem_append, List.mem_singleton] at hRet
    rcases hRet with hBefore | hNow
    · exact h.responded other ret hBefore
    · injection hNow with hId hSame
      exact ⟨call, hCall, hId.symm, hSame.symm⟩
  realTime := h.realTime.imp fun hApart => by
    rw [precedesIn_respond]
    exact hApart

/-- A call that has not returned takes its place, before calls that returned after it was
invoked. -/
theorem insert (h : Orders history (early ++ late)) {call : Answered Op Ret}
    (hInvoked : .invoke call.id call.op ∈ history)
    (hPending : ∀ ret, .respond call.id ret ∉ history)
    (hNew : call.id ∉ (early ++ late).map Answered.id)
    (hLate : ∀ other ∈ late, ¬ PrecedesIn history other.id call.id) :
    Orders history (early ++ call :: late) where
  nodup := by
    have hPerm : ((early ++ call :: late).map Answered.id).Perm
        (call.id :: (early ++ late).map Answered.id) := List.perm_middle.map _
    exact hPerm.nodup_iff.mpr (List.nodup_cons.mpr ⟨hNew, h.nodup⟩)
  invoked other hOther := by
    rw [List.mem_append, List.mem_cons] at hOther
    rcases hOther with hEarly | rfl | hAfter
    · exact h.invoked other (List.mem_append_left late hEarly)
    · exact hInvoked
    · exact h.invoked other (List.mem_append_right early hAfter)
  responded id ret hRet := by
    obtain ⟨other, hOther, hAnswer⟩ := h.responded id ret hRet
    refine ⟨other, ?_, hAnswer⟩
    rw [List.mem_append] at hOther
    rcases hOther with hEarly | hAfter
    · exact List.mem_append_left _ hEarly
    · exact List.mem_append_right _ (List.mem_cons_of_mem _ hAfter)
  realTime := by
    obtain ⟨hEarly, hAfter, hAcross⟩ := List.pairwise_append.mp h.realTime
    refine List.pairwise_append.mpr ⟨hEarly, List.pairwise_cons.mpr ⟨hLate, hAfter⟩, ?_⟩
    intro p hp q hq
    rcases List.mem_cons.mp hq with rfl | hq
    · intro hBefore
      obtain ⟨ret, hRet⟩ := hBefore.responded
      exact hPending ret hRet
    · exact hAcross p hp q hq

/-- A call that has not returned takes the last place. -/
theorem concat (h : Orders history order) {call : Answered Op Ret}
    (hInvoked : .invoke call.id call.op ∈ history)
    (hPending : ∀ ret, .respond call.id ret ∉ history)
    (hNew : call.id ∉ order.map Answered.id) : Orders history (order ++ [call]) := by
  have hWith : Orders history (order ++ []) := by rwa [List.append_nil]
  exact hWith.insert hInvoked hPending (by simpa using hNew) (by simp)

end Orders
end
end Z1Kv
