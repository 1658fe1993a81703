import Mathlib.Data.List.Basic

/-! Runs of a machine that answers one input after the other, and the rule for
invariants that may speak about the inputs and answers so far. -/
namespace Z1Kv

section
variable {σ ι ω : Type} (step : σ → ι → ω × σ)

/-- The events of a run, and the state it ends in. -/
def runs (state : σ) : List ι → List (ι × ω) × σ
  | [] => ([], state)
  | input :: rest =>
      let (answer, next) := step state input
      let (events, last) := runs next rest
      ((input, answer) :: events, last)

theorem runs_append (state : σ) (first second : List ι) :
    runs step state (first ++ second) =
      ((runs step state first).1 ++ (runs step (runs step state first).2 second).1,
        (runs step (runs step state first).2 second).2) := by
  induction first generalizing state with
  | nil => rfl
  | cons input rest ih => simp only [List.cons_append, runs, ih]

theorem runs_inputs (state : σ) (inputs : List ι) : (runs step state inputs).1.map Prod.fst = inputs := by
  induction inputs generalizing state with
  | nil => rfl
  | cons input rest ih => simp only [runs, List.map_cons, ih]

/-- Every input of the run meets a condition on the events before it and the
state it is given to. -/
def EachMeets (condition : List (ι × ω) → σ → ι → Prop) (past : List (ι × ω)) (state : σ) :
    List ι → Prop
  | [] => True
  | input :: rest =>
      condition past state input ∧
        EachMeets condition (past ++ [(input, (step state input).1)]) (step state input).2 rest

/-- A run can be checked step by step. -/
instance EachMeets.decidable (condition : List (ι × ω) → σ → ι → Prop)
    [∀ past state input, Decidable (condition past state input)] (past : List (ι × ω)) (state : σ) :
    (inputs : List ι) → Decidable (EachMeets step condition past state inputs)
  | [] => inferInstanceAs (Decidable True)
  | input :: rest =>
      have := EachMeets.decidable condition (past ++ [(input, (step state input).1)]) (step state input).2 rest
      inferInstanceAs (Decidable (_ ∧ EachMeets step condition _ _ rest))

variable {step}

theorem EachMeets.mono {condition condition' : List (ι × ω) → σ → ι → Prop}
    (hWeaker : ∀ past state input, condition past state input → condition' past state input)
    {past : List (ι × ω)} {state : σ} {inputs : List ι} (h : EachMeets step condition past state inputs) :
    EachMeets step condition' past state inputs := by
  induction inputs generalizing past state with
  | nil => trivial
  | cons input rest ih => exact ⟨hWeaker past state input h.1, ih h.2⟩

/-- What each step keeps under the condition holds at the end of a run whose
steps meet it. -/
theorem runs_invariant (invariant : List (ι × ω) → σ → Prop)
    (condition : List (ι × ω) → σ → ι → Prop)
    (hStep : ∀ past state input, invariant past state → condition past state input →
      invariant (past ++ [(input, (step state input).1)]) (step state input).2)
    {past : List (ι × ω)} {state : σ} {inputs : List ι} (hStart : invariant past state)
    (hMeets : EachMeets step condition past state inputs) :
    invariant (past ++ (runs step state inputs).1) (runs step state inputs).2 := by
  induction inputs generalizing past state with
  | nil => simpa [runs] using hStart
  | cons input rest ih =>
      have hNext := ih (hStep past state input hStart hMeets.1) hMeets.2
      simpa [runs] using hNext

/-- The condition holds at each position of the run. -/
theorem EachMeets.of_take {condition : List (ι × ω) → σ → ι → Prop} {past : List (ι × ω)} {state : σ}
    {inputs : List ι}
    (h : ∀ (i : Nat) input, inputs[i]? = some input →
      condition (past ++ (runs step state (inputs.take i)).1) (runs step state (inputs.take i)).2 input) :
    EachMeets step condition past state inputs := by
  induction inputs generalizing past state with
  | nil => trivial
  | cons input rest ih =>
      refine ⟨by simpa [runs] using h 0 input rfl, ih fun i later hi => ?_⟩
      simpa [runs] using h (i + 1) later hi

theorem EachMeets.take {condition : List (ι × ω) → σ → ι → Prop} {past : List (ι × ω)} {state : σ}
    {inputs : List ι} (h : EachMeets step condition past state inputs) (i : Nat) :
    EachMeets step condition past state (inputs.take i) := by
  induction inputs generalizing past state i with
  | nil => simpa using h
  | cons input rest ih =>
      cases i with
      | zero => trivial
      | succ i => exact ⟨h.1, ih h.2 i⟩

theorem EachMeets.getElem? {condition : List (ι × ω) → σ → ι → Prop} {past : List (ι × ω)} {state : σ}
    {inputs : List ι} (h : EachMeets step condition past state inputs) {i : Nat} {input : ι}
    (hInput : inputs[i]? = some input) :
    condition (past ++ (runs step state (inputs.take i)).1) (runs step state (inputs.take i)).2 input := by
  induction inputs generalizing past state i with
  | nil => cases hInput
  | cons first rest ih =>
      cases i with
      | zero =>
          obtain rfl := Option.some.inj hInput
          simpa [runs] using h.1
      | succ i => simpa [runs] using ih h.2 hInput

/-- The event at each position of the run. -/
theorem runs_getElem? (state : σ) (inputs : List ι) (i : Nat) :
    (runs step state inputs).1[i]? =
      inputs[i]?.map fun input => (input, (step (runs step state (inputs.take i)).2 input).1) := by
  induction inputs generalizing state i with
  | nil => rfl
  | cons input rest ih =>
      cases i with
      | zero => simp [runs]
      | succ i => simpa [runs] using ih (step state input).2 i

/-- The beginning of a run is the run on the beginning of the inputs. -/
theorem runs_take (state : σ) (inputs : List ι) (i : Nat) :
    (runs step state (inputs.take i)).1 = (runs step state inputs).1.take i := by
  induction inputs generalizing state i with
  | nil => simp [runs]
  | cons input rest ih =>
      cases i with
      | zero => rfl
      | succ i => simp [runs, ih]

/-- A condition on the inputs alone. -/
theorem EachMeets.of_forall {condition : ι → Prop} {past : List (ι × ω)} {state : σ}
    {inputs : List ι} (h : ∀ input ∈ inputs, condition input) :
    EachMeets step (fun _ _ input => condition input) past state inputs := by
  induction inputs generalizing past state with
  | nil => trivial
  | cons input rest ih => exact ⟨h input (by simp), ih fun i hi => h i (by simp [hi])⟩

/-- A machine whose every step is matched by a step of another has its runs matched by runs
of the other. -/
theorem runs_simulates {τ κ π : Type} {step' : τ → κ → π × τ} {related : σ → τ → Prop}
    {event : ι × ω → κ × π → Prop}
    (hStep : ∀ state mirror input, related state mirror → ∃ input',
      event (input, (step state input).1) (input', (step' mirror input').1) ∧
        related (step state input).2 (step' mirror input').2)
    {state : σ} {mirror : τ} (h : related state mirror) (inputs : List ι) :
    ∃ inputs', List.Forall₂ event (runs step state inputs).1 (runs step' mirror inputs').1 ∧
      related (runs step state inputs).2 (runs step' mirror inputs').2 := by
  induction inputs generalizing state mirror with
  | nil => exact ⟨[], .nil, h⟩
  | cons input rest ih =>
      obtain ⟨input', hEvent, hNext⟩ := hStep state mirror input h
      obtain ⟨rest', hEvents, hLast⟩ := ih hNext
      exact ⟨input' :: rest', .cons hEvent hEvents, hLast⟩

end
end Z1Kv
