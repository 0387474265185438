import Mathlib.Tactic

/-
This file unfolds computations that keep their state when they fail.
-/

namespace EStateM

variable {ε σ α β : Type}

/-- A sequence continues from the state of its first part, or stops there. -/
@[simp] theorem bind_apply (first : EStateM ε σ α) (next : α → EStateM ε σ β) (state : σ) :
    (first >>= next) state =
      match first state with
      | .ok value after => next value after
      | .error failure after => .error failure after := rfl

/-- A first part that succeeds hands its value and its state on. -/
theorem bind_ok {first : EStateM ε σ α} {state after : σ} {value : α}
    (run : first state = .ok value after) (next : α → EStateM ε σ β) :
    (first >>= next) state = next value after := by
  rw [bind_apply, run]

/-- A first part that fails ends the sequence. -/
theorem bind_error {first : EStateM ε σ α} {state after : σ} {failure : ε}
    (run : first state = .error failure after) (next : α → EStateM ε σ β) :
    (first >>= next) state = .error failure after := by
  rw [bind_apply, run]

/-- A sequence that succeeds has a first part that succeeds. -/
theorem of_bind_ok {first : EStateM ε σ α} {next : α → EStateM ε σ β} {state after : σ} {value : β}
    (run : (first >>= next) state = .ok value after) :
    ∃ result middle, first state = .ok result middle ∧ next result middle = .ok value after := by
  cases start : first state with
  | ok result middle => exact ⟨result, middle, rfl, by rwa [bind_ok start] at run⟩
  | error failure middle =>
      rw [bind_error start] at run
      cases run

@[simp] theorem map_apply (f : α → β) (first : EStateM ε σ α) (state : σ) :
    (f <$> first) state =
      match first state with
      | .ok value after => .ok (f value) after
      | .error failure after => .error failure after := rfl

@[simp] theorem pure_apply (value : α) (state : σ) :
    (pure value : EStateM ε σ α) state = .ok value state := rfl

@[simp] theorem throw_apply (failure : ε) (state : σ) :
    (throw failure : EStateM ε σ α) state = .error failure state := rfl

@[simp] theorem get_apply (state : σ) : (get : EStateM ε σ σ) state = .ok state state := rfl

@[simp] theorem set_apply (after state : σ) :
    (set after : EStateM ε σ PUnit) state = .ok ⟨⟩ after := rfl

@[simp] theorem modify_apply (update : σ → σ) (state : σ) :
    (modify update : EStateM ε σ PUnit) state = .ok ⟨⟩ (update state) := rfl

@[simp] theorem ite_apply (condition : Prop) [Decidable condition]
    (first second : EStateM ε σ α) (state : σ) :
    (if condition then first else second) state =
      if condition then first state else second state := by
  split <;> rfl

/-- Every result of the action meets the condition for its kind. -/
structure Ends (action : EStateM ε σ α) (state : σ) (post : α → σ → Prop) (stop : ε → σ → Prop) :
    Prop where
  of_ok : ∀ {value after}, action state = .ok value after → post value after
  of_error : ∀ {failure after}, action state = .error failure after → stop failure after

section
variable {post : α → σ → Prop} {stop : ε → σ → Prop} {state : σ}

theorem ends_of_ok {action : EStateM ε σ α} {value : α} {after : σ}
    (run : action state = .ok value after) (holds : post value after) :
    action.Ends state post stop := by
  constructor
  · intro other final again
    rw [run] at again
    cases again
    exact holds
  · intro failure final again
    rw [run] at again
    cases again

theorem ends_of_error {action : EStateM ε σ α} {failure : ε} {after : σ}
    (run : action state = .error failure after) (holds : stop failure after) :
    action.Ends state post stop := by
  constructor
  · intro value final again
    rw [run] at again
    cases again
  · intro other final again
    rw [run] at again
    cases again
    exact holds

/-- Two runs with one result end the same way. -/
theorem ends_of_eq {action other : EStateM ε σ α} {start : σ} (same : action state = other start)
    (ends : other.Ends start post stop) : action.Ends state post stop :=
  ⟨fun run => ends.of_ok (same.symm.trans run), fun run => ends.of_error (same.symm.trans run)⟩

/-- A sequence ends well when its second part does from every result of the first. -/
theorem Ends.bind {first : EStateM ε σ β} {next : β → EStateM ε σ α} {middle : β → σ → Prop}
    (start : first.Ends state middle stop)
    (rest : ∀ value after, middle value after → (next value).Ends after post stop) :
    (first >>= next).Ends state post stop := by
  cases run : first state with
  | ok value after => exact ends_of_eq (bind_ok run next) (rest value after (start.of_ok run))
  | error failure after => exact ends_of_error (bind_error run next) (start.of_error run)

/-- A first part with a known result leaves the second part. -/
theorem ends_bind_ok {first : EStateM ε σ β} {next : β → EStateM ε σ α} {value : β} {after : σ}
    (run : first state = .ok value after) (rest : (next value).Ends after post stop) :
    (first >>= next).Ends state post stop :=
  ends_of_eq (bind_ok run next) rest

theorem Ends.mono {action : EStateM ε σ α} {post' : α → σ → Prop} {stop' : ε → σ → Prop}
    (ends : action.Ends state post stop) (good : ∀ value after, post value after → post' value after)
    (bad : ∀ failure after, stop failure after → stop' failure after) :
    action.Ends state post' stop' :=
  ⟨fun run => good _ _ (ends.of_ok run), fun run => bad _ _ (ends.of_error run)⟩

/-- An action that cannot stop returns a value. -/
theorem Ends.returns {action : EStateM ε σ α} (ends : action.Ends state post stop)
    (never : ∀ failure after, ¬ stop failure after) :
    ∃ value after, action state = .ok value after ∧ post value after := by
  cases run : action state with
  | ok value after => exact ⟨value, after, rfl, ends.of_ok run⟩
  | error failure after => exact absurd (ends.of_error run) (never failure after)

end

/-- The run succeeds, and its value and its state pass a test. -/
def Result.passes (test : α → σ → Bool) : EStateM.Result ε σ α → Bool
  | .ok value state => test value state
  | .error _ _ => false

theorem Result.of_passes {test : α → σ → Bool} {result : EStateM.Result ε σ α}
    (passes : result.passes test = true) : ∃ value state, result = .ok value state ∧ test value state = true := by
  cases result with
  | ok value state => exact ⟨value, state, rfl, passes⟩
  | error failure state => cases passes

/-- The run fails in this way. -/
def Result.failsWith [DecidableEq ε] (failure : ε) : EStateM.Result ε σ α → Bool
  | .ok _ _ => false
  | .error other _ => other = failure

theorem Result.of_failsWith [DecidableEq ε] {failure : ε} {result : EStateM.Result ε σ α}
    (fails : result.failsWith failure = true) : ∃ state, result = .error failure state := by
  cases result with
  | ok value state => cases fails
  | error other state => exact ⟨state, by rw [of_decide_eq_true fails]⟩

end EStateM

namespace Except

variable {ε α β : Type}

/-- A first part that succeeds hands its value on. -/
@[simp] theorem ok_bind (value : α) (next : α → Except ε β) : (Except.ok value >>= next) = next value := rfl

/-- A first part that fails ends the sequence. -/
@[simp] theorem error_bind (failure : ε) (next : α → Except ε β) :
    (Except.error failure >>= next) = .error failure := rfl

end Except
