import Menoetius.Lib.ErrorState

/-
This file relates the last state of a computation to its first one.
-/

namespace EStateM

variable {ε σ α β : Type}

/-- The action ends in a state that is related to the first one. After a failure that does not count any state will do. -/
def Relates (relation : σ → σ → Prop) (counts : ε → Prop) (action : EStateM ε σ α) : Prop :=
  ∀ state, action.Ends state (fun _ after => relation state after) fun failure after =>
    counts failure → relation state after

section
variable {relation : σ → σ → Prop} {counts : ε → Prop}

/-- A sequence relates its ends when its second part does after every value that the first part returns. -/
theorem Relates.bind_of [IsTrans σ relation] {first : EStateM ε σ α} {next : α → EStateM ε σ β} {post : α → Prop}
    (start : first.Relates relation counts) (returns : ∀ state value after, first state = .ok value after → post value)
    (rest : ∀ value, post value → (next value).Relates relation counts) : (first >>= next).Relates relation counts := by
  intro state
  cases run : first state with
  | ok value middle =>
      have related := (start state).of_ok run
      apply ends_bind_ok run
      apply (rest value (returns state value middle run) middle).mono
      · exact fun _ _ later => IsTrans.trans _ _ _ related later
      · exact fun _ _ later counted => IsTrans.trans _ _ _ related (later counted)
  | error failure middle => exact ends_of_error (bind_error run next) ((start state).of_error run)

theorem Relates.bind [IsTrans σ relation] {first : EStateM ε σ α} {next : α → EStateM ε σ β}
    (start : first.Relates relation counts) (rest : ∀ value, (next value).Relates relation counts) :
    (first >>= next).Relates relation counts :=
  start.bind_of (fun _ _ _ _ => trivial) fun value _ => rest value

theorem relates_pure [Std.Refl relation] (value : α) : (pure value : EStateM ε σ α).Relates relation counts :=
  fun state => ends_of_ok rfl (Std.Refl.refl state)

theorem relates_throw [Std.Refl relation] (failure : ε) : (throw failure : EStateM ε σ α).Relates relation counts :=
  fun state => ends_of_error rfl fun _ => Std.Refl.refl state

theorem relates_get [Std.Refl relation] : (get : EStateM ε σ σ).Relates relation counts :=
  fun state => ends_of_ok rfl (Std.Refl.refl state)

theorem relates_modify {update : σ → σ} (related : ∀ state, relation state (update state)) :
    (modify update : EStateM ε σ PUnit).Relates relation counts :=
  fun state => ends_of_ok rfl (related state)

theorem relates_ite {condition : Prop} [Decidable condition] {first second : EStateM ε σ α}
    (yes : first.Relates relation counts) (no : second.Relates relation counts) :
    (if condition then first else second).Relates relation counts := by
  split
  · exact yes
  · exact no

theorem Relates.map [Std.Refl relation] [IsTrans σ relation] {action : EStateM ε σ α}
    (related : action.Relates relation counts) (f : α → β) : (f <$> action).Relates relation counts :=
  related.bind fun value => relates_pure (f value)

/-- A value that depends on the state is read before the action continues. -/
theorem relates_get_bind {next : σ → EStateM ε σ α} (rest : ∀ state, (next state).Ends state
    (fun _ after => relation state after) fun failure after => counts failure → relation state after) :
    ((get : EStateM ε σ σ) >>= next).Relates relation counts :=
  fun state => ends_bind_ok (get_apply state) (rest state)

end

end EStateM
