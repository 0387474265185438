import Menoetius.Lib.ErrorState

/-
This file compares two computations of which the second one works on a part of the state of the first one.
-/

namespace EStateM

variable {ε σ τ α β γ δ : Type}

/-- Both computations return, and the second one ends in the part of the state in which the first one ends, or none of
them returns. -/
inductive Mirrors (part : τ → σ) (whole : EStateM ε τ α) (base : EStateM ε σ β) (state : τ)
    (post : α → β → τ → Prop) : Prop
  | returns {value : α} {result : β} {after : τ} (run : whole state = .ok value after)
      (same : base (part state) = .ok result (part after)) (holds : post value result after)
  | stops {failure other : ε} {after : τ} {final : σ} (run : whole state = .error failure after)
      (same : base (part state) = .error other final)

section
variable {part : τ → σ} {state : τ} {post : α → β → τ → Prop}

theorem mirrors_pure (value : α) (result : β) (holds : post value result state) :
    Mirrors part (pure value : EStateM ε τ α) (pure result) state post :=
  .returns rfl rfl holds

theorem Mirrors.mono {whole : EStateM ε τ α} {base : EStateM ε σ β} {weaker : α → β → τ → Prop}
    (mirrors : Mirrors part whole base state post)
    (implies : ∀ value result after, post value result after → weaker value result after) :
    Mirrors part whole base state weaker := by
  cases mirrors with
  | returns run same holds => exact .returns run same (implies _ _ _ holds)
  | stops run same => exact .stops run same

/-- What the run of the first computation tells can be used. -/
theorem Mirrors.of_run {whole : EStateM ε τ α} {base : EStateM ε σ β} {stronger : α → β → τ → Prop}
    (mirrors : Mirrors part whole base state post)
    (implies : ∀ value result after, whole state = .ok value after → post value result after →
      stronger value result after) : Mirrors part whole base state stronger := by
  cases mirrors with
  | returns run same holds => exact .returns run same (implies _ _ _ run holds)
  | stops run same => exact .stops run same

/-- Two sequences are compared part by part. -/
theorem Mirrors.bind_of {first : EStateM ε τ γ} {start : EStateM ε σ δ} {next : γ → EStateM ε τ α}
    {rest : δ → EStateM ε σ β} {middle : γ → δ → τ → Prop} (mirrors : Mirrors part first start state middle)
    (later : ∀ value result after, first state = .ok value after → start (part state) = .ok result (part after) →
      middle value result after → Mirrors part (next value) (rest result) after post) :
    Mirrors part (first >>= next) (start >>= rest) state post := by
  cases mirrors with
  | returns run same holds =>
      cases later _ _ _ run same holds with
      | returns more again last => exact .returns ((bind_ok run next).trans more) ((bind_ok same rest).trans again) last
      | stops more again => exact .stops ((bind_ok run next).trans more) ((bind_ok same rest).trans again)
  | stops run same => exact .stops (bind_error run next) (bind_error same rest)

theorem Mirrors.bind {first : EStateM ε τ γ} {start : EStateM ε σ δ} {next : γ → EStateM ε τ α}
    {rest : δ → EStateM ε σ β} {middle : γ → δ → τ → Prop} (mirrors : Mirrors part first start state middle)
    (later : ∀ value result after, middle value result after → Mirrors part (next value) (rest result) after post) :
    Mirrors part (first >>= next) (start >>= rest) state post :=
  mirrors.bind_of fun value result after _ _ => later value result after

/-- A step of the first computation that leaves the part alone stands for nothing. -/
theorem mirrors_bind_left {first : EStateM ε τ γ} {next : γ → EStateM ε τ α} {base : EStateM ε σ β} {value : γ}
    {after : τ} (run : first state = .ok value after) (kept : part after = part state)
    (later : Mirrors part (next value) base after post) : Mirrors part (first >>= next) base state post := by
  cases later with
  | returns more same holds => exact .returns ((bind_ok run next).trans more) (kept ▸ same) holds
  | stops more same => exact .stops ((bind_ok run next).trans more) (kept ▸ same)

/-- A step of the second computation that leaves the part alone stands for nothing. -/
theorem mirrors_bind_right {whole : EStateM ε τ α} {start : EStateM ε σ δ} {rest : δ → EStateM ε σ β} {result : δ}
    (run : start (part state) = .ok result (part state)) (later : Mirrors part whole (rest result) state post) :
    Mirrors part whole (start >>= rest) state post := by
  cases later with
  | returns more same holds => exact .returns more ((bind_ok run rest).trans same) holds
  | stops more same => exact .stops more ((bind_ok run rest).trans same)

/-- The value of the second computation can be replaced. -/
theorem Mirrors.pure_right {whole : EStateM ε τ α} {base : EStateM ε σ β} {shown : α → τ → Prop}
    (mirrors : Mirrors part whole base state fun value _ after => shown value after) (f : β → δ) :
    Mirrors part whole (base >>= fun result => pure (f result)) state fun value _ after => shown value after := by
  cases mirrors with
  | returns run same holds => exact .returns run (bind_ok same _) holds
  | stops run same => exact .stops run (bind_error same _)

/-- Two computations that go on from another state. -/
theorem mirrors_of_eq {whole other : EStateM ε τ α} {base another : EStateM ε σ β} {middle : τ}
    (left : whole state = other middle) (right : base (part state) = another (part middle))
    (mirrors : Mirrors part other another middle post) : Mirrors part whole base state post := by
  cases mirrors with
  | returns run same holds => exact .returns (left.trans run) (right.trans same) holds
  | stops run same => exact .stops (left.trans run) (right.trans same)

/-- The two computations return with the same parts. -/
theorem Mirrors.returns_iff {whole : EStateM ε τ α} {base : EStateM ε σ β} (mirrors : Mirrors part whole base state post)
    (final : σ) : (∃ result, base (part state) = .ok result final) ↔
      ∃ value after, whole state = .ok value after ∧ part after = final := by
  cases mirrors with
  | returns run same _ =>
      rw [run, same]
      constructor
      · rintro ⟨_, again⟩
        cases again
        exact ⟨_, _, rfl, rfl⟩
      · rintro ⟨_, _, again, rfl⟩
        cases again
        exact ⟨_, rfl⟩
  | stops run same =>
      rw [run, same]
      constructor
      · rintro ⟨_, again⟩
        cases again
      · rintro ⟨_, _, again, _⟩
        cases again

end

end EStateM
