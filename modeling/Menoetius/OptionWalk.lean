import Menoetius.OptionParser

/-
This file relates the cursor of `parse_options` to the options that the arguments spell.
-/

namespace Menoetius
open Ctype

/-- The table entry that an argument names, where a short name is one letter. -/
def namedOption (options : List CommandOption) (s : CString) : Option CommandOption :=
  match s.bytes.drop 1 with
  | 45 :: longName => getOptionLong options longName
  | rest => getOptionShort options (rest.headD 0)

/-- The values that an option takes. A flag takes none. -/
def CommandOption.Accepts (opt : CommandOption) (value : CString) : Prop :=
  match opt.type with
  | .integer => atoi value.bytes ≠ 0#32 ∨ value.bytes = [48]
  | .string => opt.choices = [] ∨ value ∈ opt.choices
  | .flag => False

instance (opt : CommandOption) (value : CString) : Decidable (opt.Accepts value) := by
  unfold CommandOption.Accepts
  split <;> infer_instance

/-- The parser takes an argument for an option of the table. -/
def ReadsOption (options : List CommandOption) (s : CString) (opt : CommandOption) : Prop :=
  startsOption s = true ∧ namedOption options s = some opt

/-- The argument is an option of the table, and nothing follows its name. -/
def Known (options : List CommandOption) (s : CString) (opt : CommandOption) : Prop :=
  ReadsOption options s opt ∧
    (s.bytes = 45 :: 45 :: opt.longName.bytes ∨ s.bytes = [45, opt.shortName])

/-- A sequence of options, each followed by its value where one is required. -/
inductive OptionWalk (named : CString → CommandOption → Prop) : List CString → Prop
  | nil : OptionWalk named []
  | flag {s : CString} {opt : CommandOption} {rest : List CString} (read : named s opt)
      (kind : opt.type = .flag) (walk : OptionWalk named rest) : OptionWalk named (s :: rest)
  | valued {s value : CString} {opt : CommandOption} {rest : List CString} (read : named s opt)
      (taken : opt.Accepts value) (walk : OptionWalk named rest) :
      OptionWalk named (s :: value :: rest)

/-- The parser leaves its loop at the end of the vector and at an argument that is no option. -/
def StopsAt (rest : List CString) : Prop := ∀ s ∈ rest.head?, startsOption s = false

/-- The last argument is an option that requires a value, and the options before it are complete. -/
def MissingValue (args : List CString) (options : List CommandOption) : Prop :=
  ∃ front s opt, args = front ++ [s] ∧ OptionWalk (ReadsOption options) front ∧ ReadsOption options s opt ∧
    opt.type ≠ .flag

/-- A short option with text behind its letter. -/
def TextBehindLetter (s : CString) : Prop :=
  ∃ letter text, s.bytes = 45 :: letter :: text ∧ letter ≠ 45 ∧ text ≠ []

/-- The arguments up to the stop spell options, and one of the options is a short one with text behind its letter. -/
def TrailingText (args : List CString) (options : List CommandOption) : Prop :=
  ∃ front s middle rest, args = front ++ s :: middle ++ rest ∧ OptionWalk (ReadsOption options) front ∧
    TextBehindLetter s ∧ OptionWalk (ReadsOption options) (s :: middle) ∧ StopsAt rest

section Trailing
variable {options : List CommandOption} {s : CString} {opt : CommandOption}

/-- An argument that is read as an option is a dash and a further character. -/
theorem ReadsOption.bytes (read : ReadsOption options s opt) :
    ∃ letter text, s.bytes = 45 :: letter :: text := by
  obtain ⟨long, dash⟩ := Bool.and_eq_true_iff.mp read.1
  cases content : s.bytes with
  | nil => simp [content] at dash
  | cons first rest =>
      obtain rfl : first = 45 := by simpa [content] using dash
      cases rest with
      | nil => simp [content, Int.bmod] at long
      | cons letter text => exact ⟨letter, text, rfl⟩

/-- An argument that is read as an option is one of the table, or text follows its letter. -/
theorem ReadsOption.known_or (read : ReadsOption options s opt) : Known options s opt ∨ TextBehindLetter s := by
  have named := read.2
  obtain ⟨letter, text, bytes⟩ := read.bytes
  unfold namedOption at named
  rw [bytes, List.drop_one, List.tail_cons] at named
  by_cases long : letter = 45
  · subst long
    have found : opt.longName.bytes = text := by simpa using List.find?_some named
    exact Or.inl ⟨read, Or.inl (by rw [bytes, found])⟩
  have short : getOptionShort options letter = some opt := by simpa [long] using named
  obtain ⟨-, found⟩ : letter ≠ 0 ∧ options.find? (fun opt => opt.shortName == letter) = some opt := by
    simpa [getOptionShort] using short
  have same : opt.shortName = letter := by simpa using List.find?_some found
  by_cases alone : text = []
  · exact Or.inl ⟨read, Or.inr (by rw [bytes, alone, same])⟩
  · exact Or.inr ⟨letter, text, bytes, long, alone⟩

theorem TextBehindLetter.not_known (behind : TextBehindLetter s) : ¬ Known options s opt := by
  obtain ⟨letter, text, bytes, short, some⟩ := behind
  rintro ⟨-, long | letterOnly⟩
  · rw [bytes] at long
    exact short (List.cons.inj (List.cons.inj long).2).1
  · rw [bytes] at letterOnly
    exact some (List.cons.inj (List.cons.inj letterOnly).2).2

theorem OptionWalk.append {named : CString → CommandOption → Prop} {front rest : List CString}
    (first : OptionWalk named front) (second : OptionWalk named rest) : OptionWalk named (front ++ rest) := by
  induction first with
  | nil => exact second
  | flag read kind _ ih => exact .flag read kind ih
  | valued read taken _ ih => exact .valued read taken ih

theorem OptionWalk.behind_flag {rest : List CString} (read : ReadsOption options s opt) (kind : opt.type = .flag)
    (known : OptionWalk (Known options) (s :: rest)) : OptionWalk (Known options) rest := by
  cases known with
  | flag _ _ walk => exact walk
  | valued other taken _ =>
      obtain rfl := Option.some.inj (read.2.symm.trans other.1.2)
      simp [CommandOption.Accepts, kind] at taken

theorem OptionWalk.behind_value {value : CString} {rest : List CString} (read : ReadsOption options s opt)
    (taken : opt.Accepts value) (known : OptionWalk (Known options) (s :: value :: rest)) :
    OptionWalk (Known options) rest := by
  cases known with
  | flag other kind _ =>
      obtain rfl := Option.some.inj (read.2.symm.trans other.1.2)
      simp [CommandOption.Accepts, kind] at taken
  | valued _ _ walk => exact walk

/-- The entry of the table decides where an option ends, so known options continue behind any options. -/
theorem OptionWalk.known_behind {front rest : List CString} (walk : OptionWalk (ReadsOption options) front)
    (known : OptionWalk (Known options) (front ++ rest)) : OptionWalk (Known options) rest := by
  induction walk with
  | nil => exact known
  | flag read kind _ ih => exact ih (known.behind_flag read kind)
  | valued read taken _ ih => exact ih (known.behind_value read taken)

/-- Options that are not all known have a short one with text behind its letter among them. -/
theorem OptionWalk.known_or {walked : List CString} (walk : OptionWalk (ReadsOption options) walked) :
    OptionWalk (Known options) walked ∨
      ∃ front s middle, walked = front ++ s :: middle ∧ OptionWalk (ReadsOption options) front ∧
        TextBehindLetter s ∧ OptionWalk (ReadsOption options) (s :: middle) := by
  induction walk with
  | nil => exact Or.inl .nil
  | @flag s opt rest read kind walk ih =>
      rcases read.known_or with known | behind
      · exact ih.imp (fun walk => .flag known kind walk) fun ⟨front, s', middle, whole, before, found⟩ =>
          ⟨s :: front, s', middle, by rw [whole, List.cons_append], .flag read kind before, found⟩
      · exact Or.inr ⟨[], s, rest, rfl, .nil, behind, .flag read kind walk⟩
  | @valued s value opt rest read taken walk ih =>
      rcases read.known_or with known | behind
      · exact ih.imp (fun walk => .valued known taken walk) fun ⟨front, s', middle, whole, before, found⟩ =>
          ⟨s :: value :: front, s', middle, by simp [whole], .valued read taken before, found⟩
      · exact Or.inr ⟨[], s, value :: rest, rfl, .nil, behind, .valued read taken walk⟩

end Trailing

/-- The cursor of a state stands before the rest of the vector. -/
def OptionState.Before (args : List CString) (state : OptionState) (rest : List CString) : Prop :=
  args.drop state.argv = rest ∧ state.argv ≤ args.length

section Cursor
variable {args rest : List CString} {options : List CommandOption} {state : OptionState}
  {s value : CString} {opt : CommandOption}

theorem OptionState.Before.length (before : state.Before args rest) :
    state.argv + rest.length = args.length := by
  rw [← before.1, List.length_drop]
  have bound := before.2
  omega

theorem OptionState.Before.next {after : OptionState} (before : state.Before args (s :: rest))
    (moved : after.argv = state.argv + 1) : after.Before args rest := by
  have length := before.length
  refine ⟨?_, by simp at length; omega⟩
  rw [moved, ← List.drop_drop, before.1, List.drop_one, List.tail_cons]

/-- The turn moves the cursor behind the option before it reads a value. -/
theorem OptionState.Before.entered (before : state.Before args (s :: rest)) :
    OptionState.Before args { state with argv := state.argv + 1 } rest := before.next rfl

theorem argvEntry_cons (before : state.Before args (s :: rest)) :
    argvEntry args state = .ok (some s) state := by
  have length := before.length
  have inside : state.argv < args.length := by simp at length; omega
  have entry : args[state.argv]? = some s := by
    rw [← List.head?_drop, before.1, List.head?_cons]
  rw [argvEntry, if_pos inside, entry]

theorem argvEntry_nil (before : state.Before args []) : argvEntry args state = .ok none state := by
  have length := before.length
  rw [List.length_nil, Nat.add_zero] at length
  rw [argvEntry, if_neg (by omega), if_pos length]

theorem argvEntry_beyond (beyond : args.length < state.argv) :
    argvEntry args state = .error (.abort .memory) state := by
  rw [argvEntry, if_neg (by omega), if_neg (by omega)]

/-- An accepted value is stored, and the cursor passes it. -/
theorem applyValue_accepts (before : state.Before args (value :: rest)) (taken : opt.Accepts value) :
    ∃ after, applyValue args opt state = .ok 0 after ∧ after.Before args rest := by
  have entry := argvEntry_cons before
  unfold CommandOption.Accepts at taken
  cases kind : opt.type with
  | integer =>
      simp only [kind] at taken
      have valid : ¬ (atoi value.bytes = 0#32 ∧ value.bytes ≠ [48]) := by tauto
      simp only [applyValue, kind, applyValueInt, EStateM.bind_apply, entry, nextArg,
        EStateM.modify_apply, readString, EStateM.pure_apply, EStateM.ite_apply, if_neg valid]
      exact ⟨_, rfl, before.next rfl⟩
  | string =>
      simp only [kind] at taken
      by_cases free : opt.choices = []
      · simp only [applyValue, kind, applyValueString, EStateM.bind_apply, entry, nextArg,
          EStateM.modify_apply, EStateM.pure_apply, if_pos free]
        exact ⟨_, rfl, before.next rfl⟩
      · have chosen : value ∈ opt.choices := taken.resolve_left free
        simp only [applyValue, kind, applyValueString, EStateM.bind_apply, entry, nextArg,
          EStateM.modify_apply, readString, EStateM.pure_apply, EStateM.ite_apply, if_neg free,
          if_pos chosen]
        exact ⟨_, rfl, before.next rfl⟩
  | flag => simp only [kind] at taken

/-- A refused value ends the parsing with an error, inside the vector. -/
theorem applyValue_refuses (before : state.Before args (value :: rest)) (refused : ¬ opt.Accepts value)
    (valued : opt.type ≠ .flag) :
    ∃ res after, applyValue args opt state = .ok res after ∧ res ≠ 0 ∧ after.argv ≤ args.length := by
  have entry := argvEntry_cons before
  have length := before.length
  rw [List.length_cons] at length
  unfold CommandOption.Accepts at refused
  cases kind : opt.type with
  | integer =>
      simp only [kind] at refused
      have invalid : atoi value.bytes = 0#32 ∧ value.bytes ≠ [48] := by tauto
      simp only [applyValue, kind, applyValueInt, EStateM.bind_apply, entry, nextArg,
        EStateM.modify_apply, readString, EStateM.pure_apply, EStateM.ite_apply, if_pos invalid,
        fprintfStderr]
      exact ⟨_, _, rfl, by decide, by simp; omega⟩
  | string =>
      simp only [kind, not_or] at refused
      simp only [applyValue, kind, applyValueString, EStateM.bind_apply, entry, readString,
        EStateM.modify_apply, EStateM.pure_apply, EStateM.ite_apply, if_neg refused.1,
        if_neg refused.2, fprintfStderr]
      exact ⟨_, _, rfl, by decide, by simp; omega⟩
  | flag => exact absurd kind valued

/-- A missing value stops the process or moves the cursor behind the final `NULL`. -/
theorem applyValue_missing (before : state.Before args []) (valued : opt.type ≠ .flag) :
    (∃ after, applyValue args opt state = .error (.abort .memory) after) ∨
      ∃ after, applyValue args opt state = .ok 0 after ∧ args.length < after.argv := by
  have entry := argvEntry_nil before
  have length := before.length
  rw [List.length_nil, Nat.add_zero] at length
  cases kind : opt.type with
  | integer =>
      left
      simp [applyValue, kind, applyValueInt, entry, nextArg, readString]
  | string =>
      by_cases free : opt.choices = []
      · right
        simp [applyValue, kind, applyValueString, entry, nextArg, free, length]
      · left
        simp [applyValue, kind, applyValueString, entry, readString, free]
  | flag => exact absurd kind valued

/-- A turn at an option applies the entry of the table that the option names. -/
theorem parseArg_named (named : namedOption options s = some opt) :
    parseArg args options s = applyValue args opt := by
  unfold namedOption at named
  unfold parseArg
  split at named
  · rename_i longName long
    simp only [long, parseLongArg, named]
  · simp only [parseShortArg, named]

/-- An argument that names no entry is reported. -/
theorem parseArg_unknown (unknown : namedOption options s = none) :
    ∃ message, parseArg args options s = (do
      fprintfStderr message
      return -1) := by
  unfold namedOption at unknown
  unfold parseArg
  split at unknown
  · rename_i longName long
    simp only [long, parseLongArg, unknown]
    exact ⟨_, rfl⟩
  · simp only [parseShortArg, unknown]
    exact ⟨_, rfl⟩

theorem parseOptionsTurn_starts (before : state.Before args (s :: rest))
    (starts : startsOption s = true) :
    parseOptionsTurn args options state = (do
      let res ← parseArg args options s
      if res ≠ 0 then return some res else return none) { state with argv := state.argv + 1 } := by
  unfold parseOptionsTurn
  rw [EStateM.bind_ok (argvEntry_cons before)]
  simp only [starts, if_true]
  rfl

theorem parseOptionsTurn_unknown (before : state.Before args (s :: rest)) (starts : startsOption s = true)
    (unknown : namedOption options s = none) :
    ∃ after, parseOptionsTurn args options state = .ok (some (-1)) after ∧
      after.argv = state.argv + 1 := by
  obtain ⟨message, refused⟩ := @parseArg_unknown args options s unknown
  rw [parseOptionsTurn_starts before starts, refused]
  exact ⟨_, rfl, rfl⟩

theorem parseOptionsTurn_stops (before : state.Before args rest) (stops : StopsAt rest) :
    parseOptionsTurn args options state = .ok (some 0) state := by
  cases rest with
  | nil => simp [parseOptionsTurn, argvEntry_nil before]
  | cons s rest => simp [parseOptionsTurn, argvEntry_cons before, stops s rfl]

theorem parseOptionsTurn_flag (before : state.Before args (s :: rest)) (read : ReadsOption options s opt)
    (kind : opt.type = .flag) :
    ∃ after, parseOptionsTurn args options state = .ok none after ∧ after.Before args rest := by
  rw [parseOptionsTurn_starts before read.1, parseArg_named read.2]
  simp only [applyValue, kind, applyValueFlag, EStateM.bind_apply, EStateM.modify_apply,
    EStateM.pure_apply, ne_eq, not_true_eq_false, if_false]
  exact ⟨_, rfl, before.next rfl⟩

theorem parseOptionsTurn_value (before : state.Before args (s :: value :: rest))
    (read : ReadsOption options s opt) (taken : opt.Accepts value) :
    ∃ after, parseOptionsTurn args options state = .ok none after ∧ after.Before args rest := by
  obtain ⟨after, run, ahead⟩ := applyValue_accepts before.entered taken
  refine ⟨after, ?_, ahead⟩
  rw [parseOptionsTurn_starts before read.1, parseArg_named read.2, EStateM.bind_ok run]
  rfl

theorem parseOptionsTurn_refused (before : state.Before args (s :: value :: rest))
    (read : ReadsOption options s opt) (valued : opt.type ≠ .flag) (refused : ¬ opt.Accepts value) :
    ∃ res after, parseOptionsTurn args options state = .ok (some res) after ∧ res ≠ 0 ∧
      after.argv ≤ args.length := by
  obtain ⟨res, after, run, nonzero, bound⟩ := applyValue_refuses before.entered refused valued
  refine ⟨res, after, ?_, nonzero, bound⟩
  rw [parseOptionsTurn_starts before read.1, parseArg_named read.2, EStateM.bind_ok run]
  simp [nonzero]

theorem parseOptionsTurn_missing (before : state.Before args [s]) (read : ReadsOption options s opt)
    (valued : opt.type ≠ .flag) :
    (∃ after, parseOptionsTurn args options state = .error (.abort .memory) after) ∨
      ∃ after, parseOptionsTurn args options state = .ok none after ∧ args.length < after.argv := by
  rw [parseOptionsTurn_starts before read.1, parseArg_named read.2]
  rcases applyValue_missing before.entered valued with
    ⟨after, run⟩ | ⟨after, run, beyond⟩
  · left
    exact ⟨after, EStateM.bind_error run _⟩
  · right
    exact ⟨after, EStateM.bind_ok run _, beyond⟩

theorem parseOptionsLoop_next {after : OptionState} (turns : Nat)
    (turn : parseOptionsTurn args options state = .ok none after) :
    parseOptionsLoop args options (turns + 1) state = parseOptionsLoop args options turns after := by
  rw [parseOptionsLoop, EStateM.bind_ok turn]

theorem parseOptionsLoop_returns {after : OptionState} {res : Int} (turns : Nat)
    (turn : parseOptionsTurn args options state = .ok (some res) after) :
    parseOptionsLoop args options (turns + 1) state = .ok (some res) after := by
  rw [parseOptionsLoop, EStateM.bind_ok turn]
  rfl

end Cursor

section Runs
variable {args : List CString} {options : List CommandOption}

/-- The loop passes a sequence of options. -/
theorem parseOptionsLoop_walk {walked : List CString} (walk : OptionWalk (ReadsOption options) walked) :
    ∀ (state : OptionState) (rest : List CString), state.Before args (walked ++ rest) →
      ∃ used after, used ≤ walked.length ∧ after.Before args rest ∧
        ∀ turns, parseOptionsLoop args options (turns + used) state =
          parseOptionsLoop args options turns after := by
  induction walk with
  | nil => exact fun state rest before => ⟨0, state, le_refl _, before, fun _ => rfl⟩
  | flag read kind walk ih =>
      intro state rest before
      obtain ⟨middle, turn, ahead⟩ := parseOptionsTurn_flag before read kind
      obtain ⟨used, after, bound, final, run⟩ := ih middle rest ahead
      refine ⟨used + 1, after, by simpa using bound, final, fun turns => ?_⟩
      rw [← Nat.add_assoc, parseOptionsLoop_next _ turn, run]
  | valued read taken walk ih =>
      intro state rest before
      obtain ⟨middle, turn, ahead⟩ := parseOptionsTurn_value before read taken
      obtain ⟨used, after, bound, final, run⟩ := ih middle rest ahead
      refine ⟨used + 1, after, by simp; omega, final, fun turns => ?_⟩
      rw [← Nat.add_assoc, parseOptionsLoop_next _ turn, run]

/-- One more option in front keeps an end of the walk. -/
theorem MissingValue.cons {rest front : List CString} (missing : MissingValue rest options)
    (extend : ∀ walked, OptionWalk (ReadsOption options) walked → OptionWalk (ReadsOption options) (front ++ walked)) :
    MissingValue (front ++ rest) options := by
  obtain ⟨walked, s, opt, rfl, walk, read, valued⟩ := missing
  exact ⟨front ++ walked, s, opt, (List.append_assoc ..).symm, extend walked walk, read, valued⟩

/-- The result of a loop that stays inside the vector, and what it has passed when it succeeds. -/
def LoopEnds (args : List CString) (options : List CommandOption) (rest : List CString)
    (result : EStateM.Result Failure OptionState (Option Int)) : Prop :=
  ∃ res after, result = .ok (some res) after ∧ after.argv ≤ args.length ∧
    (res = 0 → ∃ walked stop, rest = walked ++ stop ∧ OptionWalk (ReadsOption options) walked ∧
      StopsAt stop ∧ after.Before args stop)

theorem LoopEnds.cons {rest front : List CString}
    {result : EStateM.Result Failure OptionState (Option Int)} (ends : LoopEnds args options rest result)
    (extend : ∀ walked, OptionWalk (ReadsOption options) walked → OptionWalk (ReadsOption options) (front ++ walked)) :
    LoopEnds args options (front ++ rest) result := by
  obtain ⟨res, after, run, bound, passed⟩ := ends
  refine ⟨res, after, run, bound, fun zero => ?_⟩
  obtain ⟨walked, stop, rfl, walk, stops, before⟩ := passed zero
  exact ⟨front ++ walked, stop, (List.append_assoc ..).symm, extend walked walk, stops, before⟩

theorem parseOptionsLoop_stops {state : OptionState} {rest : List CString} (turns : Nat)
    (before : state.Before args rest) (stops : StopsAt rest) :
    parseOptionsLoop args options (turns + 1) state = .ok (some 0) state :=
  parseOptionsLoop_returns turns (parseOptionsTurn_stops before stops)

/-- The loop returns inside the vector unless it reaches an option without its value. -/
theorem parseOptionsLoop_ends (count : Nat) :
    ∀ (rest : List CString) (state : OptionState) (turns : Nat), rest.length ≤ count →
      rest.length < turns → state.Before args rest →
      MissingValue rest options ∨
        LoopEnds args options rest (parseOptionsLoop args options turns state) := by
  induction count with
  | zero =>
      intro rest state turns short enough before
      obtain rfl := List.length_eq_zero_iff.mp (Nat.le_zero.mp short)
      obtain ⟨turns, rfl⟩ := Nat.exists_eq_succ_of_ne_zero (Nat.ne_of_gt enough)
      exact Or.inr ⟨0, state, parseOptionsLoop_stops turns before (by simp [StopsAt]), before.2,
        fun _ => ⟨[], [], rfl, .nil, by simp [StopsAt], before⟩⟩
  | succ count ih =>
      intro rest state turns short enough before
      obtain ⟨turns, rfl⟩ := Nat.exists_eq_succ_of_ne_zero (Nat.ne_of_gt (Nat.zero_lt_of_lt enough))
      by_cases stops : StopsAt rest
      · exact Or.inr ⟨0, state, parseOptionsLoop_stops turns before stops, before.2,
          fun _ => ⟨[], rest, rfl, .nil, stops, before⟩⟩
      obtain ⟨s, tail, rfl, starts⟩ : ∃ s tail, rest = s :: tail ∧ startsOption s = true := by
        cases rest with
        | nil => simp [StopsAt] at stops
        | cons s tail => exact ⟨s, tail, rfl, by simpa [StopsAt] using stops⟩
      have length := before.length
      simp only [List.length_cons] at short enough length
      cases named : namedOption options s with
      | none =>
          obtain ⟨after, turn, moved⟩ := parseOptionsTurn_unknown before starts named
          exact Or.inr ⟨-1, after, parseOptionsLoop_returns turns turn, by omega,
            fun zero => absurd zero (by decide)⟩
      | some opt =>
          have read : ReadsOption options s opt := ⟨starts, named⟩
          by_cases kind : opt.type = .flag
          · obtain ⟨after, turn, ahead⟩ := parseOptionsTurn_flag before read kind
            rw [parseOptionsLoop_next turns turn]
            exact (ih tail after turns (by omega) (by omega) ahead).imp
              (fun missing => @MissingValue.cons options tail [s] missing fun _ walk => .flag read kind walk)
              (fun ends => @LoopEnds.cons args options tail [s] _ ends fun _ walk => .flag read kind walk)
          cases tail with
          | nil => exact Or.inl ⟨[], s, opt, rfl, .nil, read, kind⟩
          | cons value tail =>
              simp only [List.length_cons] at short enough length
              by_cases taken : opt.Accepts value
              · obtain ⟨after, turn, ahead⟩ := parseOptionsTurn_value before read taken
                rw [parseOptionsLoop_next turns turn]
                exact (ih tail after turns (by omega) (by omega) ahead).imp
                  (fun missing => @MissingValue.cons options tail [s, value] missing fun _ walk => .valued read taken walk)
                  (fun ends => @LoopEnds.cons args options tail [s, value] _ ends fun _ walk => .valued read taken walk)
              · obtain ⟨res, after, turn, nonzero, bound⟩ :=
                  parseOptionsTurn_refused before read kind taken
                exact Or.inr ⟨res, after, parseOptionsLoop_returns turns turn, bound,
                  fun zero => absurd zero nonzero⟩

/-- The parser reaches what follows a sequence of options. -/
theorem parseOptions_walk {front rest : List CString} (walk : OptionWalk (ReadsOption options) front)
    (whole : args = front ++ rest) (state : OptionState) (start : state.argv = 0) :
    ∃ turns after, rest.length ≤ turns ∧ after.Before args rest ∧
      parseOptions args options state = parseOptionsLoop args options (turns + 1) after := by
  have before : state.Before args (front ++ rest) := ⟨by rw [start, List.drop_zero, whole], by omega⟩
  obtain ⟨used, after, bound, ahead, run⟩ := parseOptionsLoop_walk walk state rest before
  have length : args.length = front.length + rest.length := by rw [whole, List.length_append]
  refine ⟨args.length - used, after, by omega, ahead, ?_⟩
  rw [← run, parseOptions, show args.length - used + 1 + used = args.length + 1 by omega]

/-- The parser reads outside the vector when the last argument lacks its value. -/
theorem parseOptions_missing (missing : MissingValue args options) (state : OptionState)
    (start : state.argv = 0) :
    ∃ after, parseOptions args options state = .error (.abort .memory) after := by
  obtain ⟨front, s, opt, whole, walk, read, valued⟩ := missing
  obtain ⟨turns, middle, enough, before, run⟩ := parseOptions_walk walk whole state start
  obtain ⟨turns, rfl⟩ := Nat.exists_eq_succ_of_ne_zero (Nat.ne_of_gt enough)
  rw [run]
  rcases parseOptionsTurn_missing before read valued with ⟨after, turn⟩ | ⟨after, turn, beyond⟩
  · exact ⟨after, by rw [parseOptionsLoop, EStateM.bind_error turn]⟩
  · refine ⟨after, ?_⟩
    rw [parseOptionsLoop_next _ turn, parseOptionsLoop, parseOptionsTurn, EStateM.bind_error]
    exact EStateM.bind_error (argvEntry_beyond beyond) _

/-- The parser ends inside the vector, reports a missing value and succeeds on options only. -/
def StaysInArgv (args : List CString) (options : List CommandOption)
    (result : EStateM.Result Failure OptionState (Option Int)) : Prop :=
  ∃ res after, result = .ok (some res) after ∧ after.argv ≤ args.length ∧
    (MissingValue args options → res ≠ 0) ∧
    (res = 0 → OptionWalk (Known options) (args.take after.argv))

/-- A successful parse has consumed the arguments before its cursor. -/
theorem OptionState.Before.take {after : OptionState} {walked stop : List CString}
    (before : after.Before args stop) (whole : args = walked ++ stop) :
    args.take after.argv = walked := by
  have length := before.length
  have position : after.argv = walked.length := by
    rw [whole, List.length_append] at length
    omega
  rw [position, whole, List.take_left]

/-- The parser stays inside the vector exactly when no value is missing at its end and no text
follows the letter of a short option. -/
theorem parseOptions_staysInArgv_iff (args : List CString) (options : List CommandOption)
    (ints : Nat → BitVec 32) (strings : Nat → Option CString) (stderr : List (List UInt8)) :
    StaysInArgv args options (parseOptions args options ⟨0, ints, strings, stderr⟩) ↔
      ¬ MissingValue args options ∧ ¬ TrailingText args options := by
  constructor
  · rintro ⟨res, after, run, -, -, known⟩
    refine ⟨fun missing => ?_, fun trailing => ?_⟩
    · obtain ⟨stopped, abort⟩ := parseOptions_missing missing ⟨0, ints, strings, stderr⟩ rfl
      rw [abort] at run
      cases run
    · obtain ⟨front, s, middle, rest, whole, walk, behind, text, stops⟩ := trailing
      obtain ⟨turns, reached, enough, before, run'⟩ :=
        parseOptions_walk (walk.append text) whole ⟨0, ints, strings, stderr⟩ rfl
      rw [run', parseOptionsLoop_stops turns before stops] at run
      obtain ⟨rfl, rfl⟩ : 0 = res ∧ reached = after := by simpa using run
      have spelled := known rfl
      rw [before.take whole] at spelled
      cases walk.known_behind spelled with
      | flag read _ _ => exact behind.not_known read
      | valued read _ _ => exact behind.not_known read
  · rintro ⟨complete, exact⟩
    obtain ⟨res, after, run, bound, passed⟩ := (parseOptionsLoop_ends args.length args
      ⟨0, ints, strings, stderr⟩ (args.length + 1) (le_refl _) (Nat.lt_succ_self _)
      ⟨rfl, Nat.zero_le _⟩).resolve_left complete
    refine ⟨res, after, run, bound, fun missing => absurd missing complete, fun zero => ?_⟩
    obtain ⟨walked, stop, whole, walk, stops, before⟩ := passed zero
    rw [before.take whole]
    refine walk.known_or.resolve_right ?_
    rintro ⟨front, s, middle, rfl, before, found⟩
    exact exact ⟨front, s, middle, stop, whole, before, found.1, found.2, stops⟩

end Runs

/-- The option `-p`, `--port` with an integer value. -/
def portOption : CommandOption where
  shortName := 112
  longName := CString.at [112, 111, 114, 116]
  value := 0
  type := .integer
  choices := []

/-- A lone `--port` has no value, and the parser reads the final `NULL` as a string. -/
theorem parseOptions_lonePort :
    ¬ ∀ (args : List CString) (options : List CommandOption) (ints : Nat → BitVec 32)
      (strings : Nat → Option CString) (stderr : List (List UInt8)),
      StaysInArgv args options (parseOptions args options ⟨0, ints, strings, stderr⟩) := by
  intro claim
  obtain ⟨res, after, run, -⟩ := claim [CString.at [45, 45, 112, 111, 114, 116]] [portOption]
    (fun _ => 0) (fun _ => none) []
  have missing : MissingValue [CString.at [45, 45, 112, 111, 114, 116]] [portOption] :=
    ⟨[], _, portOption, rfl, .nil, ⟨by decide, rfl⟩, by decide⟩
  obtain ⟨stopped, abort⟩ := parseOptions_missing missing ⟨0, fun _ => 0, fun _ => none, []⟩ rfl
  rw [abort] at run
  cases run

end Menoetius
