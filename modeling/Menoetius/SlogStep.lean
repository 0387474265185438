import Menoetius.SlogLayout
import Menoetius.HumanToken

/-
This file follows the functions of the log line from spot to spot.
-/

namespace Menoetius
open FileImage

/-- The buffer stands at a spot. The two bytes behind its space are kept, and `m0` is the value that `m` has
before its first count. -/
structure Slog.At (bufSize : Nat) (tail : List UInt8) (m0 : Int) (spot : Spot) (s : Slog) : Prop where
  length : s.buf.length = bufSize + 2
  tail : s.buf.drop bufSize = tail
  pos : s.bufI = spot.pos
  inside : spot.pos ≤ bufSize
  int : spot.IsInt
  m : s.m = (spot.m.map Nat.cast).getD m0
  small : ∀ k ∈ spot.m, k < 2 ^ 31
  visited : ∀ i ∈ s.visited, 0 ≤ i ∧ i ≤ bufSize

/-- The write position has left the space. -/
def Slog.Left (bufSize : Nat) (s : Slog) : Prop := ∃ i ∈ s.visited, ¬ (0 ≤ i ∧ i ≤ bufSize)

/-- A function does not forget the positions that have been visited. -/
def Grows {α : Type} (run : SlogM α) : Prop :=
  ∀ s value after, run s = .ok value after → ∀ i ∈ s.visited, i ∈ after.visited

/-- Where the condition holds, the function succeeds. Elsewhere, it can only succeed with a position outside. -/
structure Follows {α : Type} (bad : Prop) (bufSize : Nat) (run : SlogM α) (s : Slog) (fits : Prop)
    (post : α → Slog → Prop) : Prop where
  of_fits : fits → ∃ value after, run s = .ok value after ∧ post value after
  of_not : bad → ¬ fits → ∀ value after, run s = .ok value after → after.Left bufSize

section Rules
variable {α β : Type} {bad : Prop} {bufSize : Nat} {s : Slog} {fits fits' : Prop}

theorem Grows.bind {first : SlogM α} {next : α → SlogM β} (start : Grows first) (rest : ∀ value, Grows (next value)) :
    Grows (first >>= next) := by
  intro s value after run i member
  obtain ⟨middle, state, ran, later⟩ := EStateM.of_bind_ok run
  exact rest middle state value after later i (start s middle state ran i member)

theorem grows_pure (value : α) : Grows (pure value : SlogM α) := by
  intro s other after run i member
  cases run
  exact member

theorem grows_throw (failure : Failure) : Grows (throw failure : SlogM α) := by
  intro s value after run
  cases run

theorem grows_get : Grows (get : SlogM Slog) := by
  intro s other after run i member
  cases run
  exact member

theorem grows_ite {condition : Prop} [Decidable condition] {first second : SlogM α} (start : Grows first)
    (other : Grows second) : Grows (if condition then first else second) := by
  split
  · exact start
  · exact other

theorem Follows.bind {first : SlogM α} {next : α → SlogM β} {middle : α → Slog → Prop} {post : β → Slog → Prop}
    (start : Follows bad bufSize first s fits middle)
    (rest : ∀ value after, middle value after → Follows bad bufSize (next value) after fits' post)
    (grows : ∀ value, Grows (next value)) : Follows bad bufSize (first >>= next) s (fits ∧ fits') post := by
  constructor
  · rintro ⟨here, there⟩
    obtain ⟨value, after, ran, stands⟩ := start.of_fits here
    obtain ⟨result, final, later, ends⟩ := (rest value after stands).of_fits there
    exact ⟨result, final, (EStateM.bind_ok ran next).trans later, ends⟩
  · intro adverse misfits result final run
    obtain ⟨value, after, ran, later⟩ := EStateM.of_bind_ok run
    by_cases here : fits
    · obtain ⟨value', after', ran', stands⟩ := start.of_fits here
      rw [ran] at ran'
      cases ran'
      exact (rest value after stands).of_not adverse (fun there => misfits ⟨here, there⟩) result final later
    · obtain ⟨i, member, outside⟩ := start.of_not adverse here value after ran
      exact ⟨i, grows value after result final later i member, outside⟩

/-- A first part that is known to succeed adds no condition. -/
theorem follows_bind_ok {first : SlogM α} {next : α → SlogM β} {post : β → Slog → Prop} {value : α} {after : Slog}
    (ran : first s = .ok value after) (rest : Follows bad bufSize (next value) after fits post) :
    Follows bad bufSize (first >>= next) s fits post := by
  have same := EStateM.bind_ok ran next
  exact ⟨fun here => by rw [same]; exact rest.of_fits here, fun adverse misfits => by
    rw [same]; exact rest.of_not adverse misfits⟩

theorem follows_of_ok {run : SlogM α} {post : α → Slog → Prop} {value : α} {after : Slog}
    (ran : run s = .ok value after) (holds : post value after) (fits : Prop) (always : fits) :
    Follows bad bufSize run s fits post :=
  ⟨fun _ => ⟨value, after, ran, holds⟩, fun _ misfits => absurd always misfits⟩

/-- A function that cannot succeed follows no condition that holds. -/
theorem follows_of_fails {run : SlogM α} {post : α → Slog → Prop} (never : ∀ value after, run s ≠ .ok value after)
    (misfits : ¬ fits) : Follows bad bufSize run s fits post :=
  ⟨fun here => absurd here misfits, fun _ _ value after ran => absurd ran (never value after)⟩

/-- Returning a value adds no condition. -/
theorem Follows.finish {first : SlogM α} {result : α → β} {middle : α → Slog → Prop} {post : β → Slog → Prop}
    (start : Follows bad bufSize first s fits middle)
    (ends : ∀ value after, middle value after → post (result value) after) :
    Follows bad bufSize (first >>= fun value => pure (result value)) s fits post := by
  constructor
  · intro here
    obtain ⟨value, after, ran, stands⟩ := start.of_fits here
    exact ⟨result value, after, EStateM.bind_ok ran _, ends value after stands⟩
  · intro adverse misfits other final run
    obtain ⟨value, after, ran, last⟩ := EStateM.of_bind_ok run
    cases last
    exact start.of_not adverse misfits value final ran

theorem Follows.iff {run : SlogM α} {post : α → Slog → Prop} (follows : Follows bad bufSize run s fits post)
    (same : fits ↔ fits') : Follows bad bufSize run s fits' post :=
  ⟨fun here => follows.of_fits (same.mpr here), fun adverse misfits =>
    follows.of_not adverse fun here => misfits (same.mp here)⟩

end Rules

theorem grows_putBuf (i : Int) (data : List UInt8) : Grows (putBuf i data) := by
  intro s value after run j member
  rw [putBuf, EStateM.bind_ok (EStateM.get_apply s)] at run
  split at run <;> cases run
  exact member

theorem grows_setM (m : Int) : Grows (setM m) := by
  intro s value after run i member
  cases run
  exact member

theorem grows_moveBy (amount : Int) : Grows (moveBy amount) := by
  intro s value after run i member
  cases run
  exact List.mem_cons_of_mem _ member

theorem grows_require (condition : Prop) [Decidable condition] (site : Abort) :
    Grows (require condition site : SlogM Unit) := by
  intro s value after run i member
  rw [require_apply] at run
  split at run <;> cases run
  exact member

section Steps
variable {bufSize : Nat} {tail : List UInt8} {m0 : Int} {spot : Spot} {s : Slog}

/-- What makes a line fail that does not fit: no NUL byte behind the space, and a low first value of `m`. -/
def Adverse (tail : List UInt8) (m0 : Int) : Prop := 0 ∉ tail ∧ m0 = -2 ^ 31

theorem putBuf_run (stands : s.At bufSize tail m0 spot) {i : Nat} {data : List UInt8}
    (inside : i + data.length ≤ bufSize) :
    putBuf i data s = .ok () { s with buf := writeAt s.buf i data } ∧
      Slog.At bufSize tail m0 spot { s with buf := writeAt s.buf i data } := by
  have fits : i + data.length ≤ s.buf.length := by
    rw [stands.length]
    omega
  constructor
  · rw [putBuf, EStateM.bind_ok (EStateM.get_apply s)]
    simp [fits]
  · refine { stands with length := (writeAt_length _ _ _ fits).trans stands.length, tail := ?_ }
    rw [← stands.tail]
    apply List.ext_getElem?
    intro position
    rw [List.getElem?_drop, List.getElem?_drop, writeAt_getElem? _ _ _ (by omega), if_neg (by omega)]

theorem bmod_small {i : Int} (low : -2 ^ 31 ≤ i) (high : i < 2 ^ 31) : Int.bmod i (2 ^ 32) = i := by
  rw [Int.bmod_eq_of_le] <;> omega

/-- A move that stays inside leads to the next spot. Every other one leaves the space. -/
theorem moveBy_follows (bad : Prop) (stands : s.At bufSize tail m0 spot) {k : Nat} (small : k < 2 ^ 31) :
    Follows bad bufSize (moveBy k) s (spot.pos + k ≤ bufSize ∧ spot.pos + k < 2 ^ 31)
      (fun _ after => after.At bufSize tail m0 ⟨spot.pos + k, spot.m⟩) := by
  have int : spot.pos < 2 ^ 31 := stands.int
  constructor
  · rintro ⟨inside, short⟩
    have moved : Int.bmod (s.bufI + k) (2 ^ 32) = ((spot.pos + k : Nat) : Int) := by
      rw [stands.pos, bmod_small (by omega) (by omega), Nat.cast_add]
    refine ⟨(), _, rfl, stands.length, stands.tail, moved, inside, short, stands.m, stands.small, ?_⟩
    intro i member
    rcases List.mem_cons.mp member with rfl | old
    · rw [moved]
      omega
    · exact stands.visited i old
  · rintro - misfits value after run
    cases run
    refine ⟨_, List.mem_cons_self, ?_⟩
    rw [stands.pos]
    by_cases short : spot.pos + k < 2 ^ 31
    · rw [bmod_small (by omega) (by omega)]
      omega
    · have wrapped : Int.bmod ((spot.pos : Int) + k) (2 ^ 32) = (spot.pos : Int) + k - 2 ^ 32 := by
        rw [← Int.sub_bmod_right]
        exact bmod_small (by omega) (by omega)
      rw [wrapped]
      omega

/-- The text of `escape_binary` stays in its space. -/
theorem escapeBinary_run {escapeDoublequote : Bool} {chars : List UInt8} :
    ∀ {s : Slog} {start room : Nat}, s.At bufSize tail m0 spot → 1 ≤ room → start + room ≤ bufSize →
      ∃ after, escapeBinary escapeDoublequote chars start room s =
          .ok ((escapedCount escapeDoublequote chars room).1,
            ((start + (escapedCount escapeDoublequote chars room).2 : Nat) : Int)) after ∧
        after.At bufSize tail m0 spot := by
  induction chars with
  | nil => exact fun {s} _ _ stands _ _ => ⟨s, rfl, stands⟩
  | cons c chars ih =>
      intro s start room stands some inside
      rw [escapeBinary, escapedCount]
      cases escapeLetter escapeDoublequote c with
      | some letter =>
          dsimp only
          by_cases last : room ≤ 1
          · rw [if_pos (by omega), if_pos last]
            exact ⟨s, rfl, stands⟩
          · rw [if_neg (by omega), if_neg last]
            obtain ⟨put, stands'⟩ := @putBuf_run _ _ _ _ _ stands start [92, letter] (by simp; omega)
            rw [EStateM.bind_ok put]
            exact ih stands' some inside
      | none =>
          dsimp only
          split
          · obtain ⟨put, stands'⟩ := @putBuf_run _ _ _ _ _ stands start [c] (by simp; omega)
            rw [EStateM.bind_ok put]
            by_cases last : room = 1
            · subst last
              rw [if_pos (by omega), if_pos rfl]
              exact ⟨_, rfl, stands'⟩
            · rw [if_neg (by omega), if_neg last]
              obtain ⟨after, run, stands''⟩ := @ih _ (start + 1) (room - 1) stands' (by omega) (by omega)
              refine ⟨after, ?_, stands''⟩
              rw [show ((start : Int) + 1) = ((start + 1 : Nat) : Int) by omega,
                show ((room : Int) - 1) = ((room - 1 : Nat) : Int) by omega, run]
              congr 2
              omega
          · by_cases short : room ≤ 4
            · rw [if_pos (by omega), if_pos short]
              exact ⟨s, rfl, stands⟩
            · rw [if_neg (by omega), if_neg short]
              obtain ⟨put, stands'⟩ := @putBuf_run _ _ _ _ _ stands start (escapeHex c) (by simp [escapeHex]; omega)
              rw [EStateM.bind_ok put]
              obtain ⟨after, run, stands''⟩ := @ih _ (start + 4) (room - 4) stands' (by omega) (by omega)
              refine ⟨after, ?_, stands''⟩
              rw [show ((start : Int) + 4) = ((start + 4 : Nat) : Int) by omega,
                show ((room : Int) - 4) = ((room - 4 : Nat) : Int) by omega, run]
              congr 2
              omega

/-- The function never moves back. -/
theorem escapeBinary_forward {escapeDoublequote : Bool} {chars : List UInt8} :
    ∀ {s after : Slog} {start size stop : Int} {err : LogCode},
      escapeBinary escapeDoublequote chars start size s = .ok (err, stop) after → start ≤ stop := by
  induction chars with
  | nil =>
      intro s after start size stop err run
      cases run
      exact le_refl _
  | cons c chars ih =>
      intro s after start size stop err run
      rw [escapeBinary] at run
      cases letter : escapeLetter escapeDoublequote c with
      | some letter' =>
          simp only [letter] at run
          split at run
          · cases run
            exact le_refl _
          · obtain ⟨_, middle, -, later⟩ := EStateM.of_bind_ok run
            exact ih later
      | none =>
          simp only [letter] at run
          split at run
          · obtain ⟨_, middle, -, later⟩ := EStateM.of_bind_ok run
            split at later
            · cases later
              omega
            · have further := ih later
              omega
          · split at run
            · cases run
              exact le_refl _
            · obtain ⟨_, middle, -, later⟩ := EStateM.of_bind_ok run
              have further := ih later
              omega

/-- A quoted string that overruns its space fails. -/
theorem appendQuotedStringN_overruns {start : Int} {chars : List UInt8} {n : Int}
    (overruns : OverrunsQuote 1 (chars.take n.toNat)) (code : LogCode) (after : Slog) :
    appendQuotedStringN start 1 chars n s ≠ .ok code after := by
  obtain ⟨-, quoted, c, first, letter, plain⟩ := overruns
  intro run
  rw [appendQuotedStringN, if_neg (by decide), if_neg (by simp [quoted])] at run
  obtain ⟨_, opened, -, run⟩ := EStateM.of_bind_ok run
  obtain ⟨⟨err, stop⟩, escaped, inner, run⟩ := EStateM.of_bind_ok run
  obtain ⟨rest, whole⟩ : ∃ rest, chars.take n.toNat = c :: rest := by
    cases taken : chars.take n.toNat with
    | nil =>
        rw [taken] at first
        cases first
    | cons d rest =>
        rw [taken] at first
        cases first
        exact ⟨rest, rfl⟩
  rw [whole, escapeBinary] at inner
  simp only [letter, plain, if_true] at inner
  obtain ⟨_, middle, -, later⟩ := EStateM.of_bind_ok inner
  rw [if_neg (by decide)] at later
  have forward := escapeBinary_forward later
  obtain ⟨covers, -⟩ := of_require_bind run
  omega

/-- A count becomes the value of `m`. -/
theorem setM_run (stands : s.At bufSize tail m0 spot) {k : Nat} (small : k < 2 ^ 31) :
    setM k s = .ok () { s with m := k } ∧ Slog.At bufSize tail m0 ⟨spot.pos, some k⟩ { s with m := k } := by
  refine ⟨rfl, { stands with m := rfl, small := ?_ }⟩
  intro other same
  cases same
  exact small

/-- Behind an opening quote without space, a first character that needs an escape writes nothing. -/
theorem escapeBinary_zero {chars : List UInt8} (quoted : needsQuotes chars = true)
    (fits : ¬ OverrunsQuote 1 chars) (start : Int) :
    escapeBinary true chars start 0 s = .ok (.outOfSpace, start) s := by
  cases chars with
  | nil => cases quoted
  | cons c chars =>
      rw [escapeBinary]
      cases letter : escapeLetter true c with
      | some letter => rfl
      | none =>
          have special : isPlain c = false := by
            by_contra plain
            exact fits ⟨rfl, quoted, c, rfl, letter, by simpa using plain⟩
          simp [special]

/-- The closing quote is written when there is space for it. -/
theorem closeQuote_run (stands : s.At bufSize tail m0 spot) {size count : Nat} (small : size < 2 ^ 31)
    (inside : spot.pos + size ≤ bufSize) (covered : count + 1 ≤ size) (err : LogCode) :
    ∃ after, closeQuote spot.pos size ((spot.pos + 1 + count : Nat) : Int) err s =
        .ok (if size - 1 - count = 0 ∨ err = .outOfSpace then .outOfSpace else .ok) after ∧
      after.At bufSize tail m0
        ⟨spot.pos, some (if size - 1 - count = 0 ∨ err = .outOfSpace then count + 1 else count + 2)⟩ := by
  have covers : (size : Int) - 1 ≥ ((spot.pos + 1 + count : Nat) : Int) - (spot.pos + 1) := by omega
  have ends : ((size : Int) - 1 - (((spot.pos + 1 + count : Nat) : Int) - (spot.pos + 1)) = 0 ∨ err = .outOfSpace) ↔
      (size - 1 - count = 0 ∨ err = .outOfSpace) := by
    apply or_congr_left
    omega
  rw [closeQuote, require_bind covers]
  by_cases full : size - 1 - count = 0 ∨ err = .outOfSpace
  · rw [if_pos (ends.mpr full), if_pos full, if_pos full]
    obtain ⟨set, final⟩ := setM_run stands (show count + 1 < 2 ^ 31 by omega)
    rw [show ((spot.pos + 1 + count : Nat) : Int) - spot.pos = ((count + 1 : Nat) : Int) by omega,
      EStateM.bind_ok set]
    exact ⟨_, rfl, final⟩
  · rw [if_neg (fun other => full (ends.mp other)), if_neg full, if_neg full]
    rw [not_or] at full
    obtain ⟨put, stands'⟩ := @putBuf_run _ _ _ _ _ stands (spot.pos + 1 + count) [34] (by simp; omega)
    rw [EStateM.bind_ok put]
    obtain ⟨set, final⟩ := setM_run stands' (show count + 2 < 2 ^ 31 by omega)
    rw [show ((spot.pos + 1 + count : Nat) : Int) + 1 - spot.pos = ((count + 2 : Nat) : Int) by omega,
      EStateM.bind_ok set]
    exact ⟨_, rfl, final⟩

/-- A string that does not overrun its space is appended as far as there is space. -/
theorem appendQuotedStringN_run (stands : s.At bufSize tail m0 spot) {chars : List UInt8} {n : Int} {size : Nat}
    (some : 1 ≤ size) (small : size < 2 ^ 31) (inside : spot.pos + size ≤ bufSize)
    (fits : ¬ OverrunsQuote size (chars.take n.toNat)) :
    ∃ after, appendQuotedStringN spot.pos size chars n s =
        .ok (stringCount (chars.take n.toNat) size).1 after ∧
      after.At bufSize tail m0 ⟨spot.pos, .some (stringCount (chars.take n.toNat) size).2⟩ := by
  have count := stringCount_le some fits
  have notEmpty : ¬ ((size : Int) ≤ 0) := by omega
  rw [appendQuotedStringN, if_neg notEmpty]
  by_cases plain : needsQuotes (chars.take n.toNat) = false
  · have clipped : chars.take (if n > size then (size : Int) else n).toNat = (chars.take n.toNat).take size := by
      rw [List.take_take]
      congr 1
      split <;> omega
    have counted : stringCount (chars.take n.toNat) size =
        escapedCount false ((chars.take n.toNat).take size) size := if_pos plain
    rw [counted] at count ⊢
    obtain ⟨middle, run, stands'⟩ := @escapeBinary_run bufSize tail m0 spot false
      ((chars.take n.toNat).take size) s spot.pos size stands some inside
    rw [if_pos plain]
    dsimp only
    rw [clipped, EStateM.bind_ok run]
    obtain ⟨set, final⟩ := setM_run stands' (show (escapedCount false ((chars.take n.toNat).take size) size).2 <
      2 ^ 31 by omega)
    have moved : (((spot.pos + (escapedCount false ((chars.take n.toNat).take size) size).2 : Nat) : Int) - spot.pos) =
        ((escapedCount false ((chars.take n.toNat).take size) size).2 : Nat) := by omega
    dsimp only
    rw [moved, EStateM.bind_ok set]
    exact ⟨_, rfl, final⟩
  · have quoted : needsQuotes (chars.take n.toNat) = true := by simpa using plain
    obtain ⟨put, opened⟩ := @putBuf_run _ _ _ _ _ stands spot.pos [34] (by simp; omega)
    rw [if_neg plain, EStateM.bind_ok put]
    obtain ⟨middle, run, stands', covered⟩ : ∃ middle,
        escapeBinary true (chars.take n.toNat) (spot.pos + 1) (size - 1)
            { s with buf := writeAt s.buf spot.pos [34] } =
          .ok ((escapedCount true (chars.take n.toNat) (size - 1)).1,
            ((spot.pos + 1 + (escapedCount true (chars.take n.toNat) (size - 1)).2 : Nat) : Int)) middle ∧
        middle.At bufSize tail m0 spot ∧ (escapedCount true (chars.take n.toNat) (size - 1)).2 + 1 ≤ size := by
      by_cases last : size = 1
      · subst last
        rw [escapedCount_zero quoted fits]
        exact ⟨_, escapeBinary_zero quoted fits _, opened, le_refl _⟩
      · obtain ⟨middle, run, stands'⟩ := @escapeBinary_run bufSize tail m0 spot true (chars.take n.toNat) _
          (spot.pos + 1) (size - 1) opened (by omega) (by omega)
        have inner := (@escapedCount_le true (chars.take n.toNat) (size - 1) (by omega)).1
        refine ⟨middle, ?_, stands', by omega⟩
        rw [← run]
        congr 1
        omega
    rw [EStateM.bind_ok run]
    obtain ⟨after, closed, final⟩ := closeQuote_run stands' small inside covered
      (escapedCount true (chars.take n.toNat) (size - 1)).1
    refine ⟨after, closed.trans ?_, ?_⟩
    · rw [stringCount, if_neg plain]
      split <;> rfl
    · rw [stringCount, if_neg plain]
      split at final
      · rename_i full
        rwa [if_pos full]
      · rename_i full
        rwa [if_neg full]

end Steps

end Menoetius
