import Mathlib.Data.List.TakeWhile
import Mathlib.Tactic

/-
This file treats lists as fields between separators.
-/

namespace Fields

variable {α : Type}

/-- The fields with a separator behind each of them. -/
def closed (separator : α) (fields : List (List α)) : List α := fields.flatMap fun field => field ++ [separator]

variable {separator : α}

@[simp] theorem closed_nil : closed separator [] = [] := rfl

theorem closed_cons (field : List α) (rest : List (List α)) :
    closed separator (field :: rest) = field ++ separator :: closed separator rest := by
  rw [closed, List.flatMap_cons, List.append_assoc]
  rfl

theorem closed_append (front back : List (List α)) :
    closed separator (front ++ back) = closed separator front ++ closed separator back := List.flatMap_append

/-- A separator behind the fields with separators between them closes the last one. -/
theorem intercalate_append {fields : List (List α)} (some : fields ≠ []) :
    [separator].intercalate fields ++ [separator] = closed separator fields := by
  induction fields with
  | nil => exact absurd rfl some
  | cons field rest ih =>
      cases rest with
      | nil => simp [closed]
      | cons next rest =>
          rw [List.intercalate_cons_cons, closed_cons, ← ih (List.cons_ne_nil next rest)]
          simp only [List.append_assoc, List.cons_append, List.nil_append]

/-- Each field but the first one stands behind a separator. -/
theorem intercalate_cons_eq (field : List α) (rest : List (List α)) :
    [separator].intercalate (field :: rest) = field ++ rest.flatMap fun other => separator :: other := by
  induction rest generalizing field with
  | nil => simp
  | cons next rest ih =>
      rw [List.intercalate_cons_cons, ih, List.flatMap_cons, List.append_assoc]
      rfl

/-- The first separator is where the first field ends. -/
theorem append_separator_inj {first second later others : List α} (free : separator ∉ first)
    (alsoFree : separator ∉ second) (same : first ++ separator :: later = second ++ separator :: others) :
    first = second ∧ later = others := by
  induction first generalizing second with
  | nil =>
      cases second with
      | nil => exact ⟨rfl, (List.cons.inj same).2⟩
      | cons head second =>
          refine absurd (List.cons.inj same).1 fun equal => alsoFree ?_
          rw [equal]
          exact List.mem_cons_self
  | cons head first ih =>
      cases second with
      | nil =>
          refine absurd (List.cons.inj same).1.symm fun equal => free ?_
          rw [equal]
          exact List.mem_cons_self
      | cons other second =>
          obtain ⟨equal, same⟩ := List.cons.inj same
          obtain ⟨rfl, rest⟩ := ih (fun mem => free (List.mem_cons_of_mem _ mem))
            (fun mem => alsoFree (List.mem_cons_of_mem _ mem)) same
          exact ⟨by rw [equal], rest⟩

/-- Closed fields start with a field where their first field is that field. -/
theorem closed_starts {fields : List (List α)} (free : ∀ field ∈ fields, separator ∉ field) {first later : List α}
    (firstFree : separator ∉ first) (starts : first ++ separator :: later = closed separator fields) :
    ∃ rest, fields = first :: rest ∧ later = closed separator rest := by
  cases fields with
  | nil => simp at starts
  | cons field rest =>
      rw [closed_cons] at starts
      obtain ⟨rfl, remains⟩ := append_separator_inj firstFree (free field List.mem_cons_self) starts
      exact ⟨rest, rfl, remains⟩

/-- Two closed fields occur where a field ends with the first one and the next field is the second one. -/
theorem infix_closed_iff {fields : List (List α)} (free : ∀ field ∈ fields, separator ∉ field) {first second : List α}
    (firstFree : separator ∉ first) (secondFree : separator ∉ second) :
    closed separator [first, second] <:+: closed separator fields ↔
      ∃ front field back, fields = front ++ field :: second :: back ∧ first <:+ field := by
  have pattern : closed separator [first, second] = first ++ separator :: (second ++ [separator]) := by
    rw [closed_cons, closed_cons, closed_nil]
  rw [pattern]
  constructor
  · rintro ⟨before, after, found⟩
    simp only [List.append_assoc, List.cons_append, List.nil_append] at found
    induction fields generalizing before with
    | nil => simp at found
    | cons field rest ih =>
        obtain ⟨fieldFree, others⟩ := List.forall_mem_cons.mp free
        have found' := found
        rw [closed_cons] at found'
        rcases List.append_eq_append_iff.mp found' with ⟨tail, split, remains⟩ | ⟨tail, split, remains⟩
        · -- The occurrence starts inside the first field, so that its first separator ends the field.
          have tailFree : separator ∉ tail := fun mem => fieldFree (by rw [split]; exact List.mem_append_right _ mem)
          obtain ⟨rfl, later⟩ := append_separator_inj firstFree tailFree remains
          obtain ⟨back, rfl, _⟩ := closed_starts others secondFree later
          exact ⟨[], field, back, rfl, before, split.symm⟩
        · cases tail with
          | nil =>
              -- The occurrence starts at the end of the field, so that its own first field is empty.
              obtain ⟨rfl, later⟩ := append_separator_inj (by simp) firstFree
                (show [] ++ separator :: closed separator rest = first ++ separator :: (second ++ separator :: after)
                  from remains)
              obtain ⟨back, rfl, _⟩ := closed_starts others secondFree later.symm
              exact ⟨[], field, back, rfl, List.nil_suffix⟩
          | cons head tail =>
              obtain ⟨_, remains⟩ := List.cons.inj remains
              obtain ⟨front, other, back, rfl, ends⟩ := ih others tail remains.symm
              exact ⟨field :: front, other, back, rfl, ends⟩
  · rintro ⟨front, field, back, rfl, before, ends⟩
    refine ⟨closed separator front ++ before, closed separator back, ?_⟩
    rw [closed_append, closed_cons, closed_cons, ← ends]
    simp only [List.append_assoc, List.cons_append, List.nil_append]

section Pieces

variable [DecidableEq α]

/-- The fields that a scan reads up to the end of the list, where a separator ends its field and opens no other. -/
def pieces (separator : α) : List α → List (List α)
  | [] => []
  | head :: rest =>
      if head = separator then [] :: pieces separator rest
      else match pieces separator rest with
        | [] => [[head]]
        | field :: others => (head :: field) :: others

@[simp] theorem pieces_nil : pieces separator [] = [] := rfl

/-- A scan reads the field before the first separator and goes on behind it. -/
theorem pieces_append {field : List α} (free : separator ∉ field) (rest : List α) :
    pieces separator (field ++ separator :: rest) = field :: pieces separator rest := by
  induction field with
  | nil => exact if_pos rfl
  | cons head field ih =>
      have other : head ≠ separator := fun equal => free (by rw [equal]; exact List.mem_cons_self)
      have tail := ih fun mem => free (List.mem_cons_of_mem _ mem)
      rw [List.cons_append, pieces, if_neg other, tail]

/-- A scan reads what is left without a separator as one field. -/
theorem pieces_last {field : List α} (free : separator ∉ field) (some : field ≠ []) :
    pieces separator field = [field] := by
  induction field with
  | nil => exact absurd rfl some
  | cons head field ih =>
      have other : head ≠ separator := fun equal => free (by rw [equal]; exact List.mem_cons_self)
      cases field with
      | nil => rw [pieces, if_neg other, pieces_nil]
      | cons next field =>
          have tail := ih (fun mem => free (List.mem_cons_of_mem _ mem)) (List.cons_ne_nil next field)
          rw [pieces, if_neg other, tail]

/-- A scan reads up to the first separator and goes on behind it. -/
theorem pieces_eq {list : List α} (some : list ≠ []) :
    pieces separator list =
      let field := list.takeWhile fun item => item ≠ separator
      field :: pieces separator (list.drop (field.length + 1)) := by
  induction list with
  | nil => exact absurd rfl some
  | cons head rest ih =>
      rw [pieces]
      split
      next equal => simp [equal]
      next other =>
        cases rest with
        | nil => simp [other]
        | cons next rest => simp [ih (List.cons_ne_nil next rest), other]

/-- A scan of separated fields reads them all if the last one has something in it. -/
theorem pieces_intercalate {fields : List (List α)} (free : ∀ field ∈ fields, separator ∉ field) {last : List α}
    (lastFree : separator ∉ last) :
    pieces separator ([separator].intercalate (fields ++ [last])) = if last = [] then fields else fields ++ [last] := by
  induction fields with
  | nil =>
      rw [List.nil_append, List.intercalate_singleton]
      split
      next empty => rw [empty]; rfl
      next full => rw [pieces_last lastFree full]
  | cons field rest ih =>
      obtain ⟨fieldFree, others⟩ := List.forall_mem_cons.mp free
      have more : rest ++ [last] ≠ [] := by simp
      rw [List.cons_append, List.intercalate_cons_of_ne_nil more, List.append_assoc, List.singleton_append,
        pieces_append fieldFree, ih others]
      split <;> rfl

end Pieces

end Fields
