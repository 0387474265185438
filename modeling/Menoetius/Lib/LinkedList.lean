import Mathlib.Tactic

/-
This file treats doubly linked lists by the sequences of their members.
-/

namespace LinkedList

/-- The ends of a list, and the neighbours of every possible member. -/
structure Links (α : Type) where
  first : Option α
  last : Option α
  next : α → Option α
  prev : α → Option α

variable {α : Type}

namespace Links

def empty : Links α := ⟨none, none, fun _ => none, fun _ => none⟩

/-- The same list from its other end. -/
def flip (links : Links α) : Links α := ⟨links.last, links.first, links.prev, links.next⟩

/-- The members of the list, where each one is linked with both of its neighbours. -/
structure Holds (links : Links α) (members : List α) : Prop where
  nodup : members.Nodup
  first : links.first = members.head?
  last : links.last = members.getLast?
  next : ∀ front item back, members = front ++ item :: back → links.next item = back.head?
  prev : ∀ front item back, members = front ++ item :: back → links.prev item = front.getLast?

theorem empty_holds : (empty : Links α).Holds [] where
  nodup := List.nodup_nil
  first := rfl
  last := rfl
  next := fun front item back same => absurd same (by simp)
  prev := fun front item back same => absurd same (by simp)

theorem Holds.flip {links : Links α} {members : List α} (holds : links.Holds members) :
    links.flip.Holds members.reverse where
  nodup := List.nodup_reverse.mpr holds.nodup
  first := by rw [List.head?_reverse]; exact holds.last
  last := by rw [List.getLast?_reverse]; exact holds.first
  next := by
    intro front item back same
    have forward : members = back.reverse ++ item :: front.reverse := by
      rw [← List.reverse_reverse members, same]
      simp
    rw [← List.getLast?_reverse]
    exact holds.prev _ item _ forward
  prev := by
    intro front item back same
    have forward : members = back.reverse ++ item :: front.reverse := by
      rw [← List.reverse_reverse members, same]
      simp
    rw [← List.head?_reverse]
    exact holds.next _ item _ forward

/-- The links of two members are inverse. -/
theorem Holds.next_iff {links : Links α} {members : List α} (holds : links.Holds members) {first second : α}
    (member : first ∈ members) (other : second ∈ members) :
    links.next first = some second ↔ links.prev second = some first := by
  constructor
  · intro linked
    obtain ⟨front, back, split⟩ := List.append_of_mem member
    rw [holds.next front first back split] at linked
    obtain ⟨rest, rfl⟩ := List.head?_eq_some_iff.mp linked
    rw [holds.prev (front ++ [first]) second rest (by rw [split, List.append_assoc]; rfl), List.getLast?_concat]
  · intro linked
    obtain ⟨front, back, split⟩ := List.append_of_mem other
    rw [holds.prev front second back split] at linked
    obtain ⟨rest, rfl⟩ := List.getLast?_eq_some_iff.mp linked
    rw [holds.next rest first (second :: back) (by rw [split, List.append_assoc]; rfl), List.head?_cons]

/-- The members from one of them on, up to a number of them. -/
def walk (links : Links α) : Nat → Option α → List α
  | 0, _ => []
  | _ + 1, none => []
  | count + 1, some item => item :: links.walk count (links.next item)

theorem Holds.walk_from {links : Links α} {front back : List α} (holds : links.Holds (front ++ back)) {count : Nat}
    (enough : back.length ≤ count) : links.walk count back.head? = back := by
  induction back generalizing front count with
  | nil => cases count <;> rfl
  | cons item rest ih =>
      obtain ⟨count, rfl⟩ : ∃ less, count = less + 1 := ⟨count - 1, by rw [List.length_cons] at enough; omega⟩
      have next := holds.next front item rest rfl
      have later : links.Holds ((front ++ [item]) ++ rest) := by rwa [List.append_assoc]
      rw [List.head?_cons, walk, next, ih later (Nat.le_of_succ_le_succ enough)]

/-- The walk from the first member meets all of them. -/
theorem Holds.walk {links : Links α} {members : List α} (holds : links.Holds members) {count : Nat}
    (enough : members.length ≤ count) : links.walk count links.first = members := by
  rw [holds.first]
  exact @walk_from α links [] members holds count enough

variable [DecidableEq α]

/-- An item goes behind the last one. -/
def append (links : Links α) (item : α) : Links α :=
  match links.last with
  | none =>
      ⟨some item, some item, Function.update links.next item none, Function.update links.prev item none⟩
  | some last =>
      ⟨links.first, some item, Function.update (Function.update links.next last (some item)) item none,
        Function.update links.prev item (some last)⟩

theorem Holds.append {links : Links α} {members : List α} (holds : links.Holds members) {item : α}
    (fresh : item ∉ members) : (links.append item).Holds (members ++ [item]) := by
  have nodup : (members ++ [item]).Nodup :=
    List.nodup_append.mpr ⟨holds.nodup, List.nodup_singleton item, fun other mem single there => by
      rintro rfl
      exact fresh (List.mem_singleton.mp there ▸ mem)⟩
  rcases List.eq_nil_or_concat members with rfl | ⟨before, last, rfl⟩
  · have none : links.last = none := holds.last
    rw [Links.append, none]
    refine ⟨nodup, rfl, rfl, ?_, ?_⟩
    · intro front other back same
      obtain ⟨rfl, rfl, rfl⟩ : front = [] ∧ other = item ∧ back = [] := by
        cases front with
        | nil => simpa [eq_comm] using same
        | cons head tail => simp at same
      exact Function.update_self _ _ _
    · intro front other back same
      obtain ⟨rfl, rfl, rfl⟩ : front = [] ∧ other = item ∧ back = [] := by
        cases front with
        | nil => simpa [eq_comm] using same
        | cons head tail => simp at same
      exact Function.update_self _ _ _
  · rw [List.concat_eq_append] at holds fresh nodup ⊢
    have some : links.last = some last := by rw [holds.last, List.getLast?_concat]
    rw [Links.append, some]
    refine ⟨nodup, ?_, by rw [List.getLast?_concat], ?_, ?_⟩
    · rw [show (links.first : Option α) = _ from holds.first]
      cases before <;> rfl
    · intro front other back same
      rcases List.eq_nil_or_concat back with rfl | ⟨rest, tail, rfl⟩
      · obtain ⟨_, single⟩ := List.append_inj' same rfl
        cases single
        exact Function.update_self _ _ _
      · rw [List.concat_eq_append, ← List.cons_append, ← List.append_assoc] at same
        obtain ⟨whole, single⟩ := List.append_inj' same rfl
        cases single
        have other_ne : other ≠ item := fun equal => fresh (by rw [whole, equal]; simp)
        rw [List.concat_eq_append]
        refine (Function.update_of_ne other_ne _ _).trans ?_
        rcases List.eq_nil_or_concat rest with rfl | ⟨inner, ending, rfl⟩
        · obtain ⟨_, equal⟩ := List.append_inj' whole rfl
          cases equal
          exact Function.update_self _ _ _
        · have differs : other ≠ last := by
            rintro rfl
            have distinct := holds.nodup
            rw [List.concat_eq_append, ← List.cons_append, ← List.append_assoc] at whole
            obtain ⟨start, _⟩ := List.append_inj' whole rfl
            rw [start] at distinct
            exact (List.nodup_append.mp distinct).2.2 other (by simp) other List.mem_cons_self rfl
          rw [Function.update_of_ne differs, holds.next front other _ whole]
          cases inner <;> rfl
    · intro front other back same
      rcases List.eq_nil_or_concat back with rfl | ⟨rest, tail, rfl⟩
      · obtain ⟨start, single⟩ := List.append_inj' same rfl
        cases single
        refine (Function.update_self _ _ _).trans ?_
        rw [← start, List.getLast?_concat]
      · rw [List.concat_eq_append, ← List.cons_append, ← List.append_assoc] at same
        obtain ⟨whole, single⟩ := List.append_inj' same rfl
        cases single
        have other_ne : other ≠ item := fun equal => fresh (by rw [whole, equal]; simp)
        exact (Function.update_of_ne other_ne _ _).trans (holds.prev front other rest whole)

/-- The neighbours of an item are linked with each other. -/
def remove (links : Links α) (item : α) : Links α where
  first := if links.first = some item then links.next item else links.first
  last := if links.last = some item then links.prev item else links.last
  next := match links.prev item with
    | none => links.next
    | some before => Function.update links.next before (links.next item)
  prev := match links.next item with
    | none => links.prev
    | some after => Function.update links.prev after (links.prev item)

/-- The next member of each one after an item has left. -/
theorem Holds.next_remove {links : Links α} {before after : List α} {item : α}
    (holds : links.Holds (before ++ item :: after)) (front : List α) (other : α) (back : List α)
    (same : before ++ after = front ++ other :: back) : (links.remove item).next other = back.head? := by
  have nodup := holds.nodup
  change (match links.prev item with
    | none => links.next
    | some before => Function.update links.next before (links.next item)) other = _
  rw [holds.prev before item after rfl, holds.next before item after rfl]
  rcases List.append_eq_append_iff.mp same with ⟨mid, front_eq, after_eq⟩ | ⟨mid, before_eq, back_eq⟩
  · -- The other member is behind the item.
    have whole : before ++ item :: after = (before ++ item :: mid) ++ other :: back := by
      rw [after_eq, List.append_assoc]
      rfl
    have notBefore : other ∉ before := by
      intro mem
      rw [whole] at nodup
      have := (List.nodup_append.mp nodup).2.2 other (List.mem_append_left _ mem) other List.mem_cons_self
      exact this rfl
    cases last : before.getLast? with
    | none => exact holds.next _ other back whole
    | some ending =>
        have differs : other ≠ ending := fun equal => notBefore (equal ▸ List.mem_of_getLast? last)
        exact (Function.update_of_ne differs _ _).trans (holds.next _ other back whole)
  · cases mid with
    | nil =>
        rw [List.append_nil] at before_eq
        rw [List.nil_append] at back_eq
        have whole : before ++ item :: after = (before ++ [item]) ++ other :: back := by
          rw [← back_eq, List.append_assoc]
          rfl
        have notBefore : other ∉ before := by
          intro mem
          rw [whole] at nodup
          have := (List.nodup_append.mp nodup).2.2 other (List.mem_append_left _ mem) other List.mem_cons_self
          exact this rfl
        cases last : before.getLast? with
        | none => exact holds.next _ other back whole
        | some ending =>
            have differs : other ≠ ending := fun equal => notBefore (equal ▸ List.mem_of_getLast? last)
            exact (Function.update_of_ne differs _ _).trans (holds.next _ other back whole)
    | cons head mid =>
        rw [List.cons_append] at back_eq
        cases back_eq
        have whole : before ++ item :: after = front ++ other :: (mid ++ item :: after) := by
          rw [before_eq, List.append_assoc]
          rfl
        rcases List.eq_nil_or_concat mid with rfl | ⟨inner, ending, rfl⟩
        · rw [before_eq, List.getLast?_concat]
          exact Function.update_self _ _ _
        · rw [List.concat_eq_append] at before_eq whole ⊢
          have last : before.getLast? = some ending := by
            rw [before_eq, ← List.cons_append, ← List.append_assoc, List.getLast?_concat]
          have differs : other ≠ ending := by
            rintro rfl
            rw [before_eq] at nodup
            have inFront := (List.nodup_append.mp nodup).1
            have := (List.nodup_cons.mp (List.nodup_append.mp inFront).2.1).1
            exact this (by simp)
          rw [last]
          refine (Function.update_of_ne differs _ _).trans ?_
          rw [holds.next front other _ whole]
          cases inner <;> rfl

theorem Holds.first_remove {links : Links α} {before after : List α} {item : α}
    (holds : links.Holds (before ++ item :: after)) : (links.remove item).first = (before ++ after).head? := by
  change (if links.first = some item then links.next item else links.first) = _
  rw [holds.first, holds.next before item after rfl]
  cases before with
  | nil => exact if_pos rfl
  | cons head tail =>
      have differs : head ≠ item := by
        rintro rfl
        exact absurd holds.nodup (by simp)
      exact if_neg fun equal => differs (Option.some.inj equal)

/-- An item leaves the list. -/
theorem Holds.remove {links : Links α} {before after : List α} {item : α}
    (holds : links.Holds (before ++ item :: after)) : (links.remove item).Holds (before ++ after) := by
  have flipped : links.flip.Holds (after.reverse ++ item :: before.reverse) := by
    have back := holds.flip
    rwa [List.reverse_append, List.reverse_cons, List.append_assoc] at back
  refine ⟨?_, holds.first_remove, ?_, holds.next_remove, ?_⟩
  · exact holds.nodup.sublist (List.Sublist.append_left (List.sublist_cons_self _ _) _)
  · have last := flipped.first_remove
    rwa [← List.reverse_append, List.head?_reverse] at last
  · intro front other back same
    have turned : after.reverse ++ before.reverse = back.reverse ++ other :: front.reverse := by
      rw [← List.reverse_append, same]
      simp
    have prev := flipped.next_remove _ other _ turned
    rwa [List.head?_reverse] at prev

end Links

end LinkedList
