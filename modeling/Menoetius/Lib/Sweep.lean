import Mathlib.Tactic

/-
This file treats sweeps over a list that grows at its end while members behind the cursor leave it.
-/

namespace ListSweep

variable {α : Type}

/-- The members that the sweep has passed, followed by those in front of its cursor, are the members at the start
and those that were added later. No member occurs twice. -/
structure Sweep (start added passed ahead : List α) : Prop where
  order : passed ++ ahead = start ++ added
  nodup : (passed ++ ahead).Nodup

variable {start added passed ahead : List α}

/-- A sweep starts in front of all members. -/
theorem Sweep.begin (nodup : start.Nodup) : Sweep start [] [] start :=
  ⟨by simp, by simpa using nodup⟩

/-- A new member goes to the end of the list, in front of the cursor. -/
theorem Sweep.append (sweep : Sweep start added passed ahead) {member : α} (fresh : member ∉ passed ++ ahead) :
    Sweep start (added ++ [member]) passed (ahead ++ [member]) := by
  refine ⟨?_, ?_⟩
  · rw [← List.append_assoc, sweep.order, List.append_assoc]
  · rw [← List.append_assoc, List.nodup_append]
    refine ⟨sweep.nodup, List.nodup_singleton member, ?_⟩
    rintro other present last single rfl
    exact fresh (List.mem_singleton.mp single ▸ present)

/-- The cursor moves over some members. -/
theorem Sweep.pass {batch : List α} (sweep : Sweep start added passed (batch ++ ahead)) :
    Sweep start added (passed ++ batch) ahead := by
  obtain ⟨order, nodup⟩ := sweep
  rw [← List.append_assoc] at order nodup
  exact ⟨order, nodup⟩

/-- A sweep that has come to the end has passed every member of the start once. -/
theorem Sweep.once [DecidableEq α] (sweep : Sweep start added passed []) :
    ∀ member ∈ start, passed.count member = 1 := by
  obtain ⟨order, nodup⟩ := sweep
  rw [List.append_nil] at order nodup
  intro member present
  apply List.count_eq_one_of_mem nodup
  rw [order]
  exact List.mem_append_left added present

end ListSweep
