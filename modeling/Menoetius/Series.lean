import Menoetius.TscImage

/-
This file describes one timeseries by the points it has, and where they are kept.
-/

namespace Menoetius

/-- The points of the complete blocks, of the copy of the open block on disk and of the open block in
memory. -/
structure Series where
  complete : List (List Point)
  active : Option (List Point)
  stream : List Point

namespace Series

def empty : Series := ⟨[], none, []⟩

/-- A reader takes every point from a complete block or from memory. -/
def points (series : Series) : List Point := series.complete.flatten ++ series.stream

/-- The open block has no room for any further point. -/
def Full (s : Nat) (series : Series) : Prop := (s - 4) * 8 - (coderOf series.stream).bits.length < 18 * 8

instance (s : Nat) (series : Series) : Decidable (series.Full s) := inferInstanceAs (Decidable (_ < _))

/-- The open block is completed. -/
def flush (series : Series) : Series := ⟨series.complete ++ [series.stream], none, []⟩

/-- The open block is copied to disk. -/
def sync (series : Series) : Series := { series with active := some series.stream }

/-- A stored point goes to the open block, or to a new one when that is full. -/
def add (s : Nat) (series : Series) (point : Point) : Series :=
  if series.Full s then { series.flush with stream := [point] }
  else { series with stream := series.stream ++ [point] }

def addAll (s : Nat) (series : Series) (points : List Point) : Series := points.foldl (add s) series

/-- A point that the series takes. -/
def Takes (s : Nat) (series : Series) (point : Point) : Prop :=
  if series.Full s then admission s [] point = none else admission s series.stream point = none

/-- A point that the series refuses with a code, and without any change. -/
def Refuses (s : Nat) (series : Series) (point : Point) (err : Err) : Prop :=
  if series.Full s then err = .res 1 ∧ 2 ^ 26 < s + 8 else admission s series.stream point = some err

/-- The times at which the blocks on disk start. -/
def startTimes (series : Series) : List Int :=
  (series.complete ++ series.active.toList).filterMap fun points => points.head?.map fun point => point.1.toInt

/-- The blocks before the last one that starts before a time are dropped. -/
def trim (t : Int) (series : Series) : Series :=
  { series with
    complete := series.complete.drop ((series.startTimes.takeWhile fun start => decide (start < t)).length - 1) }

/-- The time of the last point in memory. -/
def lastTime (series : Series) : Int := (series.stream.getLast?.map fun point => point.1.toInt).getD 0

@[simp] theorem points_flush (series : Series) : series.flush.points = series.points := by
  simp [points, flush]

@[simp] theorem points_sync (series : Series) : series.sync.points = series.points := rfl

@[simp] theorem points_add (s : Nat) (series : Series) (point : Point) :
    (series.add s point).points = series.points ++ [point] := by
  unfold add
  split <;> simp [points, flush]

@[simp] theorem addAll_nil (s : Nat) (series : Series) : series.addAll s [] = series := rfl

@[simp] theorem addAll_cons (s : Nat) (series : Series) (point : Point) (rest : List Point) :
    series.addAll s (point :: rest) = (series.add s point).addAll s rest := rfl

theorem points_addAll (s : Nat) (series : Series) (more : List Point) :
    (series.addAll s more).points = series.points ++ more := by
  induction more generalizing series with
  | nil => simp
  | cons point rest ih => rw [addAll_cons, ih, points_add, List.append_assoc, List.singleton_append]

theorem stream_add (s : Nat) (series : Series) (point : Point) : (series.add s point).stream ≠ [] := by
  unfold add
  split <;> simp

/-- Every stored point leaves the open block with a point. -/
theorem stream_addAll (s : Nat) (series : Series) (more : List Point) (some : series.stream ≠ [] ∨ more ≠ []) :
    (series.addAll s more).stream ≠ [] := by
  induction more generalizing series with
  | nil => simpa using some
  | cons point rest ih => exact ih _ (Or.inl (stream_add s series point))

end Series

/-- The first point of a block takes at most three words. -/
theorem first_bits_le (point : Point) : (Coder.start.push point).bits.length ≤ 141 := by
  have value := codeDouble_length_le Coder.start.window ⟨by decide, by decide⟩ (0#64 ^^^ point.2)
  have bits : (Coder.start.push point).bits =
      BitField.fieldBits 64 point.1 ++ codeDouble Coder.start.window (0#64 ^^^ point.2) := rfl
  rw [bits, List.length_append, BitField.fieldBits_length]
  omega

/-- A block of at least 28 bytes takes every first point. -/
theorem admission_first (s : Nat) (large : 28 ≤ s) (point : Point) : admission s [] point = none := by
  have bits : ((coderOf []).push point).bits.length ≤ 141 := first_bits_le point
  have room : ¬ (s - 4) * 8 - (coderOf []).bits.length < 18 * 8 := by
    change ¬ (s - 4) * 8 - 0 < 18 * 8
    omega
  have fits : ¬ (s - 4) * 8 < wordsEnd ((coderOf []).push point).bits.length := by
    unfold wordsEnd
    omega
  unfold admission
  dsimp only
  rw [if_neg room, if_neg (by simp), if_neg (by simp), if_neg fits]

/-- A block without room refuses every point for that reason first. -/
theorem admission_full (s : Nat) (points : List Point) (point : Point) :
    admission s points point = some .tscOutOfSpace ↔ (s - 4) * 8 - (coderOf points).bits.length < 18 * 8 := by
  unfold admission
  by_cases full : (s - 4) * 8 - (coderOf points).bits.length < 18 * 8
  · simp [full]
  · simp only [full, if_false, iff_false]
    split
    · simp
    split
    · simp
    split <;> simp

/-- A block with room takes only points that are newer than its last one. -/
theorem admission_newer (s : Nat) (points : List Point) (last point : Point)
    (takes : admission s (points ++ [last]) point = none) : last.1.toInt < point.1.toInt := by
  unfold admission at takes
  dsimp only at takes
  split at takes
  · cases takes
  split at takes
  · cases takes
  rename_i late
  rw [coderOf_concat] at late
  simp only [ne_eq, List.append_eq_nil_iff, List.cons_ne_self, and_false, not_false_eq_true, true_and,
    Coder.push, not_le] at late
  exact late

namespace Series

/-- A block of at least 28 bytes is never full while it is empty. -/
theorem not_full_of_empty {s : Nat} {series : Series} (large : 28 ≤ s) (empty : series.stream = []) :
    ¬ series.Full s := by
  unfold Full
  rw [empty]
  change ¬ (s - 4) * 8 - 0 < 18 * 8
  omega

theorem refuses_ne_outOfSpace {s : Nat} {series : Series} {point : Point} {err : Err}
    (refused : series.Refuses s point err) : err ≠ .tscOutOfSpace := by
  unfold Refuses at refused
  split at refused
  · rw [refused.1]
    simp
  · rename_i room
    rintro rfl
    exact room ((admission_full s _ point).mp refused)

end Series

end Menoetius
