import Menoetius.TscBlock

/-
This file proves that the iterator returns the accepted points of a block.
-/

namespace Menoetius
open BitField

/-- The iterator after it has read the points of a code state. -/
def iterOf (coder : Coder) : TscIter where
  y := coder.y
  t := coder.t
  i := coder.count
  r := coder.bits.length
  dt := coder.delta
  lastLeading := coder.window.leading
  lastSigbits := coder.window.sigbits

/-- The bits of one point lie behind the bits of the points before it. -/
theorem BlockHolds.stored_word {p : TscHeader} {front back : List Point} {point : Point}
    (holds : BlockHolds p (front ++ point :: back)) :
    BitsAt p.data.words (coderOf front).bits.length ((coderOf front).word point) ∧
      (coderOf front).bits.length + ((coderOf front).word point).length ≤ 64 * p.data.words.length ∧
      (coderOf front).bits.length + ((coderOf front).word point).length ≤ tscIterNumValidBits := by
  obtain ⟨rest, bits⟩ := coderOf_bits_append (front ++ [point]) back
  rw [List.append_assoc, List.singleton_append, coderOf_concat, Coder.push, List.append_assoc] at bits
  have stored := holds.stored
  have fits := holds.fits
  rw [bits] at stored fits
  rw [bitsAt_append, bitsAt_append, Nat.zero_add] at stored
  have used : (coderOf front).bits.length + ((coderOf front).word point).length ≤
      64 * p.data.words.length := by
    rw [holds.words]
    rw [List.length_append, List.length_append, wordsEnd] at fits
    omega
  have bounded := holds.bounded
  refine ⟨stored.2.1, used, ?_⟩
  rw [holds.words] at used
  unfold maxNumValidBits at bounded
  unfold tscIterNumValidBits
  omega

/-- One call reads the next point. -/
theorem tscIterNext_point (p : TscHeader) (front back : List Point) (point : Point)
    (holds : BlockHolds p (front ++ point :: back)) :
    tscIterNext p.data (iterOf (coderOf front)) = .ok (iterOf (coderOf (front ++ [point]))) := by
  obtain ⟨stored, room, space⟩ := holds.stored_word
  have more : ¬ p.data.numPts ≤ (iterOf (coderOf front)).i := by
    rw [holds.numPts]
    simp [iterOf]
  have window := coderOf_window front
  rw [coderOf_concat]
  generalize code : coderOf front = coder at *
  unfold tscIterNext
  rw [if_neg more]
  unfold Coder.word at stored room space
  by_cases first : coder.count = 0
  · obtain rfl : front = [] := by
      rw [← code, coderOf_count] at first
      exact List.length_eq_zero_iff.mp first
    have none : coder.y = 0#64 ∧ coder.delta = 0#64 := by
      rw [← code]
      exact ⟨rfl, rfl⟩
    rw [if_pos first, bitsAt_append] at stored
    rw [if_pos first, List.length_append] at room space
    rw [fieldBits_length] at stored room space
    have time := bitstreamReadInt64_field p.data.words tscIterNumValidBits _ 64 point.1 stored.1
      (by decide) (Or.inr rfl) (signedFits_full point.1) (by omega) (by omega)
    have value := tscReadDouble_code p.data.words tscIterNumValidBits _ _ _ window stored.2
      (by omega) (by omega)
    rw [none.1, BitVec.zero_xor] at value
    have begin : (iterOf coder).i = 0 := first
    rw [if_pos begin]
    simp only [iterOf, time, value, bind, Except.bind, pure, Except.pure, Coder.push, Coder.word,
      if_pos first, List.length_append, fieldBits_length, none, BitVec.zero_xor, Nat.add_assoc]
  · have some : front ≠ [] := by
      rintro rfl
      exact first (by rw [← code]; rfl)
    have fits := holds.codable front point back rfl some
    rw [code] at fits
    rw [if_neg first, bitsAt_append] at stored
    rw [if_neg first, List.length_append] at room space
    have time := tscReadInt64_code p.data.words tscIterNumValidBits _ _ fits stored.1
      (by omega) (by omega)
    have value := tscReadDouble_code p.data.words tscIterNumValidBits _ _ _ window stored.2
      (by omega) (by omega)
    have step : coder.delta + coder.diff point.1 = point.1 - coder.t := by
      rw [Coder.diff, BitVec.add_comm, BitVec.sub_add_cancel]
    have whole : coder.t + (point.1 - coder.t) = point.1 := by
      rw [BitVec.add_comm, BitVec.sub_add_cancel]
    have back : coder.y ^^^ (coder.y ^^^ point.2) = point.2 := by
      rw [← BitVec.xor_assoc, BitVec.xor_self, BitVec.zero_xor]
    have going : ¬ (iterOf coder).i = 0 := first
    rw [if_neg going]
    simp only [iterOf, time, value, bind, Except.bind, pure, Except.pure, step, whole, back, Coder.push,
      Coder.word, if_neg first, List.length_append, Nat.add_assoc]

/-- The loop returns the points behind the iterator and stops at the end of the block. -/
theorem tscIterLoop_points (p : TscHeader) (back : List Point) :
    ∀ (front : List Point) (_ : BlockHolds p (front ++ back)) (fuel : Nat), back.length < fuel →
      tscIterLoop p.data fuel (iterOf (coderOf front)) = (back, .code .tscIterDone) := by
  induction back with
  | nil =>
      intro front holds fuel enough
      obtain ⟨fuel, rfl⟩ : ∃ rest, fuel = rest + 1 := ⟨fuel - 1, by simp at enough; omega⟩
      have done : p.data.numPts ≤ (iterOf (coderOf front)).i := by
        rw [holds.numPts]
        simp [iterOf]
      rw [tscIterLoop, tscIterNext, if_pos done]
  | cons point back ih =>
      intro front holds fuel enough
      obtain ⟨fuel, rfl⟩ : ∃ rest, fuel = rest + 1 := ⟨fuel - 1, by simp at enough; omega⟩
      have next := ih (front ++ [point]) (by simpa using holds) fuel (by simpa using enough)
      rw [tscIterLoop, tscIterNext_point p front back point holds]
      simp only [next]
      simp [iterOf, Coder.push]

/-- Iterating over a block from its start returns the points that it holds. -/
theorem tscIterRun_points (p : TscHeader) (points : List Point) (holds : BlockHolds p points) :
    tscIterRun p.data = (points, .code .tscIterDone) := by
  have start : tscIterInit = iterOf (coderOf []) := rfl
  rw [tscIterRun, start]
  exact tscIterLoop_points p points [] holds _ (by rw [holds.numPts]; omega)

/-- The first word of a block is the timestamp of its first point. -/
theorem tscStartTime_points (p : TscHeader) (point : Point) (back : List Point)
    (holds : BlockHolds p (point :: back)) : tscStartTime p.data = point.1 := by
  obtain ⟨stored, room, _⟩ := @BlockHolds.stored_word p [] back point holds
  have bits : (coderOf []).word point = fieldBits 64 point.1 ++
      codeDouble (coderOf []).window ((coderOf []).y ^^^ point.2) := rfl
  rw [bits, bitsAt_append] at stored
  rw [bits, List.length_append, fieldBits_length] at room
  have present : 0 < p.data.words.length := by omega
  apply BitVec.eq_of_getLsbD_eq
  intro position inside
  have same := bitAt_of_fieldBits stored.1 position inside
  rw [← same, bitAt, tscStartTime]
  simp only [coderOf_nil, Coder.start, List.length_nil, Nat.zero_add]
  rw [Nat.div_eq_of_lt inside, Nat.mod_eq_of_lt inside]

/-- A sequence of `tsc_add` calls, with the code that each call returns. -/
def tscAddAll : List Point → EStateM Failure TscHeader (List (Point × Option Err))
  | [] => pure []
  | point :: rest => do
      let code ← resultCode (tscAdd point.1 point.2)
      let results ← tscAddAll rest
      pure ((point, code) :: results)

/-- The points for which the call returned `ERR_OK`. -/
def accepted (results : List (Point × Option Err)) : List Point :=
  (results.filter fun result => result.2.isNone).map Prod.fst

@[simp] theorem accepted_nil : accepted [] = [] := rfl

@[simp] theorem accepted_ok (point : Point) (rest : List (Point × Option Err)) :
    accepted ((point, none) :: rest) = point :: accepted rest := rfl

@[simp] theorem accepted_code (point : Point) (err : Err) (rest : List (Point × Option Err)) :
    accepted ((point, some err) :: rest) = accepted rest := rfl

/-- One call returns the code of `admission` and keeps or extends the points of the block. -/
theorem tscAdd_code (p : TscHeader) (points : List Point) (holds : BlockHolds p points)
    (point : Point) :
    ∃ after, resultCode (tscAdd point.1 point.2) p = .ok (admission p.dataLen points point) after ∧
      BlockHolds after (points ++ accepted [(point, admission p.dataLen points point)]) ∧
      after.dataLen = p.dataLen := by
  have step := tscAdd_run p points holds point
  cases verdict : admission p.dataLen points point with
  | none =>
      rw [verdict] at step
      obtain ⟨after, run, stored, kept⟩ := step
      exact ⟨after, resultCode_ok run, by simpa using stored, kept⟩
  | some err =>
      rw [verdict] at step
      obtain ⟨after, run, stored, kept⟩ := step
      exact ⟨after, resultCode_code run, by simpa using stored, kept⟩

/-- A run of calls leaves the old points and the accepted points in the block. -/
theorem tscAddAll_holds (calls : List Point) :
    ∀ (p : TscHeader) (points : List Point), BlockHolds p points →
      ∃ results after, tscAddAll calls p = .ok results after ∧ results.map Prod.fst = calls ∧
        BlockHolds after (points ++ accepted results) := by
  induction calls with
  | nil =>
      intro p points holds
      exact ⟨[], p, rfl, rfl, by simpa using holds⟩
  | cons point rest ih =>
      intro p points holds
      obtain ⟨middle, run, stored, _⟩ := tscAdd_code p points holds point
      obtain ⟨results, after, runs, same, whole⟩ := ih middle _ stored
      refine ⟨(point, admission p.dataLen points point) :: results, after, ?_, ?_, ?_⟩
      · rw [tscAddAll, EStateM.bind_ok run, EStateM.bind_ok runs, EStateM.pure_apply]
      · rw [List.map_cons, same]
      · rw [List.append_assoc] at whole
        cases verdict : admission p.dataLen points point <;> simpa [verdict] using whole

/-- For every block size and every sequence of calls the iterator returns exactly the accepted
points and then stops. The count and the start time in the block are theirs. -/
theorem tscIterRun_accepted (n : Nat) (memory : List UInt8) (calls : List Point) (p : TscHeader)
    (large : 4 < n) (enough : n ≤ memory.length) (opened : tscInit n memory = .ok p) :
    ∃ results after, tscAddAll calls p = .ok results after ∧ results.map Prod.fst = calls ∧
      tscIterRun after.data = (accepted results, .code .tscIterDone) ∧
      after.data.numPts = (accepted results).length ∧
      ∀ point, (accepted results).head? = some point → tscStartTime after.data = point.1 := by
  obtain ⟨fresh, _⟩ := tscInit_holds n memory p large enough opened
  obtain ⟨results, after, run, same, holds⟩ := tscAddAll_holds calls p [] fresh
  rw [List.nil_append] at holds
  refine ⟨results, after, run, same, tscIterRun_points after _ holds, holds.numPts, ?_⟩
  intro point first
  obtain ⟨back, split⟩ := List.head?_eq_some_iff.mp first
  rw [split] at holds
  exact tscStartTime_points after point back holds

/-- A block of 64 bytes in used memory, with a late point between two good ones. -/
theorem tscIterRun_accepted_small :
    ∃ p results after, tscInit 64 (List.replicate 64 7) = .ok p ∧
      tscAddAll [(5#64, 1#64), (5#64, 2#64), (6#64, 3#64)] p = .ok results after ∧
      tscIterRun after.data = (accepted results, .code .tscIterDone) := by
  obtain ⟨p, opened⟩ : ∃ p, tscInit 64 (List.replicate 64 7) = .ok p := ⟨_, rfl⟩
  obtain ⟨results, after, run, _, points, _⟩ := tscIterRun_accepted 64 (List.replicate 64 7)
    [(5#64, 1#64), (5#64, 2#64), (6#64, 3#64)] p (by decide) (by decide) opened
  exact ⟨p, results, after, opened, run, points⟩

end Menoetius
