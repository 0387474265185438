import Menoetius.TscRoundTrip

/-
This file compares the space check of `tsc_add` with the space that a point needs, and follows blocks
through calls that are refused.
-/

namespace Menoetius
open BitField

/-- The value that is encoded for the next timestamp fits 32 bits, as a mathematical integer. -/
def EncodedInRange (points : List Point) (t : Word) : Prop :=
  match points.reverse with
  | [] => True
  | [last] => last.1.toInt < t.toInt ∧ -2 ^ 31 ≤ t.toInt - last.1.toInt ∧ t.toInt - last.1.toInt < 2 ^ 31
  | last :: before :: _ =>
      last.1.toInt < t.toInt ∧ -2 ^ 31 ≤ (t.toInt - last.1.toInt) - (last.1.toInt - before.1.toInt) ∧
        (t.toInt - last.1.toInt) - (last.1.toInt - before.1.toInt) < 2 ^ 31

/-- A word whose integer value is known fits as the integer does. -/
theorem signedFits_of_toInt {value : Word} {number : Int} (same : value = BitVec.ofInt 64 number)
    (lower : -2 ^ 31 ≤ number) (upper : number < 2 ^ 31) : SignedFits 32 value := by
  have exact : value.toInt = number := by
    rw [same, BitVec.toInt_ofInt]
    exact Int.bmod_eq_of_le (by omega) (by omega)
  exact ⟨by rw [exact]; exact lower, by rw [exact]; exact upper⟩

theorem ofInt_sub (a b : Int) : BitVec.ofInt 64 (a - b) = BitVec.ofInt 64 a - BitVec.ofInt 64 b := by
  rw [Int.sub_eq_add_neg, BitVec.ofInt_add, BitVec.ofInt_neg, BitVec.sub_eq_add_neg]

theorem ofInt_toInt_sub (a b : Word) : a - b = BitVec.ofInt 64 (a.toInt - b.toInt) := by
  rw [ofInt_sub, BitVec.ofInt_toInt, BitVec.ofInt_toInt]

/-- Timestamps in range pass the checks of `tsc_add`. -/
theorem EncodedInRange.checks {points : List Point} {t : Word} (range : EncodedInRange points t) :
    points ≠ [] → (coderOf points).t.toInt < t.toInt ∧ SignedFits 32 ((coderOf points).diff t) := by
  intro some
  rcases List.eq_nil_or_concat points with rfl | ⟨front, last, rfl⟩
  · exact absurd rfl some
  rw [List.concat_eq_append] at range ⊢
  rcases List.eq_nil_or_concat front with rfl | ⟨front, before, rfl⟩
  · obtain ⟨later, lower, upper⟩ := range
    refine ⟨later, signedFits_of_toInt ?_ lower upper⟩
    change t - last.1 - 0#64 = _
    rw [BitVec.sub_zero, ofInt_toInt_sub]
  · rw [List.concat_eq_append] at range ⊢
    rw [EncodedInRange, List.reverse_append, List.reverse_append] at range
    obtain ⟨later, lower, upper⟩ := range
    refine ⟨by rw [coderOf_concat]; exact later, signedFits_of_toInt ?_ lower upper⟩
    have count : (coderOf (front ++ [before])).count ≠ 0 := by
      rw [coderOf_count, List.length_append]
      exact Nat.succ_ne_zero _
    rw [coderOf_concat, Coder.diff, Coder.push, if_neg count, coderOf_concat]
    change t - last.1 - (last.1 - before.1) = _
    rw [ofInt_sub, ← ofInt_toInt_sub, ← ofInt_toInt_sub]

/-- The fields of two headers agree. Only bits behind the valid ones can differ. -/
structure SameHeader (p q : TscHeader) : Prop where
  lastTimestamp : q.lastTimestamp = p.lastTimestamp
  lastTimestampDelta : q.lastTimestampDelta = p.lastTimestampDelta
  prevValue : q.prevValue = p.prevValue
  numValidBits : q.numValidBits = p.numValidBits
  lastLeading : q.lastLeading = p.lastLeading
  lastSigbits : q.lastSigbits = p.lastSigbits
  dataLen : q.dataLen = p.dataLen
  numPts : q.data.numPts = p.data.numPts
  decoded : tscIterRun q.data = tscIterRun p.data

theorem BlockHolds.sameHeader {p q : TscHeader} {points : List Point} (first : BlockHolds p points)
    (second : BlockHolds q points) (dataLen : q.dataLen = p.dataLen) : SameHeader p q where
  lastTimestamp := second.lastTimestamp.trans first.lastTimestamp.symm
  lastTimestampDelta := second.lastTimestampDelta.trans first.lastTimestampDelta.symm
  prevValue := second.prevValue.trans first.prevValue.symm
  numValidBits := second.numValidBits.trans first.numValidBits.symm
  lastLeading := second.lastLeading.trans first.lastLeading.symm
  lastSigbits := second.lastSigbits.trans first.lastSigbits.symm
  dataLen := dataLen
  numPts := second.numPts.trans first.numPts.symm
  decoded := by rw [tscIterRun_points q points second, tscIterRun_points p points first]

/-- Two blocks with the same points answer the same calls alike. -/
theorem tscAddAll_same (calls : List Point) :
    ∀ {p q : TscHeader} {points : List Point}, BlockHolds p points → BlockHolds q points → q.dataLen = p.dataLen →
      ∃ results first second, tscAddAll calls p = .ok results first ∧ tscAddAll calls q = .ok results second ∧
        SameHeader first second := by
  induction calls with
  | nil =>
      intro p q points first second dataLen
      exact ⟨[], p, q, rfl, rfl, first.sameHeader second dataLen⟩
  | cons point rest ih =>
      intro p q points first second dataLen
      obtain ⟨p', run, held, kept⟩ := tscAdd_code p points first point
      obtain ⟨q', run', held', kept'⟩ := tscAdd_code q points second point
      rw [dataLen] at run' held'
      obtain ⟨results, last, last', runs, runs', same⟩ := ih held held' (kept'.trans (dataLen.trans kept.symm))
      refine ⟨(point, admission p.dataLen points point) :: results, last, last', ?_, ?_, same⟩
      · rw [tscAddAll, EStateM.bind_ok run, EStateM.bind_ok runs, EStateM.pure_apply]
      · rw [tscAddAll, EStateM.bind_ok run', EStateM.bind_ok runs', EStateM.pure_apply]

/-- What a run of calls reaches. -/
theorem tscAddAll_reaches {calls : List Point} :
    ∀ {p middle : TscHeader} {points : List Point} {results : List (Point × Option Err)}, BlockHolds p points →
      tscAddAll calls p = .ok results middle →
        BlockHolds middle (points ++ accepted results) ∧ middle.dataLen = p.dataLen := by
  induction calls with
  | nil =>
      intro p middle points results holds run
      cases run
      exact ⟨by simpa using holds, rfl⟩
  | cons point rest ih =>
      intro p middle points results holds run
      obtain ⟨next, first, held, kept⟩ := tscAdd_code p points holds point
      rw [tscAddAll, EStateM.bind_ok first] at run
      obtain ⟨later, last, run, done⟩ := EStateM.of_bind_ok run
      cases done
      obtain ⟨whole, same⟩ := ih held run
      refine ⟨?_, same.trans kept⟩
      rw [List.append_assoc] at whole
      cases verdict : admission p.dataLen points point <;> simpa [verdict] using whole

/-- A refused point leaves the header and the points as they were, and all later calls too. -/
theorem tscAdd_rejected (n : Nat) (memory : List UInt8) (calls : List Point) (p middle after : TscHeader)
    (results : List (Point × Option Err)) (t y : Word) (err : Err) (large : 28 ≤ n) (enough : n ≤ memory.length)
    (opened : tscInit n memory = .ok p) (run : tscAddAll calls p = .ok results middle)
    (rejected : tscAdd t y middle = .error (.code err) after) :
    SameHeader middle after ∧
      ∀ later, ∃ codes first second, tscAddAll later middle = .ok codes first ∧
        tscAddAll later after = .ok codes second ∧ SameHeader first second := by
  obtain ⟨fresh, _⟩ := tscInit_holds n memory p (by omega) enough opened
  obtain ⟨holds, _⟩ := tscAddAll_reaches fresh run
  rw [List.nil_append] at holds
  have step := tscAdd_run middle (accepted results) holds (t, y)
  cases verdict : admission middle.dataLen (accepted results) (t, y) with
  | none =>
      rw [verdict] at step
      obtain ⟨other, taken, _⟩ := step
      rw [rejected] at taken
      cases taken
  | some code =>
      rw [verdict] at step
      obtain ⟨other, refused, held, kept⟩ := step
      rw [rejected] at refused
      cases refused
      exact ⟨holds.sameHeader held kept, fun later => tscAddAll_same later holds held kept⟩

/-- A block of 64 bytes in used memory. -/
def smallTsc : TscHeader where
  lastTimestamp := 0#64
  lastTimestampDelta := 0#64
  prevValue := 0#64
  numValidBits := 0
  lastLeading := 0
  lastSigbits := 0
  data := { TscData.ofBytes 64 (List.replicate 64 7) with numPts := 0 }
  dataLen := 64

/-- A late point leaves no trace. -/
theorem tscAdd_rejected_late :
    ∃ results middle after, tscInit 64 (List.replicate 64 7) = .ok smallTsc ∧
      tscAddAll [(5#64, 1#64)] smallTsc = .ok results middle ∧
      tscAdd 5#64 2#64 middle = .error (.code .outOfOrderTimestamp) after ∧ SameHeader middle after := by
  have opened : tscInit 64 (List.replicate 64 7) = .ok smallTsc := rfl
  have fails : ((tscAddAll [(5#64, 1#64)] >>= fun _ => tscAdd 5#64 2#64) smallTsc).failsWith
      (.code .outOfOrderTimestamp) = true := by
    decide +kernel
  obtain ⟨after, run⟩ := EStateM.Result.of_failsWith fails
  obtain ⟨fresh, _⟩ := tscInit_holds 64 (List.replicate 64 7) smallTsc (by decide) (by decide) opened
  obtain ⟨results, middle, first, _⟩ := tscAddAll_holds [(5#64, 1#64)] smallTsc [] fresh
  rw [EStateM.bind_ok first] at run
  exact ⟨results, middle, after, opened, first, run,
    (tscAdd_rejected 64 (List.replicate 64 7) [(5#64, 1#64)] smallTsc middle after results 5#64 2#64 _ (by decide)
      (by decide) opened first run).1⟩

/-- The call takes the point or reports that the block is full. -/
def SpaceEnough (p : TscHeader) : Prop :=
  ∀ calls results middle, tscAddAll calls p = .ok results middle →
    middle.numValidBits ≤ (p.dataLen - 4) * 8 ∧
      ∀ t y, EncodedInRange (accepted results) t →
        (∃ after, tscAdd t y middle = .ok () after) ∨
          ∃ after, tscAdd t y middle = .error (.code .tscOutOfSpace) after

/-- The words of a point take at most 141 bits in an empty block, and 113 bits behind other points. -/
theorem Coder.word_length_le (points : List Point) (point : Point) :
    ((coderOf points).word point).length ≤ if points = [] then 141 else 113 := by
  have value := codeDouble_length_le _ (coderOf_window points) ((coderOf points).y ^^^ point.2)
  have time := codeInt_length_le ((coderOf points).diff point.1)
  rw [Coder.word, List.length_append, coderOf_count]
  by_cases empty : points = []
  · rw [if_pos empty, if_pos (by rw [empty]; rfl), fieldBits_length]
    omega
  · rw [if_neg empty, if_neg (fun zero => empty (List.length_eq_zero_iff.mp zero))]
    omega

/-- With at least half a word behind the last whole word unused, the check counts bits that cannot be written. -/
theorem admission_room {dataLen : Nat} {points : List Point} {point : Point} (large : 28 ≤ dataLen) (aligned : 4 ≤ dataLen % 8)
    (space : ¬ (dataLen - 4) * 8 - (coderOf points).bits.length < 18 * 8) :
    wordsEnd ((coderOf points).push point).bits.length ≤ (dataLen - 4) * 8 := by
  have word := Coder.word_length_le points point
  rw [Coder.push, List.length_append]
  unfold wordsEnd
  by_cases empty : points = []
  · rw [if_pos empty] at word
    have none : (coderOf points).bits.length = 0 := by rw [empty]; rfl
    omega
  · rw [if_neg empty] at word
    omega

/-- Points at equal distances, with equal values. -/
def steadyPoint (index : Nat) : Point := (BitVec.ofNat 64 (1 + 64 * index), 0#64)

def steady (count : Nat) : List Point := (List.range count).map steadyPoint

theorem steady_succ (count : Nat) : steady (count + 1) = steady count ++ [steadyPoint count] := by
  rw [steady, List.range_succ, List.map_append]
  rfl

theorem steadyPoint_sub (index : Nat) : (steadyPoint (index + 1)).1 - (steadyPoint index).1 = 64#64 := by
  have split : (steadyPoint (index + 1)).1 = (steadyPoint index).1 + 64#64 := by
    simp only [steadyPoint]
    rw [show 1 + 64 * (index + 1) = (1 + 64 * index) + 64 by omega, BitVec.ofNat_add]
  rw [split, BitVec.add_comm, BitVec.add_sub_cancel]

/-- Each further point takes two bits. -/
theorem steady_coder (count : Nat) :
    (coderOf (steady (count + 2))).t = (steadyPoint (count + 1)).1 ∧ (coderOf (steady (count + 2))).delta = 64#64 ∧
      (coderOf (steady (count + 2))).y = 0#64 ∧ (coderOf (steady (count + 2))).window = ⟨0, 0⟩ ∧
      (coderOf (steady (count + 2))).bits.length = 78 + 2 * count := by
  induction count with
  | zero => exact ⟨by decide, by decide, by decide, by decide, by decide⟩
  | succ count ih =>
      obtain ⟨t, delta, y, window, bits⟩ := ih
      have diff : (coderOf (steady (count + 2))).diff (steadyPoint (count + 2)).1 = 0#64 := by
        rw [Coder.diff, t, delta, steadyPoint_sub, BitVec.sub_self]
      have some : (coderOf (steady (count + 2))).count ≠ 0 := by
        rw [coderOf_count, steady, List.length_map, List.length_range]
        omega
      have word : ((coderOf (steady (count + 2))).word (steadyPoint (count + 2))).length = 2 := by
        rw [Coder.word, if_neg some, diff, y, window]
        change (codeInt 0#64 ++ codeDouble ⟨0, 0⟩ (0#64 ^^^ 0#64)).length = 2
        decide
      rw [steady_succ, coderOf_concat]
      refine ⟨rfl, ?_, rfl, ?_, ?_⟩
      · rw [Coder.push, if_neg some, t]
        exact steadyPoint_sub (count + 1)
      · have zero : (0#64 : Word) ^^^ (steadyPoint (count + 2)).2 = 0#64 := by
          change 0#64 ^^^ 0#64 = 0#64
          decide
        simp only [Coder.push, window, y, zero]
        decide
      · rw [Coder.push, List.length_append, word, bits]
        omega

theorem steadyPoint_toInt {index : Nat} (small : 1 + 64 * index < 2 ^ 63) :
    (steadyPoint index).1.toInt = 1 + 64 * index := by
  rw [steadyPoint, BitVec.toInt_eq_toNat_cond, BitVec.toNat_ofNat, Nat.mod_eq_of_lt (by omega), if_pos (by omega)]
  push_cast
  rfl

theorem admission_none {dataLen : Nat} {points : List Point} {point : Point}
    (space : 18 * 8 ≤ (dataLen - 4) * 8 - (coderOf points).bits.length)
    (checks : points ≠ [] → (coderOf points).t.toInt < point.1.toInt ∧ SignedFits 32 ((coderOf points).diff point.1))
    (enough : wordsEnd ((coderOf points).push point).bits.length ≤ (dataLen - 4) * 8) :
    admission dataLen points point = none := by
  unfold admission
  rw [if_neg (not_lt.mpr space), if_neg (fun late => absurd (checks late.1).1 (not_lt.mpr late.2)),
    if_neg (fun bad => bad.2 (checks bad.1).2), if_neg (not_lt.mpr enough)]

/-- An equally spaced point is taken while there is room. -/
theorem steady_admission {dataLen count : Nat} (bounded : dataLen * 8 ≤ maxNumValidBits)
    (room : 64 * ((dataLen - 4) / 8) = 190 + 2 * count) (rest : 4 ≤ (dataLen - 4) % 8) {taken : Nat}
    (few : taken ≤ count + 1) : admission dataLen (steady taken) (steadyPoint taken) = none := by
  unfold maxNumValidBits at bounded
  have later : ∀ index ≤ count + 1, (steadyPoint index).1.toInt < (steadyPoint (index + 1)).1.toInt := by
    intro index small
    rw [steadyPoint_toInt (by omega), steadyPoint_toInt (by omega)]
    push_cast
    omega
  have enough : ∀ bits ≤ 78 + 2 * count, wordsEnd bits ≤ (dataLen - 4) * 8 := by
    intro bits short
    unfold wordsEnd
    omega
  match taken, few with
  | 0, _ =>
      have none : (coderOf (steady 0)).bits.length = 0 := rfl
      refine admission_none (by rw [none]; omega) (fun some => absurd rfl some) (enough _ ?_)
      rw [show ((coderOf (steady 0)).push (steadyPoint 0)).bits.length = 65 by decide]
      omega
  | 1, few =>
      have bits : (coderOf (steady 1)).bits.length = 65 := by decide
      refine admission_none (by rw [bits]; omega) (fun _ => ⟨by decide, by decide⟩) (enough _ ?_)
      rw [show ((coderOf (steady 1)).push (steadyPoint 1)).bits.length = 78 by decide]
      omega
  | index + 2, few =>
      obtain ⟨t, delta, _, _, bits⟩ := steady_coder index
      have diff : (coderOf (steady (index + 2))).diff (steadyPoint (index + 2)).1 = 0#64 := by
        rw [Coder.diff, t, delta, steadyPoint_sub, BitVec.sub_self]
      have next := (steady_coder (index + 1)).2.2.2.2
      rw [steady_succ, coderOf_concat] at next
      refine admission_none (by rw [bits]; omega) (fun _ => ⟨?_, by rw [diff]; decide⟩) (enough _ (by rw [next]; omega))
      rw [t]
      exact later (index + 1) (by omega)

theorem tscAddAll_concat {calls : List Point} {point : Point} {code : Option Err} {after : TscHeader} :
    ∀ {p middle : TscHeader} {results : List (Point × Option Err)}, tscAddAll calls p = .ok results middle →
      resultCode (tscAdd point.1 point.2) middle = .ok code after →
        tscAddAll (calls ++ [point]) p = .ok (results ++ [(point, code)]) after := by
  induction calls with
  | nil =>
      intro p middle results run last
      cases run
      exact EStateM.bind_ok last _
  | cons first rest ih =>
      intro p middle results run last
      obtain ⟨head, between, start, run⟩ := EStateM.of_bind_ok run
      obtain ⟨tail, final, run, done⟩ := EStateM.of_bind_ok run
      cases done
      rw [List.cons_append, tscAddAll, EStateM.bind_ok start, EStateM.bind_ok (ih run last)]
      rfl

/-- The calls for equally spaced points succeed while there is room. -/
theorem steady_run {p : TscHeader} (fresh : BlockHolds p []) {count : Nat}
    (room : 64 * ((p.dataLen - 4) / 8) = 190 + 2 * count) (rest : 4 ≤ (p.dataLen - 4) % 8) :
    ∀ {taken : Nat}, taken ≤ count + 2 → ∃ results middle, tscAddAll (steady taken) p = .ok results middle ∧
      accepted results = steady taken ∧ BlockHolds middle (steady taken) ∧ middle.dataLen = p.dataLen := by
  intro taken
  induction taken with
  | zero => exact fun _ => ⟨[], p, rfl, rfl, fresh, rfl⟩
  | succ taken ih =>
      intro few
      obtain ⟨results, middle, run, same, holds, kept⟩ := ih (by omega)
      have admits : admission middle.dataLen (steady taken) (steadyPoint taken) = none := by
        rw [kept]
        exact steady_admission fresh.bounded room rest (by omega)
      obtain ⟨after, last, stored, final⟩ := tscAdd_code middle (steady taken) holds (steadyPoint taken)
      rw [admits] at last stored
      rw [steady_succ]
      refine ⟨_, after, tscAddAll_concat run last, ?_, stored, final.trans kept⟩
      rw [accepted, List.filter_append, List.map_append, ← accepted, same]
      rfl

/-- The point that does not fit, although the check has passed. -/
def widePoint (count : Nat) : Point := ((steadyPoint (count + 1)).1 + 4160#64, 0x8000000000000001#64)

theorem widePoint_inRange {count : Nat} (small : 1 + 64 * (count + 1) + 4160 < 2 ^ 63) :
    EncodedInRange (steady (count + 2)) (widePoint count).1 := by
  have last : (steadyPoint (count + 1)).1.toInt = 1 + 64 * (count + 1) := by
    rw [steadyPoint_toInt (by omega)]
    push_cast
    rfl
  have before : (steadyPoint count).1.toInt = 1 + 64 * count := steadyPoint_toInt (by omega)
  have wide : (widePoint count).1.toInt = 1 + 64 * (count + 1) + 4160 := by
    rw [widePoint, BitVec.toInt_add, last]
    exact Int.bmod_eq_of_le (by simp only [BitVec.reduceToInt]; omega) (by simp only [BitVec.reduceToInt]; omega)
  rw [EncodedInRange, steady_succ, steady_succ, List.reverse_append, List.reverse_append]
  change (steadyPoint (count + 1)).1.toInt < (widePoint count).1.toInt ∧
    -2 ^ 31 ≤ (widePoint count).1.toInt - (steadyPoint (count + 1)).1.toInt -
      ((steadyPoint (count + 1)).1.toInt - (steadyPoint count).1.toInt) ∧
    (widePoint count).1.toInt - (steadyPoint (count + 1)).1.toInt -
      ((steadyPoint (count + 1)).1.toInt - (steadyPoint count).1.toInt) < 2 ^ 31
  rw [last, before, wide]
  omega

/-- The check passes, but the last word of the point is not whole. -/
theorem widePoint_admission {dataLen count : Nat} (room : 64 * ((dataLen - 4) / 8) = 190 + 2 * count)
    (rest : 4 ≤ (dataLen - 4) % 8) (small : 1 + 64 * (count + 1) + 4160 < 2 ^ 63) :
    admission dataLen (steady (count + 2)) (widePoint count) = some .bitstreamOutOfSpace := by
  obtain ⟨t, delta, y, window, bits⟩ := steady_coder count
  obtain ⟨newer, fits⟩ := (widePoint_inRange small).checks (by
    rw [steady_succ]
    exact List.append_ne_nil_of_right_ne_nil _ (List.cons_ne_nil _ _))
  have diff : (coderOf (steady (count + 2))).diff (widePoint count).1 = 4096#64 := by
    rw [Coder.diff, t, delta, widePoint, BitVec.add_comm, BitVec.add_sub_cancel]
    decide
  have some : (coderOf (steady (count + 2))).count ≠ 0 := by
    rw [coderOf_count, steady, List.length_map, List.length_range]
    omega
  have word : ((coderOf (steady (count + 2))).word (widePoint count)).length = 113 := by
    rw [Coder.word, if_neg some, diff, y, window]
    change (codeInt 4096#64 ++ codeDouble ⟨0, 0⟩ (0#64 ^^^ 0x8000000000000001#64)).length = 113
    decide
  have full : (dataLen - 4) * 8 < wordsEnd ((coderOf (steady (count + 2))).push (widePoint count)).bits.length := by
    rw [Coder.push, List.length_append, bits, word]
    unfold wordsEnd
    omega
  unfold admission
  rw [if_neg (by rw [bits]; omega), if_neg (fun late => absurd newer (not_lt.mpr late.2)),
    if_neg (fun bad => bad.2 fits), if_pos full]

/-- A buffer that ends at least half a word behind a whole word has a point that passes the check and does not fit. -/
theorem not_spaceEnough {p : TscHeader} (fresh : BlockHolds p []) (large : 28 ≤ p.dataLen) (short : p.dataLen % 8 < 4) :
    ¬ SpaceEnough p := by
  intro sufficient
  have bounded := fresh.bounded
  unfold maxNumValidBits at bounded
  obtain ⟨count, room⟩ : ∃ count, 64 * ((p.dataLen - 4) / 8) = 190 + 2 * count := by
    refine ⟨32 * ((p.dataLen - 4) / 8) - 95, ?_⟩
    omega
  have rest : 4 ≤ (p.dataLen - 4) % 8 := by omega
  have small : 1 + 64 * (count + 1) + 4160 < 2 ^ 63 := by omega
  obtain ⟨results, middle, run, same, holds, kept⟩ := steady_run fresh room rest le_rfl
  have range : EncodedInRange (accepted results) (widePoint count).1 := by
    rw [same]
    exact widePoint_inRange small
  have step := tscAdd_run middle _ holds (widePoint count)
  rw [kept, widePoint_admission room rest small] at step
  obtain ⟨after, refused, _⟩ := step
  rcases (sufficient _ _ _ run).2 _ (widePoint count).2 range with ⟨other, taken⟩ | ⟨other, full⟩
  · rw [refused] at taken
    cases taken
  · rw [refused] at full
    cases full

/-- The space check is enough exactly for the buffers that end less than half a word behind a whole word. -/
theorem tscAdd_spaceEnough_iff (n : Nat) (memory : List UInt8) (p : TscHeader) (large : 28 ≤ n)
    (enough : n ≤ memory.length) (opened : tscInit n memory = .ok p) : SpaceEnough p ↔ 4 ≤ n % 8 := by
  obtain ⟨fresh, length⟩ := tscInit_holds n memory p (by omega) enough opened
  constructor
  · intro sufficient
    by_contra few
    exact not_spaceEnough fresh (by omega) (by omega) sufficient
  · intro aligned calls results middle run
    obtain ⟨holds, kept⟩ := tscAddAll_reaches fresh run
    rw [List.nil_append] at holds
    refine ⟨?_, fun t y range => ?_⟩
    · rw [holds.numValidBits, ← kept]
      exact (le_wordsEnd _).trans holds.fits
    · have step := tscAdd_run middle _ holds (t, y)
      by_cases full : (middle.dataLen - 4) * 8 - (coderOf (accepted results)).bits.length < 18 * 8
      · have verdict : admission middle.dataLen (accepted results) (t, y) = some .tscOutOfSpace := if_pos full
        rw [verdict] at step
        obtain ⟨after, refused, _⟩ := step
        exact .inr ⟨after, refused⟩
      · have verdict : admission middle.dataLen (accepted results) (t, y) = none :=
          admission_none (not_lt.mp full) range.checks (admission_room (by omega) (by omega) full)
        rw [verdict] at step
        obtain ⟨after, taken, _⟩ := step
        exact .inl ⟨after, taken⟩

/-- A block of 28 bytes. -/
theorem tscAdd_spaceEnough_iff_small :
    ∃ p, tscInit 28 (List.replicate 28 7) = .ok p ∧ SpaceEnough p := by
  obtain ⟨p, opened⟩ : ∃ p, tscInit 28 (List.replicate 28 7) = .ok p := ⟨_, rfl⟩
  exact ⟨p, opened, (tscAdd_spaceEnough_iff 28 (List.replicate 28 7) p (by decide) (by decide) opened).mpr (by decide)⟩

/-- A block of the server's default size. -/
theorem tscAdd_defaultSize :
    ∃ p, tscInit 1016 (List.replicate 1016 0) = .ok p ∧ ¬ SpaceEnough p := by
  obtain ⟨p, opened⟩ : ∃ p, tscInit 1016 (List.replicate 1016 0) = .ok p := ⟨_, rfl⟩
  obtain ⟨fresh, length⟩ := tscInit_holds 1016 (List.replicate 1016 0) p (by decide)
    (by rw [List.length_replicate]) opened
  exact ⟨p, opened, not_spaceEnough fresh (by omega) (by omega)⟩

end Menoetius
