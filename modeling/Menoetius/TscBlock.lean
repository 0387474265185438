import Menoetius.TscFields

/-
This file relates a block header to the list of points that the block holds.
-/

namespace Menoetius
open BitField

/-- The state of the code after a list of points. -/
structure Coder where
  count : Nat
  bits : List Bool
  t : Word
  delta : Word
  y : Word
  window : SigWindow

def Coder.start : Coder := ⟨0, [], 0#64, 0#64, 0#64, ⟨0, 0⟩⟩

/-- The difference of differences that the next timestamp is stored as. -/
def Coder.diff (coder : Coder) (t : Word) : Word := t - coder.t - coder.delta

/-- The bits of the next point. The first point stores its whole timestamp. -/
def Coder.word (coder : Coder) (point : Point) : List Bool :=
  (if coder.count = 0 then fieldBits 64 point.1 else codeInt (coder.diff point.1)) ++
    codeDouble coder.window (coder.y ^^^ point.2)

def Coder.push (coder : Coder) (point : Point) : Coder where
  count := coder.count + 1
  bits := coder.bits ++ coder.word point
  t := point.1
  delta := if coder.count = 0 then coder.delta else point.1 - coder.t
  y := point.2
  window := nextWindow coder.window (coder.y ^^^ point.2)

def coderOf (points : List Point) : Coder := points.foldl Coder.push Coder.start

@[simp] theorem coderOf_nil : coderOf [] = Coder.start := rfl

@[simp] theorem coderOf_concat (points : List Point) (point : Point) :
    coderOf (points ++ [point]) = (coderOf points).push point := by
  simp [coderOf]

@[simp] theorem coderOf_count (points : List Point) : (coderOf points).count = points.length := by
  induction points using List.reverseRecOn with
  | nil => rfl
  | append_singleton points point ih => simp [Coder.push, ih]

theorem coderOf_window (points : List Point) : (coderOf points).window.Valid := by
  induction points using List.reverseRecOn with
  | nil => exact ⟨by decide, by decide⟩
  | append_singleton points point ih =>
      rw [coderOf_concat]
      exact nextWindow_valid _ ih _

theorem Coder.word_length (coder : Coder) (point : Point) : 2 ≤ (coder.word point).length := by
  have value := codeDouble_length_pos coder.window (coder.y ^^^ point.2)
  have time := codeInt_length_pos (coder.diff point.1)
  unfold Coder.word
  split
  · rw [List.length_append, fieldBits_length]
    omega
  · rw [List.length_append]
    omega

/-- Every point takes at least two bits. -/
theorem coderOf_bits_length (points : List Point) :
    2 * points.length ≤ (coderOf points).bits.length := by
  induction points using List.reverseRecOn with
  | nil => simp
  | append_singleton points point ih =>
      have word := (coderOf points).word_length point
      simp only [coderOf_concat, Coder.push, List.length_append, List.length_singleton]
      omega

/-- Later points only extend the bit string. -/
theorem coderOf_bits_append (points more : List Point) :
    ∃ rest, (coderOf (points ++ more)).bits = (coderOf points).bits ++ rest := by
  induction more using List.reverseRecOn with
  | nil => exact ⟨[], by simp⟩
  | append_singleton more point ih =>
      obtain ⟨rest, bits⟩ := ih
      refine ⟨rest ++ (coderOf (points ++ more)).word point, ?_⟩
      rw [← List.append_assoc, coderOf_concat, Coder.push, bits, List.append_assoc]

/-- Every stored difference fits its 32-bit field. -/
def Codable (points : List Point) : Prop :=
  ∀ front point back, points = front ++ point :: back → front ≠ [] →
    SignedFits 32 ((coderOf front).diff point.1)

theorem Codable.nil : Codable [] := by
  intro front point back split
  simp at split

theorem Codable.concat {points : List Point} (codable : Codable points) (point : Point)
    (fits : points ≠ [] → SignedFits 32 ((coderOf points).diff point.1)) :
    Codable (points ++ [point]) := by
  intro front other back split nonempty
  rcases List.eq_nil_or_concat back with rfl | ⟨back, last, rfl⟩
  · obtain ⟨rfl, same⟩ := List.append_inj' split rfl
    obtain rfl : point = other := by simpa using same
    exact fits nonempty
  · rw [List.concat_eq_append, ← List.cons_append, ← List.append_assoc] at split
    obtain ⟨same, _⟩ := List.append_inj' split rfl
    exact codable front other back same nonempty

/-- The result of `tsc_add`, as a function of the points that the block holds. -/
def admission (dataLen : Nat) (points : List Point) (point : Point) : Option Err :=
  let n := (dataLen - 4) * 8
  let coder := coderOf points
  if n - coder.bits.length < 18 * 8 then some .tscOutOfSpace
  else if points ≠ [] ∧ point.1.toInt ≤ coder.t.toInt then some .outOfOrderTimestamp
  else if points ≠ [] ∧ ¬ SignedFits 32 (coder.diff point.1) then some .bitstreamBadValue
  else if n < wordsEnd (coder.push point).bits.length then some .bitstreamOutOfSpace
  else none

/-- The header and the buffer store exactly these points. -/
structure BlockHolds (p : TscHeader) (points : List Point) : Prop where
  large : 4 < p.dataLen
  bounded : p.dataLen * 8 ≤ maxNumValidBits
  words : p.data.words.length = (p.dataLen - 4) / 8
  rest : p.data.rest.length = (p.dataLen - 4) % 8
  numPts : p.data.numPts = points.length
  lastTimestamp : p.lastTimestamp = (coderOf points).t
  lastTimestampDelta : p.lastTimestampDelta = (coderOf points).delta
  prevValue : p.prevValue = (coderOf points).y
  numValidBits : p.numValidBits = (coderOf points).bits.length
  lastLeading : p.lastLeading = (coderOf points).window.leading
  lastSigbits : p.lastSigbits = (coderOf points).window.sigbits
  stored : BitsAt p.data.words 0 (coderOf points).bits
  fits : wordsEnd (coderOf points).bits.length ≤ (p.dataLen - 4) * 8
  codable : Codable points

theorem wordsOfBytes_length (count : Nat) (bytes : List UInt8) :
    (wordsOfBytes count bytes).length = count := by
  induction count generalizing bytes with
  | zero => rfl
  | succ count ih => simp [wordsOfBytes, ih]

/-- A fresh block holds no point. -/
theorem tscInit_holds (n : Nat) (memory : List UInt8) (p : TscHeader) (large : 4 < n)
    (enough : n ≤ memory.length) (opened : tscInit n memory = .ok p) :
    BlockHolds p [] ∧ p.dataLen = n := by
  unfold tscInit at opened
  split at opened
  · simp at opened
  split at opened
  · rename_i small _
    obtain rfl := Except.ok.inj opened
    refine ⟨⟨large, Nat.not_lt.mp small, ?_, ?_, rfl, rfl, rfl, rfl, rfl, rfl, rfl, ?_, ?_, Codable.nil⟩, rfl⟩
    · exact wordsOfBytes_length _ _
    · simp only [TscData.ofBytes, List.length_take, List.length_drop]
      omega
    · exact bitsAt_nil _ _
    · simp [Coder.start, wordsEnd]
  · simp at opened

/-- A cleared block holds no point. -/
theorem tscClear_holds (p : TscHeader) (points : List Point) (holds : BlockHolds p points) :
    BlockHolds (tscClear p) [] where
  large := holds.large
  bounded := holds.bounded
  words := holds.words
  rest := holds.rest
  numPts := rfl
  lastTimestamp := rfl
  lastTimestampDelta := rfl
  prevValue := rfl
  numValidBits := rfl
  lastLeading := rfl
  lastSigbits := rfl
  stored := bitsAt_nil _ _
  fits := by simp [Coder.start, wordsEnd]
  codable := Codable.nil

/-- The header after the bit writers have changed the buffer. -/
def TscHeader.withWords (p : TscHeader) (words : List Word) : TscHeader :=
  { p with data := { p.data with words := words } }

/-- The header that stands for a code state. -/
def TscHeader.ofCoder (p : TscHeader) (words : List Word) (coder : Coder) : TscHeader where
  lastTimestamp := coder.t
  lastTimestampDelta := coder.delta
  prevValue := coder.y
  numValidBits := coder.bits.length
  lastLeading := coder.window.leading
  lastSigbits := coder.window.sigbits
  data := ⟨coder.count, words, p.data.rest⟩
  dataLen := p.dataLen

/-- Junk bits behind the valid length do not change what the block holds. -/
theorem BlockHolds.untouched {p : TscHeader} {points : List Point} (holds : BlockHolds p points)
    {words : List Word} (untouched : Untouched p.data.words words p.numValidBits) :
    BlockHolds (p.withWords words) points :=
  { holds with
    words := untouched.length.trans holds.words
    stored := bitsAt_of_agree holds.stored fun position _ below =>
      untouched.kept position (by rw [holds.numValidBits]; omega) }

theorem onBuf_ok {α : Type} {writer : BufM α} {p : TscHeader} {value : α} {words : List Word}
    (done : writer p.data.words = .ok value words) :
    onBuf writer p = .ok value (p.withWords words) := by
  simp only [onBuf, done, TscHeader.withWords]

theorem onBuf_error {α : Type} {writer : BufM α} {p : TscHeader} {failure : Failure}
    {words : List Word} (failed : writer p.data.words = .error failure words) :
    onBuf writer p = .error failure (p.withWords words) := by
  simp only [onBuf, failed, TscHeader.withWords]

theorem onBuf_bind {α β : Type} (first : BufM α) (next : α → BufM β) :
    onBuf (first >>= next) = onBuf first >>= fun value => onBuf (next value) := by
  funext p
  simp only [onBuf, EStateM.bind_apply]
  cases first p.data.words <;> rfl

/-- The common end of the three successful branches of `tsc_add`. -/
def storePoint (n : Nat) (timeWriter : BufM Nat) (x : Word) (lastLeading lastSigbits : Nat)
    (t delta y : Word) (numPts : Nat) : EStateM Failure TscHeader Unit := do
  let bitIndex ← onBuf timeWriter
  let (bitIndex, lastLeading, lastSigbits) ←
    onBuf (tscWriteDouble n bitIndex x lastLeading lastSigbits)
  tscCommit bitIndex lastLeading lastSigbits t delta y numPts

/-- A point whose timestamp is writable is stored whole, or leaves only junk bits behind. -/
theorem storePoint_run (p : TscHeader) (points : List Point) (holds : BlockHolds p points)
    (point : Point) (timeWriter : BufM Nat) (timeBits : List Bool) (delta : Word)
    (time : Writes timeWriter ((p.dataLen - 4) * 8) p.numValidBits timeBits
      (p.numValidBits + timeBits.length))
    (word : (coderOf points).word point =
      timeBits ++ codeDouble (coderOf points).window ((coderOf points).y ^^^ point.2))
    (stepped : ((coderOf points).push point).delta = delta)
    (fits : points ≠ [] → SignedFits 32 ((coderOf points).diff point.1)) :
    let run := storePoint ((p.dataLen - 4) * 8) timeWriter ((coderOf points).y ^^^ point.2)
      p.lastLeading p.lastSigbits point.1 delta point.2 (points.length + 1) p
    if wordsEnd ((coderOf points).push point).bits.length ≤ (p.dataLen - 4) * 8 then
      ∃ after, run = .ok () after ∧ BlockHolds after (points ++ [point]) ∧ after.dataLen = p.dataLen
    else
      ∃ after, run = .error (.code .bitstreamOutOfSpace) after ∧ BlockHolds after points ∧
        after.dataLen = p.dataLen := by
  intro run
  have value := tscWriteDouble_writes ((p.dataLen - 4) * 8) (p.numValidBits + timeBits.length)
    ((coderOf points).y ^^^ point.2) (coderOf points).window (coderOf_window points)
  have both := @Writes.bind _ _ timeWriter (fun bitIndex => tscWriteDouble ((p.dataLen - 4) * 8)
    bitIndex ((coderOf points).y ^^^ point.2) (coderOf points).window.leading
      (coderOf points).window.sigbits) _ _ _ _ _ _ time value p.data.words (by rw [holds.words]; omega)
  have total : ((coderOf points).push point).bits.length = p.numValidBits + (timeBits ++
      codeDouble (coderOf points).window ((coderOf points).y ^^^ point.2)).length := by
    rw [Coder.push, List.length_append, word, holds.numValidBits]
  have unfolded : run = (onBuf (timeWriter >>= fun bitIndex => tscWriteDouble ((p.dataLen - 4) * 8)
      bitIndex ((coderOf points).y ^^^ point.2) (coderOf points).window.leading
        (coderOf points).window.sigbits) >>= fun result =>
      tscCommit result.1 result.2.1 result.2.2 point.1 delta point.2 (points.length + 1)) p := by
    rw [onBuf_bind, ← holds.lastLeading, ← holds.lastSigbits]
    simp only [run, storePoint, EStateM.bind_apply]
    cases onBuf timeWriter p <;> rfl
  rw [total]
  split
  · rename_i space
    rw [if_pos space] at both
    obtain ⟨words, done, appended⟩ := both
    have bounded := holds.bounded
    have end_le := le_trans (le_wordsEnd _) space
    have short : points.length + 1 < 2 ^ 32 := by
      have bits := coderOf_bits_length (points ++ [point])
      rw [coderOf_concat, total, List.length_append, List.length_singleton] at bits
      unfold maxNumValidBits at bounded
      omega
    have inRange : p.numValidBits + timeBits.length + (codeDouble (coderOf points).window
        ((coderOf points).y ^^^ point.2)).length ≤ maxNumValidBits := by
      rw [List.length_append] at end_le
      omega
    refine ⟨p.ofCoder words ((coderOf points).push point), ?_, ?_, rfl⟩
    · rw [unfolded, EStateM.bind_apply, onBuf_ok done]
      simp only [EStateM.bind_apply, tscCommit, EStateM.modify_apply, require_apply, inRange, if_true,
        Nat.mod_eq_of_lt short]
      rw [List.length_append, ← Nat.add_assoc] at total
      simp only [TscHeader.ofCoder, total, stepped]
      simp only [Coder.push, coderOf_count, TscHeader.withWords]
    · refine ⟨holds.large, holds.bounded, appended.length.trans holds.words, holds.rest, ?_, ?_, ?_, ?_,
        ?_, ?_, ?_, ?_, ?_, holds.codable.concat point fits⟩
      · simp [TscHeader.ofCoder, Coder.push]
      · rw [coderOf_concat, TscHeader.ofCoder]
      · rw [coderOf_concat, TscHeader.ofCoder]
      · rw [coderOf_concat, TscHeader.ofCoder]
      · rw [coderOf_concat, TscHeader.ofCoder]
      · rw [coderOf_concat, TscHeader.ofCoder]
      · rw [coderOf_concat, TscHeader.ofCoder]
      · rw [coderOf_concat, Coder.push, bitsAt_append, word]
        refine ⟨bitsAt_of_agree holds.stored fun position _ below =>
          appended.kept position (by rw [holds.numValidBits]; omega), ?_⟩
        rw [Nat.zero_add, ← holds.numValidBits]
        exact appended.stored
      · rw [coderOf_concat, total]
        exact space
  · rename_i full
    rw [if_neg full] at both
    obtain ⟨words, done, untouched⟩ := both
    refine ⟨p.withWords words, ?_, holds.untouched untouched, rfl⟩
    rw [unfolded, EStateM.bind_apply, onBuf_error done]

theorem sizeSub_eq (a b : Nat) (le : b ≤ a) (bounded : a < 2 ^ 64) : sizeSub a b = a - b := by
  unfold sizeSub
  omega

/-- The branches of the call. -/
theorem tscAdd_eq (t y : Word) (p : TscHeader) :
    tscAdd t y p =
      if sizeSub ((p.dataLen - 4) * 8) p.numValidBits < 18 * 8 then
        .error (.code .tscOutOfSpace) p
      else if p.data.numPts = 0 then
        storePoint ((p.dataLen - 4) * 8)
          (bitstreamWriteInt64 ((p.dataLen - 4) * 8) p.numValidBits 64 t) y p.lastLeading
          p.lastSigbits t p.lastTimestampDelta y 1 p
      else if t.toInt ≤ p.lastTimestamp.toInt then
        .error (.code .outOfOrderTimestamp) p
      else if p.data.numPts = 1 then
        storePoint ((p.dataLen - 4) * 8)
          (tscWriteInt64 ((p.dataLen - 4) * 8) p.numValidBits (t - p.lastTimestamp))
          (p.prevValue ^^^ y) p.lastLeading p.lastSigbits t (t - p.lastTimestamp) y 2 p
      else
        storePoint ((p.dataLen - 4) * 8)
          (tscWriteInt64 ((p.dataLen - 4) * 8) p.numValidBits
            (t - p.lastTimestamp - p.lastTimestampDelta))
          (p.prevValue ^^^ y) p.lastLeading p.lastSigbits t (t - p.lastTimestamp) y
          (p.data.numPts + 1) p := by
  unfold tscAdd
  rw [EStateM.bind_apply, EStateM.get_apply]
  dsimp only
  split
  · rfl
  split
  · rfl
  split
  · rfl
  split
  · rfl
  · rfl

/-- Two points or fewer leave the first difference at zero. -/
theorem coderOf_delta_of_short (points : List Point) (short : points.length ≤ 1) :
    (coderOf points).delta = 0#64 := by
  match points, short with
  | [], _ => rfl
  | [point], _ => rfl

theorem signedFits_full (value : Word) : SignedFits 64 value := by
  have lower := BitVec.le_toInt value
  have upper := BitVec.toInt_lt (x := value)
  exact ⟨by simpa using lower, by simpa using upper⟩

/-- Every branch after the first stores the same difference, because the first delta is zero. -/
theorem tscAdd_next (p : TscHeader) (points : List Point) (holds : BlockHolds p points)
    (point : Point) (some : points ≠ [])
    (space : ¬ sizeSub ((p.dataLen - 4) * 8) p.numValidBits < 18 * 8)
    (past : ¬ point.1.toInt ≤ (coderOf points).t.toInt) :
    tscAdd point.1 point.2 p = storePoint ((p.dataLen - 4) * 8)
      (tscWriteInt64 ((p.dataLen - 4) * 8) p.numValidBits ((coderOf points).diff point.1))
      ((coderOf points).y ^^^ point.2) p.lastLeading p.lastSigbits point.1
      (point.1 - (coderOf points).t) point.2 (points.length + 1) p := by
  have nonzero : p.data.numPts ≠ 0 := by
    rw [holds.numPts]
    exact fun zero => some (List.length_eq_zero_iff.mp zero)
  rw [tscAdd_eq, if_neg space, if_neg nonzero, holds.lastTimestamp, if_neg past, holds.prevValue,
    holds.lastTimestampDelta, Coder.diff, ← holds.numPts]
  split
  · rename_i single
    have zero := coderOf_delta_of_short points (by rw [← holds.numPts]; omega)
    rw [zero, BitVec.sub_zero, single]
  · rfl

/-- The call accepts a point or refuses it with the code that `admission` names. In both cases the
block holds exactly the accepted points afterwards. -/
theorem tscAdd_run (p : TscHeader) (points : List Point) (holds : BlockHolds p points)
    (point : Point) :
    match admission p.dataLen points point with
    | none => ∃ after, tscAdd point.1 point.2 p = .ok () after ∧
        BlockHolds after (points ++ [point]) ∧ after.dataLen = p.dataLen
    | some err => ∃ after, tscAdd point.1 point.2 p = .error (.code err) after ∧
        BlockHolds after points ∧ after.dataLen = p.dataLen := by
  have bounded := holds.bounded
  have used := le_trans (le_wordsEnd _) holds.fits
  have avail : sizeSub ((p.dataLen - 4) * 8) p.numValidBits =
      (p.dataLen - 4) * 8 - (coderOf points).bits.length := by
    rw [holds.numValidBits]
    apply sizeSub_eq _ _ used
    unfold maxNumValidBits at bounded
    omega
  unfold admission
  by_cases full : (p.dataLen - 4) * 8 - (coderOf points).bits.length < 18 * 8
  · simp only [full, if_true]
    exact ⟨p, by rw [tscAdd_eq, avail, if_pos full], holds, rfl⟩
  have space : ¬ sizeSub ((p.dataLen - 4) * 8) p.numValidBits < 18 * 8 := by rwa [avail]
  simp only [full, if_false]
  by_cases empty : points = []
  · subst empty
    have time := Writes.signed ((p.dataLen - 4) * 8) p.numValidBits 64 point.1 (by decide) (by decide)
      (signedFits_full point.1)
    have run := storePoint_run p [] holds point _ (fieldBits 64 point.1) p.lastTimestampDelta
      (by rw [fieldBits_length]; exact time) rfl (by rw [holds.lastTimestampDelta]; rfl) (by simp)
    have zero : (coderOf []).y ^^^ point.2 = point.2 := BitVec.zero_xor
    have none : p.data.numPts = 0 := holds.numPts
    have same := tscAdd_eq point.1 point.2 p
    rw [if_neg space, if_pos none] at same
    dsimp only at run
    rw [zero, List.length_nil, Nat.zero_add, ← same] at run
    simp only [ne_eq, not_true_eq_false, false_and, if_false]
    by_cases room : wordsEnd ((coderOf []).push point).bits.length ≤ (p.dataLen - 4) * 8
    · rw [if_neg (Nat.not_lt.mpr room)]
      rwa [if_pos room] at run
    · rw [if_pos (Nat.lt_of_not_le room)]
      rwa [if_neg room] at run
  by_cases late : point.1.toInt ≤ (coderOf points).t.toInt
  · simp only [ne_eq, empty, not_false_eq_true, late, and_self, if_true]
    have nonzero : p.data.numPts ≠ 0 := by
      rw [holds.numPts]
      exact fun zero => empty (List.length_eq_zero_iff.mp zero)
    exact ⟨p, by rw [tscAdd_eq, if_neg space, if_neg nonzero, holds.lastTimestamp, if_pos late],
      holds, rfl⟩
  simp only [ne_eq, empty, not_false_eq_true, late, and_false, if_false, true_and]
  rw [tscAdd_next p points holds point empty space late]
  by_cases fits : SignedFits 32 ((coderOf points).diff point.1)
  · have some : (coderOf points).count ≠ 0 := by
      rw [coderOf_count]
      exact fun zero => empty (List.length_eq_zero_iff.mp zero)
    have run := storePoint_run p points holds point _ (codeInt ((coderOf points).diff point.1))
      (point.1 - (coderOf points).t)
      (tscWriteInt64_writes ((p.dataLen - 4) * 8) p.numValidBits _ fits)
      (by rw [Coder.word, if_neg some]) (by rw [Coder.push, if_neg some]) (fun _ => fits)
    simp only [fits, not_true_eq_false, if_false]
    by_cases room : wordsEnd ((coderOf points).push point).bits.length ≤ (p.dataLen - 4) * 8
    · rw [if_neg (Nat.not_lt.mpr room)]
      rwa [if_pos room] at run
    · rw [if_pos (Nat.lt_of_not_le room)]
      rwa [if_neg room] at run
  · simp only [fits, not_false_eq_true, if_true]
    have room : wordsEnd (p.numValidBits + 36) ≤ (p.dataLen - 4) * 8 := by
      rw [holds.numValidBits, wordsEnd]
      omega
    obtain ⟨words, refused, untouched⟩ := tscWriteInt64_bad p.data.words ((p.dataLen - 4) * 8)
      p.numValidBits _ fits room (by rw [holds.words]; omega)
    refine ⟨p.withWords words, ?_, holds.untouched untouched, rfl⟩
    rw [storePoint, EStateM.bind_apply, onBuf_error refused]

end Menoetius
