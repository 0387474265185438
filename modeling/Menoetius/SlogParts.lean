import Menoetius.SlogStep

/-
This file follows the parts of a log line: strings, numbers, keys, spaces and the end.
-/

namespace Menoetius
open FileImage

section Grow

theorem grows_escapeBinary (escapeDoublequote : Bool) (chars : List UInt8) (start size : Int) :
    Grows (escapeBinary escapeDoublequote chars start size) := by
  induction chars generalizing start size with
  | nil => exact grows_pure _
  | cons c chars ih =>
      rw [escapeBinary]
      cases escapeLetter escapeDoublequote c with
      | some letter => exact grows_ite (grows_pure _) ((grows_putBuf _ _).bind fun _ => ih _ _)
      | none =>
          exact grows_ite ((grows_putBuf _ _).bind fun _ => grows_ite (grows_pure _) (ih _ _))
            (grows_ite (grows_pure _) ((grows_putBuf _ _).bind fun _ => ih _ _))

theorem grows_closeQuote (buf bufSize stop : Int) (err : LogCode) : Grows (closeQuote buf bufSize stop err) :=
  (grows_require _ _).bind fun _ => grows_ite ((grows_setM _).bind fun _ => grows_pure _)
    ((grows_putBuf _ _).bind fun _ => (grows_setM _).bind fun _ => grows_pure _)

theorem grows_appendQuotedStringN (buf bufSize : Int) (s : List UInt8) (n : Int) :
    Grows (appendQuotedStringN buf bufSize s n) :=
  grows_ite (grows_pure _) (grows_ite
    ((grows_escapeBinary _ _ _ _).bind fun _ => (grows_setM _).bind fun _ => grows_pure _)
    ((grows_putBuf _ _).bind fun _ => (grows_escapeBinary _ _ _ _).bind fun _ => grows_closeQuote _ _ _ _))

theorem grows_slogString (bufSize : Nat) (s : List UInt8) (n : Int) : Grows (slogString bufSize s n) :=
  grows_get.bind fun _ => (grows_appendQuotedStringN _ _ _ _).bind fun _ =>
    grows_get.bind fun _ => (grows_moveBy _).bind fun _ => grows_pure _

theorem grows_snprintf (buf : Int) (size : Nat) (text : CString) : Grows (snprintf buf size text) :=
  grows_ite (grows_pure _) (grows_putBuf _ _)

theorem grows_ofExcept {α : Type} (result : Except Failure α) : Grows (ofExcept result : SlogM α) := by
  cases result with
  | error failure => exact grows_throw failure
  | ok value => exact grows_pure value

theorem grows_strlenBuf (bufI : Int) : Grows (strlenBuf bufI) :=
  grows_get.bind fun _ => grows_ite (grows_ofExcept _) (grows_throw _)

theorem grows_slogPrint (bufSize : Nat) (text : CString) : Grows (slogPrint bufSize text) :=
  grows_get.bind fun _ => (grows_snprintf _ _ _).bind fun _ => (grows_strlenBuf _).bind fun _ => grows_moveBy _

theorem grows_slogKey (bufSize : Nat) (key : List UInt8) : Grows (slogKey bufSize key) :=
  grows_get.bind fun _ => grows_ite ((grows_putBuf _ _).bind fun _ => (grows_moveBy _).bind fun _ =>
    grows_get.bind fun _ => (grows_putBuf _ _).bind fun _ => grows_moveBy _) (grows_pure _)

theorem grows_slogSpace (bufSize : Nat) : Grows (slogSpace bufSize) :=
  grows_get.bind fun _ => grows_ite ((grows_putBuf _ _).bind fun _ => grows_moveBy _) (grows_pure _)

theorem grows_slogEnd (bufSize : Nat) : Grows (slogEnd bufSize) :=
  grows_get.bind fun _ => (grows_require _ _).bind fun _ => (grows_putBuf _ _).bind fun _ => grows_putBuf _ _

theorem grows_slogMessage (bufSize : Nat) (p : List UInt8) : Grows (slogMessage bufSize p) :=
  grows_ite (grows_pure _) ((grows_slogString _ _ _).bind fun _ => (grows_slogString _ _ _).bind fun _ => grows_pure _)

end Grow

section Parts
variable {bufSize : Nat} {tail : List UInt8} {m0 : Int} {spot : Spot} {s : Slog}

theorem logRoom_at (wide : bufSize < 2 ^ 64) (stands : s.At bufSize tail m0 spot) :
    logRoom bufSize s.bufI = bufSize - spot.pos := by
  have inside := stands.inside
  rw [logRoom, stands.pos, Int.emod_eq_of_lt (by omega) (by omega)]
  omega

/-- A positive remainder is not above the number. -/
theorem bmod_pos {room m : Nat} (positive : 0 < m) (some : ¬ Int.bmod room m ≤ 0) :
    ∃ size : Nat, Int.bmod room m = size ∧ 1 ≤ size ∧ size ≤ room ∧ size < (m + 1) / 2 := by
  have high := @Int.bmod_lt room m positive
  refine ⟨(Int.bmod room m).toNat, by omega, by omega, ?_, by omega⟩
  rw [Int.bmod_def] at some ⊢
  have small := Nat.mod_le room m
  split at some <;> rename_i first
  · rw [if_pos first]
    omega
  · have low := Int.emod_lt_of_pos (room : Int) (show (0 : Int) < m by omega)
    omega

/-- A positive space is an `int` that the buffer has. -/
theorem logInt_pos {room : Nat} (some : ¬ logInt room ≤ 0) :
    ∃ size : Nat, logInt room = size ∧ 1 ≤ size ∧ size < 2 ^ 31 ∧ size ≤ room := by
  obtain ⟨size, same, positive, inside, small⟩ := @bmod_pos room (2 ^ 32) (by decide) some
  exact ⟨size, same, positive, small, inside⟩

theorem logInt_small {room : Nat} (small : room < 2 ^ 31) : logInt room = room := by
  have bound : (room : Int) < 2 ^ 31 := by exact_mod_cast small
  unfold logInt
  exact bmod_small (by omega) bound

/-- Without space, a string fits where the characters of the last one would fit again. -/
theorem Spot.fits_full_iff (inside : spot.pos ≤ bufSize) (full : spot.size bufSize ≤ 0) (chars : List UInt8) :
    spot.Fits bufSize chars ↔ ∃ k ∈ spot.m, spot.pos + k ≤ bufSize := by
  rw [Spot.Fits, if_pos full]
  constructor
  · rintro (none | ⟨-, again⟩)
    · exact ⟨0, none, inside⟩
    · exact again
  · rintro ⟨k, last, room⟩
    by_cases large : 2 ^ 31 ≤ bufSize
    · exact Or.inr ⟨large, k, last, room⟩
    · rw [Spot.size, logInt_small (by omega)] at full
      have none : k = 0 := by omega
      rw [none] at last
      exact Or.inl last

/-- A string leads to the spot behind it. -/
theorem slogString_follows (wide : bufSize < 2 ^ 64) (stands : s.At bufSize tail m0 spot) (chars : List UInt8)
    (n : Int) :
    Follows (Adverse tail m0) bufSize (slogString bufSize chars n) s
      (spot.Fits bufSize (chars.take n.toNat) ∧ (spot.string bufSize (chars.take n.toNat)).2.IsInt)
      (fun err after => err = (spot.string bufSize (chars.take n.toNat)).1 ∧
        after.At bufSize tail m0 (spot.string bufSize (chars.take n.toNat)).2) := by
  have inside := stands.inside
  have int : spot.pos < 2 ^ 31 := stands.int
  rw [slogString]
  apply follows_bind_ok (EStateM.get_apply s)
  dsimp only
  rw [logRoom_at wide stands, stands.pos]
  change Follows (Adverse tail m0) bufSize
    (appendQuotedStringN spot.pos (spot.size bufSize) chars n >>= _) s _ _
  by_cases empty : spot.size bufSize ≤ 0
  · have skipped : appendQuotedStringN spot.pos (spot.size bufSize) chars n s = .ok .ok s := by
      rw [appendQuotedStringN, if_pos empty]
      rfl
    apply follows_bind_ok skipped
    apply follows_bind_ok (EStateM.get_apply s)
    rw [Spot.fits_full_iff inside empty, Spot.string, if_pos empty]
    cases count : spot.m with
    | none =>
        -- The first value of `m` leads to a negative position.
        constructor
        · rintro ⟨⟨k, member, -⟩, -⟩
          cases member
        · rintro ⟨-, low⟩ - value after run
          obtain ⟨_, middle, moved, ended⟩ := EStateM.of_bind_ok run
          cases moved
          cases ended
          refine ⟨_, List.mem_cons_self, ?_⟩
          have first := stands.m
          rw [count, Option.map_none, Option.getD_none] at first
          rw [first, low, stands.pos, bmod_small (by omega) (by omega)]
          omega
    | some k =>
        have small := stands.small k count
        have known : s.m = k := by
          have value := stands.m
          rwa [count] at value
        rw [known]
        have moved := moveBy_follows (Adverse tail m0) stands small
        refine (moved.finish fun _ after stands' => ⟨rfl, by simpa [count] using stands'⟩).iff ?_
        simp [Spot.IsInt]
  · obtain ⟨size, same, some, small, room⟩ := logInt_pos empty
    change spot.size bufSize = size at same
    rw [Spot.Fits, Spot.string, if_neg empty, if_neg empty, same, Int.toNat_natCast]
    by_cases overruns : OverrunsQuote size (chars.take n.toNat)
    · apply follows_of_fails
      · intro value after run
        obtain ⟨code, middle, ran, -⟩ := EStateM.of_bind_ok run
        obtain rfl : size = 1 := by
          have one := overruns.1
          omega
        exact appendQuotedStringN_overruns overruns code middle ran
      · exact fun fits => fits.1 overruns
    · obtain ⟨middle, run, stands'⟩ := appendQuotedStringN_run stands some small (by omega) overruns
      have covered := stringCount_le some overruns
      apply follows_bind_ok run
      apply follows_bind_ok (EStateM.get_apply middle)
      have known : middle.m = (stringCount (chars.take n.toNat) size).2 := stands'.m
      rw [known]
      have moved := moveBy_follows (Adverse tail m0) stands'
        (show (stringCount (chars.take n.toNat) size).2 < 2 ^ 31 by omega)
      refine (moved.finish fun _ after final => ⟨rfl, final⟩).iff ?_
      simp only [Spot.IsInt, overruns, not_false_eq_true, true_and]
      omega

/-- Text and a NUL byte that have been written are a string there. -/
theorem strlenBuf_written (stands : s.At bufSize tail m0 spot) {text : List UInt8} (nulFree : 0 ∉ text)
    (inside : spot.pos + (text.length + 1) ≤ bufSize) :
    strlenBuf spot.pos { s with buf := writeAt s.buf spot.pos (text ++ [0]) } =
      .ok text.length { s with buf := writeAt s.buf spot.pos (text ++ [0]) } := by
  have length := stands.length
  have split : s.buf = s.buf.take spot.pos ++ s.buf.drop spot.pos := (List.take_append_drop _ _).symm
  have start : (s.buf.take spot.pos).length = spot.pos := by
    rw [List.length_take]
    omega
  have written := writeAt_over (s.buf.take spot.pos) (s.buf.drop spot.pos) (text ++ [0])
  rw [← split, start] at written
  have behind : (writeAt s.buf spot.pos (text ++ [0])).drop spot.pos =
      text ++ 0 :: (s.buf.drop spot.pos).drop (text ++ [0]).length := by
    rw [written, List.drop_append_of_le_length (by omega), List.drop_eq_nil_of_le (by omega)]
    simp
  rw [strlenBuf, EStateM.bind_ok (EStateM.get_apply _), if_pos (by omega), Int.toNat_natCast, behind,
    strlen_run text _ nulFree]
  rfl

theorem strlen_unending {memory : List UInt8} (nulFree : 0 ∉ memory) :
    strlen memory = .error (.abort .stringEnd) := by
  induction memory with
  | nil => rfl
  | cons c memory ih =>
      simp only [List.mem_cons, not_or] at nulFree
      rw [strlen, if_neg (Ne.symm nulFree.1), ih nulFree.2]
      rfl

/-- A printed text leads to the spot behind it, if there is space for its NUL byte. -/
theorem slogPrint_follows (wide : bufSize < 2 ^ 64) (stands : s.At bufSize tail m0 spot) (text : PrintedText) :
    Follows (Adverse tail m0) bufSize (slogPrint bufSize text.toCString) s
      (spot.pos < bufSize ∧ (spot.print bufSize text.toCString).IsInt)
      (fun _ after => after.At bufSize tail m0 (spot.print bufSize text.toCString)) := by
  have inside := stands.inside
  have short := text.short
  rw [slogPrint]
  apply follows_bind_ok (EStateM.get_apply s)
  dsimp only
  rw [logRoom_at wide stands, stands.pos]
  by_cases space : spot.pos < bufSize
  · have nulFree : 0 ∉ text.bytes.take (bufSize - spot.pos - 1) :=
      fun member => text.nulFree (List.mem_of_mem_take member)
    have length : (text.bytes.take (bufSize - spot.pos - 1)).length =
        min text.bytes.length (bufSize - spot.pos - 1) := by rw [List.length_take, Nat.min_comm]
    obtain ⟨put, stands'⟩ := @putBuf_run _ _ _ _ _ stands spot.pos
      (text.bytes.take (bufSize - spot.pos - 1) ++ [0]) (by simp; omega)
    have printed : snprintf spot.pos (bufSize - spot.pos) text.toCString =
        putBuf spot.pos (text.bytes.take (bufSize - spot.pos - 1) ++ [0]) := if_neg (by omega)
    rw [printed]
    apply follows_bind_ok put
    apply follows_bind_ok (strlenBuf_written stands nulFree (by omega))
    rw [length]
    have moved := moveBy_follows (Adverse tail m0) stands'
      (show min text.bytes.length (bufSize - spot.pos - 1) < 2 ^ 31 by omega)
    refine moved.iff ?_
    simp only [Spot.IsInt, Spot.print, space, true_and]
    omega
  · -- Nothing is printed, and what stands behind the space is no string.
    have none : bufSize - spot.pos = 0 := by omega
    have printed : snprintf spot.pos (bufSize - spot.pos) text.toCString s = .ok () s := by
      rw [snprintf, if_pos none]
      rfl
    apply follows_bind_ok printed
    constructor
    · exact fun fits => absurd fits.1 space
    · rintro ⟨nulFree, -⟩ - value after run
      obtain ⟨length, middle, ran, -⟩ := EStateM.of_bind_ok run
      have here : spot.pos = bufSize := by omega
      rw [strlenBuf, EStateM.bind_ok (EStateM.get_apply s), if_pos (by omega), Int.toNat_natCast, here,
        stands.tail, strlen_unending nulFree] at ran
      cases ran

/-- A key leads to the spot behind its equal sign, or it is left out. -/
theorem slogKey_follows (wide : bufSize < 2 ^ 64) (stands : s.At bufSize tail m0 spot) {key : List UInt8}
    (short : key.length + 1 < 2 ^ 31) :
    Follows (Adverse tail m0) bufSize (slogKey bufSize key) s (spot.key bufSize key).IsInt
      (fun _ after => after.At bufSize tail m0 (spot.key bufSize key)) := by
  have inside := stands.inside
  rw [slogKey]
  apply follows_bind_ok (EStateM.get_apply s)
  dsimp only
  rw [logRoom_at wide stands, stands.pos, Spot.key]
  by_cases space : bufSize - spot.pos > key.length + 1 ∧ key ≠ ctxKey
  · rw [if_pos space, if_pos space]
    have room := space.1
    obtain ⟨put, stands'⟩ := @putBuf_run _ _ _ _ _ stands spot.pos key (by omega)
    apply follows_bind_ok put
    have first := moveBy_follows (Adverse tail m0) stands' (show key.length < 2 ^ 31 by omega)
    refine (@Follows.bind _ _ _ _ _ _ (spot.pos + (key.length + 1) < 2 ^ 31) _ _ _ _ first
      (fun _ after stands'' => ?_)
      fun _ => grows_get.bind fun _ => (grows_putBuf _ _).bind fun _ => grows_moveBy _).iff ?_
    · apply follows_bind_ok (EStateM.get_apply after)
      rw [stands''.pos]
      obtain ⟨put', final⟩ := @putBuf_run _ _ _ _ _ stands'' (spot.pos + key.length) [61] (by simp; omega)
      apply follows_bind_ok put'
      have second := moveBy_follows (Adverse tail m0) final (show 1 < 2 ^ 31 by decide)
      refine second.iff ?_
      dsimp only
      omega
    · simp only [Spot.IsInt]
      omega
  · rw [if_neg space, if_neg space]
    exact follows_of_ok (EStateM.pure_apply () s) stands _ stands.int

theorem slogSpace_follows (wide : bufSize < 2 ^ 64) (stands : s.At bufSize tail m0 spot) :
    Follows (Adverse tail m0) bufSize (slogSpace bufSize) s (spot.space bufSize).IsInt
      (fun _ after => after.At bufSize tail m0 (spot.space bufSize)) := by
  have inside := stands.inside
  rw [slogSpace]
  apply follows_bind_ok (EStateM.get_apply s)
  dsimp only
  rw [logRoom_at wide stands, stands.pos, Spot.space]
  by_cases space : bufSize - spot.pos > 1
  · rw [if_pos space, if_pos space]
    obtain ⟨put, stands'⟩ := @putBuf_run _ _ _ _ _ stands spot.pos [32] (by simp; omega)
    apply follows_bind_ok put
    have moved := moveBy_follows (Adverse tail m0) stands' (show 1 < 2 ^ 31 by decide)
    refine moved.iff ?_
    simp only [Spot.IsInt]
    omega
  · rw [if_neg space, if_neg space]
    exact follows_of_ok (EStateM.pure_apply () s) stands _ stands.int

/-- The newline and the NUL byte stand behind the space at the latest. -/
theorem slogEnd_follows (stands : s.At bufSize tail m0 spot) :
    Follows (Adverse tail m0) bufSize (slogEnd bufSize) s spot.Ends
      (fun _ after => ∀ i ∈ after.visited, 0 ≤ i ∧ i ≤ bufSize) := by
  have inside := stands.inside
  have int : spot.pos < 2 ^ 31 := stands.int
  have length := stands.length
  rw [slogEnd]
  apply follows_bind_ok (EStateM.get_apply s)
  dsimp only
  rw [stands.pos]
  by_cases short : spot.pos + 1 < 2 ^ 31
  · have next : Int.bmod ((spot.pos : Int) + 1) (2 ^ 32) = ((spot.pos + 1 : Nat) : Int) := by
      rw [bmod_small (by omega) (by omega)]
      omega
    have holds : ((spot.pos + 1 : Nat) : Int) % 2 ^ 64 < (bufSize : Int) + 2 := by
      rw [Int.emod_eq_of_lt (by omega) (by omega)]
      omega
    rw [next, require_bind holds]
    have put : ∀ {s : Slog} (i : Nat) (c : UInt8), i + 1 ≤ s.buf.length →
        putBuf i [c] s = .ok () { s with buf := writeAt s.buf i [c] } := by
      intro s i c fits
      rw [putBuf, EStateM.bind_ok (EStateM.get_apply s)]
      simp [fits]
    apply follows_bind_ok (put spot.pos 10 (by omega))
    refine follows_of_ok (put (spot.pos + 1) 0 ?_) stands.visited _ short
    rw [writeAt_length _ _ _ (by simp; omega)]
    omega
  · -- The position behind the end is negative.
    apply follows_of_fails
    · intro value after run
      have wrapped : Int.bmod ((spot.pos : Int) + 1) (2 ^ 32) = (spot.pos : Int) + 1 - 2 ^ 32 := by
        rw [← Int.sub_bmod_right]
        exact bmod_small (by omega) (by omega)
      obtain ⟨-, run⟩ := of_require_bind run
      obtain ⟨_, middle, -, last⟩ := EStateM.of_bind_ok run
      rw [wrapped, putBuf, EStateM.bind_ok (EStateM.get_apply middle), if_neg (by omega)] at last
      cases last
    · exact short

/-- The prefix and the text of the message are two strings. -/
theorem slogMessage_follows (wide : bufSize < 2 ^ 64) (stands : s.At bufSize tail m0 spot) (p : List UInt8) :
    Follows (Adverse tail m0) bufSize (do slogMessage bufSize p; slogEnd bufSize) s
      (MessageFits bufSize (CString.at (p.dropWhile fun c => c == 32)) spot)
      (fun _ after => ∀ i ∈ after.visited, 0 ≤ i ∧ i ≤ bufSize) := by
  rw [slogMessage, MessageFits]
  dsimp only
  by_cases empty : (CString.at (p.dropWhile fun c => c == 32)).bytes = []
  · rw [if_pos empty, if_pos empty]
    exact follows_bind_ok rfl (slogEnd_follows stands)
  · rw [if_neg empty, if_neg empty, bind_assoc]
    refine (slogString_follows wide stands _ _).bind (fun _ middle first => ?_) fun _ =>
      ((grows_slogString _ _ _).bind fun _ => grows_pure _).bind fun _ => grows_slogEnd bufSize
    rw [bind_assoc]
    refine (slogString_follows wide first.2 _ _).bind (fun _ final second => ?_) fun _ =>
      (grows_pure _).bind fun _ => grows_slogEnd bufSize
    exact follows_bind_ok rfl (slogEnd_follows second.2)

end Parts

end Menoetius
