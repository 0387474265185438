import Menoetius.SlogParts

/-
This file says which log lines stay inside their buffer.
-/

namespace Menoetius

/-- The format of a value. -/
def LogValue.fmt : LogValue → List UInt8
  | .string _ => [115]
  | .double _ => [102]
  | .int _ => [100]
  | .pointer _ => [112]
  | .stringN _ _ _ => [42, 115]

def LogValue.format : LogValue → LogFormat
  | .string _ => .string
  | .double _ => .double
  | .int _ => .int
  | .pointer _ => .pointer
  | .stringN _ _ _ => .stringN

def LogValue.arg : LogValue → LogArg
  | .string val => .string val
  | .double val => .double val
  | .int val => .int val
  | .pointer val => .pointer val
  | .stringN n val _ => .stringN n val

/-- The first word of a message is no key with an equal sign behind it. -/
def MessageText (rest : List UInt8) : Prop :=
  let word := (rest.dropWhile fun c => c == 32 || c == 9).takeWhile fun c => c != 32
  61 ∉ word ∨ word.head? = some 61

/-- A format is made of items, with blanks and tabs in front of them, and a message. -/
inductive LineText : List LogItem → List UInt8 → List UInt8 → Prop
  | message {rest : List UInt8} (plain : MessageText rest) : LineText [] rest rest
  | item {lead rest message : List UInt8} {item : LogItem} {items : List LogItem}
      (blank : ∀ c ∈ lead, (c == 32 || c == 9) = true) (behind : ∀ c ∈ rest.head?, c = 32)
      (tail : LineText items message rest) :
      LineText (item :: items) message (lead ++ (item.key ++ 61 :: (item.value.fmt ++ rest)))

section Tokens

theorem keyChars_none {s : List UInt8} (plain : 61 ∉ s.takeWhile fun c => c != 32) : keyChars s = none := by
  induction s with
  | nil => rfl
  | cons c s ih =>
      rw [keyChars]
      by_cases blank : c = 32
      · rw [if_pos blank]
      · rw [List.takeWhile_cons_of_pos (by simpa using blank), List.mem_cons, not_or] at plain
        rw [if_neg blank, if_neg (Ne.symm plain.1), ih plain.2]
        rfl

theorem tokenizeKey_message {rest : List UInt8} (plain : MessageText rest) : tokenizeKey rest = none := by
  rw [tokenizeKey]
  rcases plain with none | first
  · rw [keyChars_none none]
  · cases start : rest.dropWhile fun c => c == 32 || c == 9 with
    | nil => rfl
    | cons c s =>
        rw [start] at first
        by_cases blank : c = 32
        · subst blank
          cases first
        · rw [List.takeWhile_cons_of_pos (by simpa using blank), List.head?_cons, Option.some.injEq] at first
          subst first
          rfl

theorem keyChars_run {key : List UInt8} (plain : ∀ c ∈ key, c ≠ 0 ∧ c ≠ 32 ∧ c ≠ 61) (s : List UInt8) :
    keyChars (key ++ 61 :: s) = some (key, 61 :: s) := by
  induction key with
  | nil => rfl
  | cons c key ih =>
      obtain ⟨-, noBlank, noEqual⟩ := plain c List.mem_cons_self
      rw [List.cons_append, keyChars, if_neg noBlank, if_neg noEqual,
        ih fun d member => plain d (List.mem_cons_of_mem c member)]
      rfl

theorem tokenizeKey_item (item : LogItem) {lead : List UInt8} (blank : ∀ c ∈ lead, (c == 32 || c == 9) = true)
    (s : List UInt8) : tokenizeKey (lead ++ (item.key ++ 61 :: s)) = some (item.key, 61 :: s) := by
  obtain ⟨first, key, whole⟩ := List.exists_cons_of_ne_nil item.nonempty
  have noTab := item.start
  have noBlank := (item.plain first (by rw [whole]; exact List.mem_cons_self)).2.1
  rw [whole, List.head?_cons] at noTab
  have starts : (lead ++ (item.key ++ 61 :: s)).dropWhile (fun c => c == 32 || c == 9) = item.key ++ 61 :: s := by
    rw [List.dropWhile_append_of_pos blank, whole, List.cons_append, List.dropWhile_cons_of_neg]
    simp only [Bool.or_eq_true, beq_iff_eq, not_or]
    exact ⟨noBlank, fun tab => noTab (by rw [tab])⟩
  rw [tokenizeKey, starts, keyChars_run item.plain s, whole]

theorem tokenizeValueFmt_run (value : LogValue) {rest : List UInt8} (behind : ∀ c ∈ rest.head?, c = 32) :
    tokenizeValueFmt (value.fmt ++ rest) = some (value.fmt, rest) := by
  have plain : ∀ c ∈ value.fmt, (c != 32) = true := by cases value <;> simp [LogValue.fmt]
  have stops : rest.takeWhile (fun c => c != 32) = [] ∧ rest.dropWhile (fun c => c != 32) = rest := by
    cases rest with
    | nil => exact ⟨rfl, rfl⟩
    | cons c rest =>
        obtain rfl := behind c rfl
        exact ⟨rfl, rfl⟩
  rw [tokenizeValueFmt, List.takeWhile_append_of_pos plain, List.dropWhile_append_of_pos plain, stops.1, stops.2,
    List.append_nil]
  cases value <;> rfl

theorem logFormat_value (key : List UInt8) (value : LogValue) : logFormat key value.fmt = some value.format := by
  cases value <;> rfl

end Tokens

section Line
variable (doubleText pointerText : Word → PrintedText) {bufSize : Nat} {tail : List UInt8} {m0 : Int} {spot : Spot}
  {s : Slog}

theorem grows_slogValue (format : LogFormat) (arguments : List LogArg) :
    Grows (slogValue doubleText pointerText bufSize format arguments) := by
  have contexts : ∀ texts : List CString, Grows (texts.forM (slogPrint bufSize)) := by
    intro texts
    induction texts with
    | nil => exact grows_pure _
    | cons text texts ih => exact (grows_slogPrint _ _).bind fun _ => ih
  unfold slogValue
  split
  · exact (grows_slogString _ _ _).bind fun _ => grows_pure _
  · exact (grows_slogPrint _ _).bind fun _ => grows_pure _
  · exact (grows_slogPrint _ _).bind fun _ => grows_pure _
  · exact (grows_slogPrint _ _).bind fun _ => grows_pure _
  · exact (grows_setM _).bind fun _ => (grows_slogString _ _ _).bind fun _ => grows_pure _
  · exact (contexts _).bind fun _ => grows_pure _
  · exact grows_throw _

theorem grows_slogItems (turns : Nat) (p : List UInt8) (arguments : List LogArg) :
    Grows (slogItems doubleText pointerText bufSize turns p arguments) := by
  induction turns generalizing p arguments with
  | zero => exact grows_throw _
  | succ turns ih =>
      unfold slogItems
      split
      · exact grows_pure _
      · split
        · exact grows_throw _
        · refine (grows_require _ _).bind fun _ => (grows_slogKey _ _).bind fun _ => ?_
          split
          · exact grows_throw _
          · exact (grows_slogValue _ _ _ _).bind fun _ => grows_ite (grows_pure _)
              ((grows_slogSpace _).bind fun _ => ih _ _)

theorem grows_slogFinish (rest : Option (List UInt8)) : Grows (slogFinish bufSize rest) := by
  cases rest with
  | none => exact (grows_slogEnd _).bind fun _ => grows_pure _
  | some p => exact (grows_slogMessage _ _).bind fun _ => (grows_slogEnd _).bind fun _ => grows_pure _

/-- A value leads to the spot behind it. -/
theorem slogValue_follows (wide : bufSize < 2 ^ 64) (stands : s.At bufSize tail m0 spot) (value : LogValue)
    (arguments : List LogArg) :
    Follows (Adverse tail m0) bufSize
      (slogValue doubleText pointerText bufSize value.format (value.arg :: arguments)) s
      (value.Fits bufSize spot ∧ (value.next doubleText pointerText bufSize spot).2.IsInt)
      (fun result after => result = ((value.next doubleText pointerText bufSize spot).1, arguments) ∧
        after.At bufSize tail m0 (value.next doubleText pointerText bufSize spot).2) := by
  have printed : ∀ text : PrintedText, Follows (Adverse tail m0) bufSize
      (do slogPrint bufSize text.toCString; return (LogCode.ok, arguments)) s
      (spot.pos < bufSize ∧ (spot.print bufSize text.toCString).IsInt)
      (fun result after => result = (LogCode.ok, arguments) ∧
        after.At bufSize tail m0 (spot.print bufSize text.toCString)) := by
    intro text
    exact (slogPrint_follows wide stands text).finish fun _ after final => ⟨rfl, final⟩
  have appended : ∀ {spot : Spot} {s : Slog}, s.At bufSize tail m0 spot → ∀ (chars : List UInt8) (n : Int),
      Follows (Adverse tail m0) bufSize (do let err ← slogString bufSize chars n; return (err, arguments)) s
        (spot.Fits bufSize (chars.take n.toNat) ∧ (spot.string bufSize (chars.take n.toNat)).2.IsInt)
        (fun result after => result = ((spot.string bufSize (chars.take n.toNat)).1, arguments) ∧
          after.At bufSize tail m0 (spot.string bufSize (chars.take n.toNat)).2) := by
    intro spot s stands chars n
    exact (slogString_follows wide stands chars n).finish fun err after final => ⟨by rw [final.1], final.2⟩
  cases value with
  | string val => exact appended stands _ _
  | double val => exact printed (doubleText val)
  | int val => exact printed (intText val)
  | pointer val => exact printed (pointerText val)
  | stringN n val covered =>
      obtain ⟨set, stands'⟩ := setM_run stands (show 0 < 2 ^ 31 by decide)
      exact follows_bind_ok set (appended stands' val n)

/-- The items of a format lead to its message, if they fit. -/
theorem slogItems_follows (wide : bufSize < 2 ^ 64) {items : List LogItem} {message fmt : List UInt8}
    (spelled : LineText items message fmt) {turns : Nat} (enough : fmt.length < turns)
    (short : fmt.length < 2 ^ 31) (stands : s.At bufSize tail m0 spot) :
    Follows (Adverse tail m0) bufSize
      (slogItems doubleText pointerText bufSize turns fmt (items.map fun item => item.value.arg) >>=
        slogFinish bufSize) s
      (LineFits doubleText pointerText bufSize (CString.at (message.dropWhile fun c => c == 32)) items spot)
      (fun _ after => ∀ i ∈ after.visited, 0 ≤ i ∧ i ≤ bufSize) := by
  induction spelled generalizing turns spot s with
  | @message rest plain =>
      obtain ⟨turns, rfl⟩ : ∃ fewer, turns = fewer + 1 := ⟨turns - 1, by omega⟩
      have done : slogItems doubleText pointerText bufSize (turns + 1) rest [] s = .ok (some rest) s := by
        rw [slogItems, tokenizeKey_message plain]
        rfl
      apply follows_bind_ok done
      have finish : slogFinish bufSize (some rest) = (do slogMessage bufSize rest; slogEnd bufSize) >>= fun _ => pure 0 := by
        rw [bind_assoc]
        rfl
      rw [finish]
      exact (slogMessage_follows wide stands rest).finish fun _ after inside => inside
  | @item lead rest message item items blank behind spelled ih =>
      obtain ⟨turns, rfl⟩ : ∃ fewer, turns = fewer + 1 := ⟨turns - 1, by omega⟩
      have sizes : item.key.length + 1 + item.value.fmt.length + rest.length ≤
          (lead ++ (item.key ++ 61 :: (item.value.fmt ++ rest))).length := by
        simp only [List.length_append, List.length_cons]
        omega
      have lengths : item.key.length < 2 ^ 31 ∧ item.value.fmt.length < 2 ^ 31 := ⟨by omega, by omega⟩
      rw [slogItems, tokenizeKey_item item blank, List.map_cons]
      simp only [List.tail_cons, tokenizeValueFmt_run item.value behind, logFormat_value]
      rw [require_bind lengths, bind_assoc]
      change Follows _ _ _ _ ((spot.key bufSize item.key).IsInt ∧ (_ ∧ _) ∧ if _ then _ else _) _
      refine (slogKey_follows wide stands (by omega)).bind (fun _ after first => ?_) fun _ =>
        ((grows_slogValue _ _ _ _).bind fun _ => grows_ite (grows_pure _)
          ((grows_slogSpace _).bind fun _ => grows_slogItems _ _ _ _ _)).bind fun _ => grows_slogFinish _
      rw [bind_assoc]
      refine (slogValue_follows doubleText pointerText wide first item.value _).bind (fun result after second => ?_)
        fun _ => (grows_ite (grows_pure _) ((grows_slogSpace _).bind fun _ => grows_slogItems _ _ _ _ _)).bind
          fun _ => grows_slogFinish _
      obtain ⟨rfl, second⟩ := second
      by_cases full : (item.value.next doubleText pointerText bufSize (spot.key bufSize item.key)).1 = .outOfSpace
      · rw [if_pos full, if_pos full]
        apply follows_bind_ok rfl
        exact (slogEnd_follows second).finish fun _ after inside => inside
      · rw [if_neg full, if_neg full, bind_assoc]
        refine (slogSpace_follows wide second).bind (fun _ after third => ?_) fun _ =>
          (grows_slogItems _ _ _ _ _).bind fun _ => grows_slogFinish _
        exact ih (by omega) (by omega) third

end Line

/-- A call of `_slog_args` with a format of items and a message. The length of the format is an `int`. -/
structure LogLine where
  items : List LogItem
  message : List UInt8
  fmt : CString
  bufSize : Nat
  spelled : LineText items message fmt.bytes
  short : fmt.bytes.length < 2 ^ 31
  large : 2 < bufSize
  wide : bufSize < 2 ^ 64

section Law
variable (doubleText pointerText : Word → PrintedText)

/-- Whatever the buffer and `m` hold before, the call returns, and the write position stays between the start and
the two last bytes of the buffer. -/
def LogLine.StaysInside (line : LogLine) : Prop :=
  ∀ (buf : List UInt8) (m : Int), buf.length = line.bufSize → -2 ^ 31 ≤ m → m < 2 ^ 31 →
    ∃ res after, slogArgs doubleText pointerText line.bufSize line.fmt
        (line.items.map fun item => item.value.arg) ⟨buf, 0, m, [0]⟩ = .ok res after ∧
      ∀ i ∈ after.visited, 0 ≤ i ∧ i ≤ ((line.bufSize - 2 : Nat) : Int)

/-- Every item and the message fit where they start. -/
def LogLine.Fits (line : LogLine) : Prop :=
  LineFits doubleText pointerText (line.bufSize - 2) (CString.at (line.message.dropWhile fun c => c == 32))
    line.items ⟨0, none⟩

/-- The line stays inside its buffer exactly when its parts fit where they start. -/
theorem logLine_staysInside_iff (line : LogLine) :
    line.StaysInside doubleText pointerText ↔ line.Fits doubleText pointerText := by
  have large := line.large
  have follows : ∀ {buf : List UInt8} {m : Int}, buf.length = line.bufSize →
      Follows (Adverse (buf.drop (line.bufSize - 2)) m) (line.bufSize - 2)
        (slogArgs doubleText pointerText line.bufSize line.fmt (line.items.map fun item => item.value.arg))
        ⟨buf, 0, m, [0]⟩ (line.Fits doubleText pointerText)
        (fun _ after => ∀ i ∈ after.visited, 0 ≤ i ∧ i ≤ ((line.bufSize - 2 : Nat) : Int)) := by
    intro buf m length
    have start : Slog.At (line.bufSize - 2) (buf.drop (line.bufSize - 2)) m ⟨0, none⟩ ⟨buf, 0, m, [0]⟩ :=
      ⟨by rw [length]; omega, rfl, rfl, Nat.zero_le _, (by decide : 0 < 2 ^ 31), rfl, by simp, by simp⟩
    have call : slogArgs doubleText pointerText line.bufSize line.fmt (line.items.map fun item => item.value.arg) =
        (slogItems doubleText pointerText (line.bufSize - 2) (line.fmt.bytes.length + 1) line.fmt.bytes
          (line.items.map fun item => item.value.arg) >>= slogFinish (line.bufSize - 2)) :=
      if_neg (Nat.not_le.mpr large)
    rw [call]
    exact slogItems_follows doubleText pointerText (lt_of_le_of_lt (Nat.sub_le _ _) line.wide) line.spelled
      (Nat.lt_succ_self _) line.short start
  constructor
  · intro inside
    by_contra misfits
    have length : (List.replicate line.bufSize (65 : UInt8)).length = line.bufSize := List.length_replicate
    obtain ⟨res, after, run, kept⟩ := inside _ (-2 ^ 31) length (by decide) (by decide)
    have adverse : Adverse ((List.replicate line.bufSize (65 : UInt8)).drop (line.bufSize - 2)) (-2 ^ 31) := by
      refine ⟨?_, rfl⟩
      rw [List.drop_replicate]
      intro member
      exact absurd (List.eq_of_mem_replicate member) (by decide)
    obtain ⟨i, member, outside⟩ := (follows length).of_not adverse misfits res after run
    exact outside (kept i member)
  · exact fun fits buf m length _ _ => (follows length).of_fits fits

end Law

/-- The message `hello` in a buffer of six bytes. -/
def shortLine : LogLine where
  items := []
  message := [104, 101, 108, 108, 111]
  fmt := CString.at [104, 101, 108, 108, 111]
  bufSize := 6
  spelled := .message (Or.inl (by decide))
  short := by decide
  large := by decide
  wide := by decide

/-- The prefix of the message fills the space, and its length is counted again for the message. -/
theorem logLine_shortLine :
    ¬ ∀ (doubleText pointerText : Word → PrintedText) (line : LogLine), line.StaysInside doubleText pointerText := by
  intro claim
  have text : PrintedText := ⟨CString.at [], by decide⟩
  obtain ⟨res, after, run, -⟩ := claim (fun _ => text) (fun _ => text) shortLine (List.replicate 6 0) 0 rfl
    (by decide) (by decide)
  cases run

end Menoetius
