import Menoetius.HumanBounds
import Menoetius.HumanNumber

/-
This file says which arguments of the put command are accepted, and with which result.
-/

namespace Menoetius
open Ctype

/-- The optional at sign and time of an argument. -/
def atTime : Option CString → List UInt8
  | none => []
  | some w => 64 :: w.bytes

/-- An argument is a label set in braces, an equal sign, a value and an optional time. Behind its NUL byte
lies other memory. -/
structure PutText where
  name : CString
  labels : List KeyValue
  v : CString
  w : Option CString
  text : List UInt8
  count : Nat
  s : CString
  beyond : List UInt8
  braces : BracesText AnyLength name labels text
  whole : s.bytes = text ++ (blanks count ++ 61 :: (v.bytes ++ atTime w))
  value : ∀ c ∈ v.bytes, endsNumber c = false
  time : ∀ time ∈ w, ∀ c ∈ time.bytes, endsNumber c = false

/-- The array has room for the labels of an argument, and the counters have room for its tokens. -/
def PutText.HasRoom (argument : PutText) : Prop :=
  argument.labels.length ≤ 64 ∧ BracesText IsInt argument.name argument.labels argument.text ∧
    IsInt (argument.v.bytes.length + 1)

/-- The memory that an argument points to. -/
def PutText.raw (argument : PutText) : List UInt8 := argument.s.bytes ++ 0 :: argument.beyond

section Put
variable {Tm : Type} (strtod : CString → Word) (strptime : CString → Option Tm) (timegm : Tm → Int)

/-- The value and the time have the documented shape, and `strptime` knows the time. -/
def StrictPut (v : CString) (w : Option CString) : Prop :=
  StrictNumber v.bytes ∧ ∀ time ∈ w, StrictTimestamp time.bytes ∧ (strptime time).isSome = true

/-- The scanner takes the value for a number and the time for a timestamp, and `strptime` knows the time. -/
def LoosePut (v : CString) (w : Option CString) : Prop :=
  LooseNumber v.bytes ∧ ∀ time ∈ w, LooseTimestamp time.bytes ∧ (strptime time).isSome = true

theorem StrictPut.loose {v : CString} {w : Option CString} (strict : StrictPut strptime v w) :
    LoosePut strptime v w :=
  ⟨strict.1.loose, fun time member => ⟨(strict.2 time member).1.loose, (strict.2 time member).2⟩⟩

/-- Two texts that a class of characters ends are the same. -/
theorem class_unique {inside : UInt8 → Bool} {first second rest rest' : List UInt8}
    (same : first ++ rest = second ++ rest') (plain : ∀ c ∈ first, inside c = true)
    (plain' : ∀ c ∈ second, inside c = true) (ends : ∀ c ∈ rest.head?, inside c = false)
    (ends' : ∀ c ∈ rest'.head?, inside c = false) : first = second := by
  have taken : ∀ {chars behind : List UInt8}, (∀ c ∈ chars, inside c = true) →
      (∀ c ∈ behind.head?, inside c = false) → (chars ++ behind).takeWhile inside = chars := by
    intro chars behind all stops
    rw [List.takeWhile_append_of_pos all]
    cases behind with
    | nil => simp
    | cons c behind => simp [stops c rfl]
  rw [← taken plain ends, same, taken plain' ends']

/-- A token that starts with a digit class text is that whole text. -/
theorem numberText_whole {v rest : List UInt8} {count : Nat} {token : HumanToken} {lit : CString}
    {behind : List UInt8} (number : NumberText token lit) (whole : v ++ rest = blanks count ++ lit.bytes ++ behind)
    (bounds : ∀ c ∈ behind.head?, endsNumber c = true) (inside : ∀ c ∈ v, endsNumber c = false)
    (ends : ∀ c ∈ rest.head?, endsNumber c = true) (noBlank : rest.head? ≠ some 32) :
    count = 0 ∧ v = lit.bytes := by
  have start : count = 0 := by
    cases count with
    | zero => rfl
    | succ count =>
        cases v with
        | nil =>
            rw [List.nil_append] at whole
            exact absurd (by rw [whole]; rfl) noBlank
        | cons c v =>
            obtain ⟨rfl, -⟩ := List.cons.inj whole
            exact absurd (inside 32 List.mem_cons_self) (by decide)
  subst start
  refine ⟨rfl, ?_⟩
  exact @class_unique (fun c => !endsNumber c) _ _ _ _ whole (fun c member => by simp [inside c member])
    (fun c member => by simp [number.2.2.1 c member]) (fun c first => by simp [ends c first])
    (fun c first => by simp [bounds c first])

theorem atTime_head (w : Option CString) :
    (∀ c ∈ (atTime w).head?, endsNumber c = true) ∧ (atTime w).head? ≠ some 32 := by
  cases w with
  | none => simp [atTime]
  | some w => simp [atTime, endsNumber]

theorem atTime_nulFree (w : Option CString) : 0 ∉ atTime w := by
  cases w with
  | none => simp [atTime]
  | some w => simp [atTime, w.nulFree]

/-- A token of digits that the scanner finds in front is the whole value. -/
theorem scan_whole {v rest beyond behind : List UInt8} {token : HumanToken} {lit : CString}
    (nulFree : 0 ∉ v ++ rest) (inside : ∀ c ∈ v, endsNumber c = false)
    (ends : ∀ c ∈ rest.head?, endsNumber c = true) (noBlank : rest.head? ≠ some 32)
    (kind : token = .int lit ∨ token = .float lit ∨ token = .timestamp lit)
    (run : scan (v ++ rest ++ 0 :: beyond) = .ok (token, behind)) :
    v = lit.bytes ∧ NumberText token lit ∧ behind = rest ++ 0 :: beyond := by
  cases scans (v ++ rest) nulFree with
  | ended count whole read =>
      rw [read] at run
      cases run
      simp at kind
  | refuses failure own read =>
      rw [read] at run
      cases run
  | overruns count raw bytes whole unescapes =>
      rw [whole, List.append_assoc, List.append_assoc, List.cons_append] at run
      obtain ⟨other, rfl⟩ := scan_quote_token run
      simp at kind
  | reads count found text left whole spelled bounds read =>
      rw [read] at run
      obtain ⟨rfl, rfl⟩ : found = token ∧ left ++ 0 :: beyond = behind := by simpa using run
      obtain ⟨rfl, number⟩ : text = lit.bytes ∧ NumberText found lit := by
        rcases kind with rfl | rfl | rfl <;> exact spelled
      have stops : ∀ c ∈ left.head?, endsNumber c = true := by
        intro c first
        have stop := bounds c first
        rcases kind with rfl | rfl | rfl <;> simpa [HumanToken.continues] using stop
      obtain ⟨start, same⟩ := numberText_whole number whole stops inside ends noBlank
      rw [start, same, blanks, List.replicate_zero, List.nil_append] at whole
      exact ⟨same, number, by rw [List.append_cancel_left whole]⟩

/-- The time is read exactly when it is a loose timestamp that `strptime` knows. -/
theorem parseHumanTime_ok_iff (lfm : LFM) (y : Word) (w : CString) (inside : ∀ c ∈ w.bytes, endsNumber c = false)
    (beyond : List UInt8) (result : PutArgument) :
    parseHumanTime strptime timegm lfm y (w.bytes ++ 0 :: beyond) = .ok result ↔
      LooseTimestamp w.bytes ∧ ∃ tm, strptime w = some tm ∧ result = ⟨lfm, y, timegm tm, true⟩ := by
  constructor
  · intro run
    rw [parseHumanTime] at run
    cases read : scan (w.bytes ++ 0 :: beyond) with
    | error failure => simp [read] at run
    | ok first =>
        obtain ⟨token, behind⟩ := first
        rw [read, Except.ok_bind] at run
        cases token with
        | timestamp time =>
            obtain ⟨same, number, -⟩ := @scan_whole w.bytes [] beyond behind _ time
              (by simpa using w.nulFree) inside (by simp) (by simp) (Or.inr (Or.inr rfl)) (by simpa using read)
            obtain rfl : w = time := CString.ext_bytes same
            refine ⟨(timestampText_iff w inside).mp number, ?_⟩
            cases known : strptime w with
            | none => simp [parseTime, known, throw, throwThe, MonadExceptOf.throw] at run
            | some tm =>
                simp only [parseTime, known] at run
                cases run
                exact ⟨tm, rfl, rfl⟩
        | _ => cases run
  · rintro ⟨loose, tm, known, rfl⟩
    have number := (timestampText_iff w inside).mpr loose
    have read := scan_numberText number 0 0 beyond rfl
    rw [parseHumanTime, show scan (w.bytes ++ 0 :: beyond) = _ from read, Except.ok_bind]
    simp only [parseTime, known]
    rfl

/-- Behind the number, the argument is read when it ends or has a time that is read. -/
theorem parseHumanBehind_ok_iff (t : Int) (validT : Bool) (lfm : LFM) (y : Word) (w : Option CString)
    (inside : ∀ time ∈ w, ∀ c ∈ time.bytes, endsNumber c = false) (beyond : List UInt8)
    (result : PutArgument) :
    parseHumanBehind strptime timegm t validT lfm y (atTime w ++ 0 :: beyond) = .ok result ↔
      (∀ time ∈ w, LooseTimestamp time.bytes ∧ (strptime time).isSome = true) ∧
        result = ⟨lfm, y, ((w.bind strptime).map timegm).getD t, w.isSome || validT⟩ := by
  cases w with
  | none =>
      have ended : parseHumanBehind strptime timegm t validT lfm y (atTime none ++ 0 :: beyond) =
          .ok ⟨lfm, y, t, validT⟩ := rfl
      rw [ended]
      constructor
      · intro run
        cases run
        exact ⟨by simp, rfl⟩
      · rintro ⟨-, rfl⟩
        rfl
  | some w =>
      have later : parseHumanBehind strptime timegm t validT lfm y (atTime (some w) ++ 0 :: beyond) =
          parseHumanTime strptime timegm lfm y (w.bytes ++ 0 :: beyond) := rfl
      rw [later, parseHumanTime_ok_iff strptime timegm lfm y w (inside w rfl)]
      cases known : strptime w with
      | none => simp [known]
      | some tm => simp [known]

/-- The value is read exactly when the scanner takes it for a number and has room for it. -/
theorem parseHumanValue_ok_iff (t : Int) (validT : Bool) (lfm : LFM) (v : CString) (w : Option CString)
    (inside : ∀ c ∈ v.bytes, endsNumber c = false)
    (inside' : ∀ time ∈ w, ∀ c ∈ time.bytes, endsNumber c = false) (beyond : List UInt8)
    (result : PutArgument) :
    parseHumanValue strtod strptime timegm t validT lfm (v.bytes ++ atTime w ++ 0 :: beyond) = .ok result ↔
      IsInt (v.bytes.length + 1) ∧ LoosePut strptime v w ∧
        result = ⟨lfm, strtod v, ((w.bind strptime).map timegm).getD t, w.isSome || validT⟩ := by
  have nulFree : 0 ∉ v.bytes ++ atTime w := by simp [v.nulFree, atTime_nulFree]
  constructor
  · intro run
    cases read : scan (v.bytes ++ atTime w ++ 0 :: beyond) with
    | error failure =>
        rw [parseHumanValue, read] at run
        cases run
    | ok first =>
        obtain ⟨token, behind⟩ := first
        have numeric : ∃ lit, token = .int lit ∨ token = .float lit := by
          rw [parseHumanValue, read, Except.ok_bind] at run
          cases token with
          | int lit => exact ⟨lit, Or.inl rfl⟩
          | float lit => exact ⟨lit, Or.inr rfl⟩
          | _ => cases run
        obtain ⟨lit, kind⟩ := numeric
        obtain ⟨same, number, rfl⟩ := scan_whole nulFree inside (atTime_head w).1 (atTime_head w).2
          (kind.imp_right Or.inl) read
        obtain rfl : v = lit := CString.ext_bytes same
        rw [parseHumanValue_number strtod strptime timegm t validT kind read,
          parseHumanBehind_ok_iff strptime timegm t validT lfm _ w inside'] at run
        obtain ⟨loose, small⟩ := (numberText_iff v inside).mp ⟨token, kind, number⟩
        exact ⟨small, ⟨loose, run.1⟩, run.2⟩
  · rintro ⟨small, ⟨loose, stamp⟩, rfl⟩
    obtain ⟨token, kind, number⟩ := (numberText_iff v inside).mpr ⟨loose, small⟩
    have read : scan (v.bytes ++ atTime w ++ 0 :: beyond) = .ok (token, atTime w ++ 0 :: beyond) := by
      rw [List.append_assoc]
      cases w with
      | none => exact scan_numberText number 0 0 beyond rfl
      | some w => exact scan_numberText number 0 64 (w.bytes ++ 0 :: beyond) rfl
    rw [parseHumanValue_number strtod strptime timegm t validT kind read,
      parseHumanBehind_ok_iff strptime timegm t validT lfm _ w inside']
    exact ⟨stamp, rfl⟩

/-- An argument is accepted exactly when the parser has room for it and the scanner takes its value for a number and its
time for a timestamp. Without a time, the variables of the caller keep their values. -/
theorem putText_ok_iff (argument : PutText) (t : Int) (validT : Bool) (result : PutArgument) :
    parseHumanLfmAndValue strtod strptime timegm t validT argument.raw = .ok result ↔
      argument.HasRoom ∧ LoosePut strptime argument.v argument.w ∧
        result = ⟨sortedLfm argument.name argument.labels, strtod argument.v,
          ((argument.w.bind strptime).map timegm).getD t, argument.w.isSome || validT⟩ := by
  have nulFree := argument.s.nulFree
  rw [argument.whole, List.mem_append, not_or] at nulFree
  have helper := @parseHumanLfmHelper_braces AnyLength argument.name argument.labels argument.text
    (blanks argument.count ++ 61 :: (argument.v.bytes ++ atTime argument.w) ++ 0 :: argument.beyond)
    argument.braces nulFree.1 (by simp)
  rw [PutText.raw, argument.whole, List.append_assoc]
  by_cases fits : argument.labels.length ≤ 64 ∧ BracesText IsInt argument.name argument.labels argument.text
  · have run := (@parseHumanLfmHelper_braces IsInt argument.name argument.labels argument.text
      (blanks argument.count ++ 61 :: (argument.v.bytes ++ atTime argument.w) ++ 0 :: argument.beyond)
      fits.2 nulFree.1 (by simp)).run fits.1 fun _ small => small
    rw [parseHumanLfmAndValue_of_ok strtod strptime timegm t validT run,
      scan_char rfl argument.count _ (0 :: argument.beyond), Except.ok_bind]
    simp only [ne_eq, not_true_eq_false, if_false]
    rw [parseHumanValue_ok_iff strtod strptime timegm t validT _ argument.v argument.w argument.value
      argument.time]
    exact ⟨fun ⟨small, rest⟩ => ⟨⟨fits.1, fits.2, small⟩, rest⟩, fun ⟨room, rest⟩ => ⟨room.2.2, rest⟩⟩
  · rcases helper with ⟨room, short, -⟩ | ⟨stops, -⟩
    · exact absurd ⟨room, short⟩ fits
    · rw [parseHumanLfmAndValue_of_error strtod strptime timegm t validT stops]
      refine ⟨fun run => ?_, fun ⟨room, _⟩ => absurd ⟨room.1, room.2.1⟩ fits⟩
      cases run

/-- The variables that an accepted argument has not set keep their values. -/
def PutArgument.keeping (t : Int) (validT : Bool) (argument : PutArgument) : PutArgument :=
  if argument.validT then argument else { argument with t := t, validT := validT }

/-- The initial values of the variables do nothing but stay. -/
theorem parseHumanLfmAndValue_keeping (t : Int) (validT : Bool) (s : List UInt8) :
    parseHumanLfmAndValue strtod strptime timegm t validT s =
      (parseHumanLfmAndValue strtod strptime timegm 0 false s).map (PutArgument.keeping t validT) := by
  have time : ∀ (lfm : LFM) (y : Word) (s : List UInt8), parseHumanTime strptime timegm lfm y s =
      (parseHumanTime strptime timegm lfm y s).map (PutArgument.keeping t validT) := by
    intro lfm y s
    rw [parseHumanTime]
    cases scan s with
    | error failure => rfl
    | ok first =>
        obtain ⟨token, s⟩ := first
        cases token with
        | timestamp time =>
            rw [Except.ok_bind]
            simp only [parseTime]
            cases strptime time <;> rfl
        | _ => rfl
  have behind : ∀ (lfm : LFM) (y : Word) (s : List UInt8), parseHumanBehind strptime timegm t validT lfm y s =
      (parseHumanBehind strptime timegm 0 false lfm y s).map (PutArgument.keeping t validT) := by
    intro lfm y s
    rw [parseHumanBehind, parseHumanBehind]
    cases scan s with
    | error failure => rfl
    | ok first =>
        obtain ⟨token, s⟩ := first
        cases token with
        | atSign => exact time lfm y s
        | _ => rfl
  rw [parseHumanLfmAndValue, parseHumanLfmAndValue]
  cases parseHumanLfmHelper s with
  | error failure => rfl
  | ok first =>
      obtain ⟨lfm, s⟩ := first
      simp only [Except.ok_bind]
      cases scan s with
      | error failure => rfl
      | ok second =>
          obtain ⟨token, s⟩ := second
          simp only [Except.ok_bind]
          split_ifs with wrong
          · rfl
          · rw [parseHumanValue, parseHumanValue]
            cases scan s with
            | error failure => rfl
            | ok third =>
                obtain ⟨token, s⟩ := third
                cases token with
                | int lit => exact behind lfm (strtod lit) s
                | float lit => exact behind lfm (strtod lit) s
                | _ => rfl

/-- What a caller may read: the time only where the flag says that there is one. -/
def PutArgument.seen (argument : PutArgument) : LFM × Word × Option Int :=
  (argument.lfm, argument.y, if argument.validT then some argument.t else none)

/-- The argument is accepted exactly in the documented shape, and the flag says whether it has a time. -/
def PutText.Lawful (argument : PutText) : Prop :=
  ∀ t validT, ((∃ result, parseHumanLfmAndValue strtod strptime timegm t validT argument.raw = .ok result) ↔
      StrictPut strptime argument.v argument.w) ∧
    ∀ result, parseHumanLfmAndValue strtod strptime timegm t validT argument.raw = .ok result →
      result.validT = argument.w.isSome

/-- Each argument is lawful, and a list of them gives each the result that it has alone. -/
def PutLaw (arguments : List PutText) : Prop :=
  (∀ argument ∈ arguments, argument.Lawful strtod strptime timegm) ∧
    ∀ time i t hasT t' hasT',
      (parsePutArguments strtod strptime timegm time i t hasT (arguments.map PutText.raw)).map
          (List.map PutArgument.seen) =
        arguments.mapM fun argument =>
          (parseHumanLfmAndValue strtod strptime timegm t' hasT' argument.raw).map PutArgument.seen

/-- What the scanner takes has the documented shape and a time, and the parser has room for an argument in that
shape. -/
def PutText.Exact (argument : PutText) : Prop :=
  (argument.HasRoom → LoosePut strptime argument.v argument.w →
      StrictPut strptime argument.v argument.w ∧ argument.w.isSome = true) ∧
    (StrictPut strptime argument.v argument.w → argument.HasRoom)

theorem putText_lawful_iff (argument : PutText) :
    argument.Lawful strtod strptime timegm ↔ argument.Exact strptime := by
  have accepted : ∀ t validT, (∃ result, parseHumanLfmAndValue strtod strptime timegm t validT argument.raw =
      .ok result) ↔ argument.HasRoom ∧ LoosePut strptime argument.v argument.w := by
    intro t validT
    simp only [putText_ok_iff]
    exact ⟨fun ⟨_, room, loose, _⟩ => ⟨room, loose⟩, fun ⟨room, loose⟩ => ⟨_, room, loose, rfl⟩⟩
  constructor
  · intro lawful
    refine ⟨fun room loose => ?_, fun strict => ((accepted 0 true).mp ((lawful 0 true).1.mpr strict)).1⟩
    obtain ⟨result, run⟩ := (accepted 0 true).mpr ⟨room, loose⟩
    -- The flag is set in front of the call, so that a result without a time would show it.
    have flag := (lawful 0 true).2 result run
    obtain ⟨-, -, rfl⟩ := (putText_ok_iff strtod strptime timegm argument 0 true result).mp run
    exact ⟨(lawful 0 true).1.mp ⟨_, run⟩, by simpa using flag.symm⟩
  · rintro ⟨shaped, room⟩ t validT
    refine ⟨(accepted t validT).trans ⟨fun ⟨few, loose⟩ => (shaped few loose).1,
      fun strict => ⟨room strict, strict.loose⟩⟩, fun result run => ?_⟩
    obtain ⟨few, loose, rfl⟩ := (putText_ok_iff strtod strptime timegm argument t validT result).mp run
    simp [(shaped few loose).2]

/-- A lawful argument is parsed in the same way from all initial values. -/
theorem PutText.Lawful.same {argument : PutText} (lawful : argument.Lawful strtod strptime timegm)
    (t t' : Int) (validT validT' : Bool) :
    parseHumanLfmAndValue strtod strptime timegm t validT argument.raw =
      parseHumanLfmAndValue strtod strptime timegm t' validT' argument.raw := by
  have fixed : ∀ t validT, parseHumanLfmAndValue strtod strptime timegm t validT argument.raw =
      parseHumanLfmAndValue strtod strptime timegm 0 false argument.raw := by
    intro t validT
    rw [parseHumanLfmAndValue_keeping]
    cases run : parseHumanLfmAndValue strtod strptime timegm 0 false argument.raw with
    | error failure => rfl
    | ok result =>
        have timed := (lawful 0 true).2 (result.keeping 0 true)
          (by rw [parseHumanLfmAndValue_keeping, run]; rfl)
        rw [← (lawful 0 false).2 result run] at timed
        have flag : result.validT = true := by
          by_contra unset
          simp [PutArgument.keeping, unset] at timed
        simp [Except.map, PutArgument.keeping, flag]
  rw [fixed, fixed t']

/-- Lawful arguments have the same results in a list as alone. -/
theorem parsePutArguments_lawful {arguments : List PutText}
    (lawful : ∀ argument ∈ arguments, argument.Lawful strtod strptime timegm) (time : Nat → Int) (i : Nat)
    (t t' : Int) (hasT hasT' : Bool) :
    (parsePutArguments strtod strptime timegm time i t hasT (arguments.map PutText.raw)).map
        (List.map PutArgument.seen) =
      arguments.mapM fun argument =>
        (parseHumanLfmAndValue strtod strptime timegm t' hasT' argument.raw).map PutArgument.seen := by
  induction arguments generalizing i t hasT with
  | nil => rfl
  | cons argument arguments ih =>
      have alone := (lawful argument List.mem_cons_self).same strtod strptime timegm t t' hasT hasT'
      rw [List.map_cons, parsePutArguments, List.mapM_cons, ← alone]
      cases parseHumanLfmAndValue strtod strptime timegm t hasT argument.raw with
      | error failure => rfl
      | ok result =>
          have later := ih (fun other member => lawful other (List.mem_cons_of_mem argument member)) (i + 1)
            (if result.validT then result.t else time i) result.validT
          have seen : (Except.ok result : Except Failure PutArgument).map PutArgument.seen = .ok result.seen := rfl
          rw [seen, Except.ok_bind, Except.ok_bind, ← later]
          dsimp only
          cases parsePutArguments strtod strptime timegm time (i + 1)
            (if result.validT then result.t else time i) result.validT (arguments.map PutText.raw) <;> rfl

/-- The put command follows its documentation on a list of arguments exactly when each of them is
exact. -/
theorem humanPut_law_iff (arguments : List PutText) :
    PutLaw strtod strptime timegm arguments ↔ ∀ argument ∈ arguments, argument.Exact strptime := by
  simp only [← putText_lawful_iff strtod strptime timegm]
  exact ⟨And.left, fun lawful => ⟨lawful, fun time i t hasT t' hasT' =>
    parsePutArguments_lawful strtod strptime timegm lawful time i t t' hasT hasT'⟩⟩

end Put

/-- The argument `a{}=5`. -/
def bareValue : PutText where
  name := CString.at [97]
  labels := []
  v := CString.at [53]
  w := none
  text := [97, 123, 125]
  count := 0
  s := CString.at [97, 123, 125, 61, 53]
  beyond := []
  braces := ⟨[97], 0, [125], .present 0 (by decide) trivial, .close 0, rfl⟩
  whole := rfl
  value := List.forall_mem_singleton.mpr rfl
  time := by simp

/-- A flag that is set in front of the call stays set for an argument without a time. -/
theorem humanPut_staleFlag :
    ¬ PutLaw (fun _ => 0x4014000000000000#64) (fun _ => (none : Option Unit)) (fun _ => 0) [bareValue] := by
  intro law
  have flag := (law.1 bareValue List.mem_cons_self 0 true).2 _ rfl
  cases flag

end Menoetius
