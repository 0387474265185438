import Menoetius.HumanScan
import Menoetius.Bitstream

/-
This file models the parsers and the encoder of `lfm_human_parser.c`.
-/

namespace Menoetius

/-- The loop of `parse_human_lfm_helper` reads one label a turn. Its first token is a key or the
closing brace, and its last one a comma or the closing brace. -/
def parseHumanLabels : Nat → LFM.Growing → List UInt8 → Except Failure (LFM.Growing × List UInt8)
  | 0, _, _ => throw (.abort .parseHumanLfm)
  | turns + 1, lfm, s => do
      let (first, s) ← scan s
      match first with
      | .closeBrace => return (lfm, s)
      | .identifier key => do
          let (second, s) ← scan s
          if second ≠ .equal then throw (.code (.res 1))
          else do
            let (third, s) ← scan s
            match third with
            | .quotedString value => do
                let lfm ← lfmAddLabelUnsorted lfm key value
                let (last, s) ← scan s
                match last with
                | .closeBrace => return (lfm, s)
                | .comma => parseHumanLabels turns lfm s
                | _ => throw (.code (.res 1))
            | _ => throw (.code (.res 1))
      | _ => throw (.code (.res 1))

/-- The labels follow an opening brace. Each turn of their loop consumes a token. -/
def parseHumanBraces (name : CString) (s : List UInt8) : Except Failure (LFM × List UInt8) := do
  let (lfm, s) ← parseHumanLabels (s.length + 1) (lfmNew (some name)) s
  return (lfmSortLabels lfm.toLFM, s)

/-- `parse_human_lfm_helper` returns the label set and the moved pointer. -/
def parseHumanLfmHelper (s : List UInt8) : Except Failure (LFM × List UInt8) := do
  let (first, s) ← scan s
  match first with
  | .identifier name => do
      let (second, s) ← scan s
      match second with
      | .openBrace => parseHumanBraces name s
      | .eof => return (lfmSortLabels (lfmNew (some name)).toLFM, s)
      | _ => throw (.code (.res 1))
  | .openBrace => parseHumanBraces (CString.at []) s
  | _ => throw (.code (.res 1))

def parseHumanLfm (s : List UInt8) : Except Failure LFM := do
  let (lfm, _) ← parseHumanLfmHelper s
  return lfm

/-- The variables of the caller that one argument of the put command fills. -/
structure PutArgument where
  lfm : LFM
  y : Word
  t : Int
  validT : Bool
  deriving DecidableEq

section Put
variable {Tm : Type} (strtod : CString → Word) (strptime : CString → Option Tm) (timegm : Tm → Int)

/-- `parse_time` does not look at the characters that `strptime` leaves over. -/
def parseTime (s : CString) : Except Failure Int :=
  match strptime s with
  | none => throw (.code (.res 1))
  | some tm => return timegm tm

/-- The time behind the at sign ends the argument. -/
def parseHumanTime (lfm : LFM) (y : Word) (s : List UInt8) : Except Failure PutArgument := do
  let (token, _) ← scan s
  match token with
  | .timestamp time => do
      let t ← parseTime strptime timegm time
      return ⟨lfm, y, t, true⟩
  | _ => throw (.code (.res 1))

/-- The end or an at sign follows the number. The flag `*valid_t` is only ever set. -/
def parseHumanBehind (t : Int) (validT : Bool) (lfm : LFM) (y : Word) (s : List UInt8) :
    Except Failure PutArgument := do
  let (token, s) ← scan s
  match token with
  | .eof => return ⟨lfm, y, t, validT⟩
  | .atSign => parseHumanTime strptime timegm lfm y s
  | _ => throw (.code (.res 1))

/-- The number follows the equal sign. -/
def parseHumanValue (t : Int) (validT : Bool) (lfm : LFM) (s : List UInt8) :
    Except Failure PutArgument := do
  let (token, s) ← scan s
  match token with
  | .int lit | .float lit => parseHumanBehind strptime timegm t validT lfm (strtod lit) s
  | _ => throw (.code (.res 1))

/-- `parse_human_lfm_and_value` starts from the values that `*t` and `*valid_t` have. -/
def parseHumanLfmAndValue (t : Int) (validT : Bool) (s : List UInt8) : Except Failure PutArgument := do
  let (lfm, s) ← parseHumanLfmHelper s
  let (token, s) ← scan s
  if token ≠ .equal then throw (.code (.res 1))
  else parseHumanValue strtod strptime timegm t validT lfm s

/-- The loop of `run_put` parses its arguments into the same variables. `time` is the clock at each turn. -/
def parsePutArguments (time : Nat → Int) :
    Nat → Int → Bool → List (List UInt8) → Except Failure (List PutArgument)
  | _, _, _, [] => return []
  | i, t, hasT, rawLfm :: argv => do
      let argument ← parseHumanLfmAndValue strtod strptime timegm t hasT rawLfm
      let t := if argument.validT then argument.t else time i
      let later ← parsePutArguments time (i + 1) t argument.validT argv
      return argument :: later

end Put

/-- One label as `encode_human_lfm` prints it, without the brace or comma before it. -/
def encodeHumanLabel (label : KeyValue) : List UInt8 :=
  label.key.bytes ++ [61, 34] ++ label.value.bytes ++ [34]

/-- The labels as `encode_human_lfm` prints them. -/
def encodeHumanLabels : List KeyValue → List UInt8
  | [] => []
  | label :: labels =>
      [123] ++ encodeHumanLabel label ++ labels.flatMap (fun label => [44] ++ encodeHumanLabel label) ++
        [125]

/-- `encode_human_lfm` counts the bytes that it may need in an `int`, allocates as many and prints the strings
as they are. -/
def encodeHumanLfm (lfm : LFM) : Except Failure (List UInt8) :=
  let count := lfm.labels.foldl (fun sum label =>
    addToInt (addToInt (addToInt sum 10) label.key.bytes.length) label.value.bytes.length)
    (addToInt 0 (nameBytes lfm.name).length)
  let text := nameBytes lfm.name ++ encodeHumanLabels lfm.labels
  if (text.length : Int) + 1 ≤ addToInt count 1 then return text else throw (.abort .memory)

end Menoetius
