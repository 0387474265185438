import Menoetius.Lfm
import Menoetius.Lib.Ctype

/-
This file models `option_parser.c`. The argument vector holds its strings and then `NULL`.
-/

namespace Menoetius
open Ctype

/-- The kinds of options. `OPTION_END` is the end of the table. -/
inductive OptionType where
  | integer
  | string
  | flag
  deriving DecidableEq

/-- One entry of an option table. The field `value` numbers the variable that it points to. -/
structure CommandOption where
  shortName : UInt8
  longName : CString
  value : Nat
  type : OptionType
  choices : List CString

/-- The cursor `*argv` and the memory that the parser writes. -/
structure OptionState where
  argv : Nat
  ints : Nat → BitVec 32
  strings : Nat → Option CString
  stderr : List (List UInt8)

abbrev OptionM := EStateM Failure OptionState

/-- The bytes of a text of the source. -/
def textBytes (text : String) : List UInt8 := text.toList.map fun char => UInt8.ofNat char.toNat

def fprintfStderr (message : List UInt8) : OptionM Unit :=
  modify fun state => { state with stderr := state.stderr ++ [message] }

/-- The entry `**argv` is a string or the final `NULL`. -/
def argvEntry (args : List CString) : OptionM (Option CString) := fun state =>
  if state.argv < args.length then .ok args[state.argv]? state
  else if state.argv = args.length then .ok none state
  else .error (.abort .memory) state

/-- The statement `( *argv )++`. -/
def nextArg : OptionM Unit := modify fun state => { state with argv := state.argv + 1 }

/-- A string function reads the string of a pointer. -/
def readString : Option CString → OptionM CString
  | some text => pure text
  | none => throw (.abort .memory)

/-- The test of the first statement compares `*argv`, which is never `NULL`. -/
def applyValueInt (args : List CString) (opt : CommandOption) : OptionM Int := do
  let entry ← argvEntry args
  nextArg
  let s ← readString entry
  if atoi s.bytes = 0#32 ∧ s.bytes ≠ [48] then do
    fprintfStderr (textBytes "value passed to --" ++ opt.longName.bytes ++ textBytes " (" ++ s.bytes ++
      textBytes ") is not valid\n")
    return -1
  else do
    modify fun state => { state with ints := Function.update state.ints opt.value (atoi s.bytes) }
    return 0

def applyValueString (args : List CString) (opt : CommandOption) : OptionM Int := do
  let entry ← argvEntry args
  if opt.choices = [] then do
    modify fun state => { state with strings := Function.update state.strings opt.value entry }
    nextArg
    return 0
  else do
    let s ← readString entry
    if s ∈ opt.choices then do
      modify fun state => { state with strings := Function.update state.strings opt.value entry }
      nextArg
      return 0
    else do
      fprintfStderr (textBytes "invalid " ++ opt.longName.bytes ++ textBytes " value \"" ++ s.bytes ++
        textBytes "\"\nTry --help for more information.\n")
      return 1

def applyValueFlag (opt : CommandOption) : OptionM Int := do
  modify fun state =>
    { state with ints := Function.update state.ints opt.value (state.ints opt.value + 1#32) }
  return 0

def applyValue (args : List CString) (opt : CommandOption) : OptionM Int :=
  match opt.type with
  | .integer => applyValueInt args opt
  | .string => applyValueString args opt
  | .flag => applyValueFlag opt

def getOptionLong (options : List CommandOption) (longName : List UInt8) : Option CommandOption :=
  options.find? fun opt => opt.longName.bytes == longName

def getOptionShort (options : List CommandOption) (shortName : UInt8) : Option CommandOption :=
  if shortName = 0 then none else options.find? fun opt => opt.shortName == shortName

def parseLongArg (args : List CString) (options : List CommandOption) (longName : List UInt8) :
    OptionM Int :=
  match getOptionLong options longName with
  | none => do
      fprintfStderr (textBytes "--" ++ longName ++ textBytes " is not a valid flag\n")
      return -1
  | some opt => applyValue args opt

def parseShortArg (args : List CString) (options : List CommandOption) (shortName : UInt8) :
    OptionM Int :=
  match getOptionShort options shortName with
  | none => do
      fprintfStderr (textBytes "-" ++ [shortName] ++ textBytes " is not a valid flag\n")
      return -1
  | some opt => applyValue args opt

/-- The length is an `int`. -/
def startsOption (s : CString) : Bool :=
  1 < Int.bmod s.bytes.length (2 ^ 32) && s.bytes.head? == some 45

/-- The loop decides by the second character of an argument that has one. -/
def parseArg (args : List CString) (options : List CommandOption) (s : CString) : OptionM Int :=
  match s.bytes.drop 1 with
  | 45 :: longName => parseLongArg args options longName
  | rest => parseShortArg args options (rest.headD 0)

/-- One turn of the loop returns from the function or goes on with the next entry. -/
def parseOptionsTurn (args : List CString) (options : List CommandOption) : OptionM (Option Int) := do
  let entry ← argvEntry args
  match entry with
  | none => return some 0
  | some s =>
      if startsOption s then do
        nextArg
        let res ← parseArg args options s
        if res ≠ 0 then return some res else return none
      else return some 0

/-- The loop of `parse_options`, which returns `none` when it is still running. -/
def parseOptionsLoop (args : List CString) (options : List CommandOption) : Nat → OptionM (Option Int)
  | 0 => return none
  | turns + 1 => do
      let result ← parseOptionsTurn args options
      match result with
      | some res => return some res
      | none => parseOptionsLoop args options turns

/-- Each turn passes an entry, and the last one finds `NULL`. -/
def parseOptions (args : List CString) (options : List CommandOption) : OptionM (Option Int) :=
  parseOptionsLoop args options (args.length + 1)

end Menoetius
