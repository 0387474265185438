import Menoetius.Globals
import Menoetius.Lib.Fields

/-
This file models the label sets of `lfm.c` and the binary form of `lfm_binary_parser.c`.
-/

namespace Menoetius

/-- A string that a NUL byte ends in memory, without that byte. -/
structure CString where
  bytes : List UInt8
  nulFree : 0 ∉ bytes
  deriving DecidableEq

theorem CString.ext_bytes {first second : CString} (same : first.bytes = second.bytes) : first = second := by
  cases first
  cases second
  cases same
  rfl

theorem nul_not_mem_takeWhile (memory : List UInt8) : 0 ∉ memory.takeWhile fun byte => byte != 0 :=
  fun mem => absurd (List.all_eq_true.mp List.all_takeWhile 0 mem) (by decide)

/-- The string at an address, where `strlen` stops at the first NUL byte. -/
def CString.at (memory : List UInt8) : CString := ⟨memory.takeWhile fun byte => byte != 0, nul_not_mem_takeWhile memory⟩

/-- A text without a NUL byte is its own string. -/
theorem CString.at_bytes (text : CString) : CString.at text.bytes = text := by
  apply CString.ext_bytes
  apply List.takeWhile_eq_self_iff.mpr
  intro byte member
  exact bne_iff_ne.mpr (ne_of_mem_of_not_mem member text.nulFree)

/-- `strcmp` compares the bytes as unsigned numbers. -/
def strcmp (first second : CString) : Ordering := compare first.bytes second.bytes

/-- One label of a label set. -/
structure KeyValue where
  key : CString
  value : CString
  deriving DecidableEq

/-- A label set with its metric name, which may be `NULL`. -/
structure LFM where
  name : Option CString
  labels : List KeyValue
  deriving DecidableEq

/-- A label set under construction with the room in its array of labels. -/
structure LFM.Growing extends LFM where
  maxNumLabels : Nat

/-- `lfm_new` makes room for 64 labels. -/
def lfmNew (name : Option CString) : LFM.Growing := { name := name, labels := [], maxNumLabels := 64 }

/-- This is `lfm_add_label_unsorted`. -/
def lfmAddLabelUnsorted (lfm : LFM.Growing) (key value : CString) : Except Failure LFM.Growing :=
  if lfm.maxNumLabels ≤ lfm.labels.length then
    -- `realloc` is given a pointer of `my_malloc`, which lies behind the one that `malloc` returned.
    if 0 < lfm.maxNumLabels then throw (.abort .memory) else throw (.abort .lfmAddLabel)
  else
    pure { lfm with labels := lfm.labels ++ [⟨key, value⟩] }

/-- `key_value_cmp` compares the keys. -/
def keyValueCmp (first second : KeyValue) : Ordering := strcmp first.key second.key

/-- `lfm_sort_labels` sorts the labels by their keys. -/
def lfmSortLabels (lfm : LFM) : LFM :=
  { lfm with labels := lfm.labels.mergeSort fun first second => (keyValueCmp first second).isLE }

theorem lfmSortLabels_perm (lfm : LFM) : (lfmSortLabels lfm).labels.Perm lfm.labels := List.mergeSort_perm _ _

/-- The order of the keys is total, so that the sort succeeds. -/
theorem lfmSortLabels_pairwise (lfm : LFM) :
    (lfmSortLabels lfm).labels.Pairwise fun first second => (keyValueCmp first second).isLE = true := by
  apply List.pairwise_mergeSort
  · exact fun _ _ _ => @Std.TransCmp.isLE_trans (List UInt8) compare _ _ _ _
  · intro first second
    simp only [keyValueCmp, strcmp]
    rw [@Std.OrientedCmp.eq_swap (List UInt8) compare _ second.key.bytes]
    cases compare first.key.bytes second.key.bytes <;> rfl

/-- The variables of the loop in `parse_binary_lfm`. -/
structure ParseState where
  index : Nat
  lfm : Option LFM.Growing
  key : Option CString

/-- One turn of the loop copies a field and takes it. The length with the NUL byte is an `int`. -/
def parseField (state : ParseState) (field : CString) : Except Failure ParseState :=
  if 2 ^ 31 ≤ field.bytes.length + 1 then throw (.abort .memory)
  else if state.index = 0 then
    pure { index := 1, lfm := some (lfmNew (some field)), key := state.key }
  else
    match state.lfm with
    | none => throw (.abort .parseBinaryLfm)
    | some lfm =>
        if state.index % 2 = 1 then pure { state with index := state.index + 1, key := some field }
        else match state.key with
          | none => throw (.abort .memory)
          | some key => do
              let lfm ← lfmAddLabelUnsorted lfm key field
              pure { index := state.index + 1, lfm := some lfm, key := none }

/-- The loop stops where no byte remains. -/
def parseFields (state : ParseState) : Nat → List UInt8 → Except Failure ParseState
  | 0, _ => pure state
  | fuel + 1, bytes =>
      if bytes = [] then pure state
      else do
        let field := CString.at bytes
        let state ← parseField state field
        parseFields state fuel (bytes.drop (field.bytes.length + 1))

/-- `parse_binary_lfm` reads the bytes of a label set. -/
def parseBinaryLfm (bytes : List UInt8) : Except Failure LFM := do
  let state ← parseFields { index := 0, lfm := none, key := none } bytes.length bytes
  if state.key ≠ none then throw (.code (.res 1))
  else pure (lfmSortLabels ((state.lfm.getD (lfmNew none)).toLFM))

/-- The length of a string, which is zero for `NULL`. -/
def nameBytes : Option CString → List UInt8
  | none => []
  | some name => name.bytes

/-- The sum `m += amount` is converted to an `int`. -/
def addToInt (sum : Int) (amount : Nat) : Int := Int.bmod (sum + amount) (2 ^ 32)

/-- `encode_binary_lfm` counts the bytes, allocates as many and copies the strings. -/
def encodeBinaryLfm (lfm : LFM) : Except Failure (List UInt8) :=
  let count := lfm.labels.foldl (fun sum label =>
    addToInt (addToInt (addToInt sum 2) label.key.bytes.length) label.value.bytes.length)
    (addToInt 0 (nameBytes lfm.name).length)
  let copied := nameBytes lfm.name ++
    lfm.labels.flatMap fun label => 0 :: label.key.bytes ++ 0 :: label.value.bytes
  -- A negative count asks for more memory than there is, and one that is too small ends inside the strings.
  if (copied.length : Int) ≤ count then pure copied else throw (.abort .memory)

end Menoetius
