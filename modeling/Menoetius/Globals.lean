import Menoetius.Lib.ErrorState

/-
This file lists the error codes and the places where the process stops.
-/

namespace Menoetius

/-- The error codes of `globals.h`, and the plain numbers that `disk_storage.c` returns. -/
inductive Err where
  | unknown
  | bitstreamBadValue
  | bitstreamOutOfSpace
  | tscOutOfSpace
  | tscUnknown
  | tscIterDone
  | lookupFailed
  | tooManyPoints
  | outOfOrderTimestamp
  | structuredStreamBufTooSmall
  | structuredStreamEof
  | structuredStreamBufUnderrun
  | bufTooSmall
  | badIndex
  | res (number : Nat)
  deriving DecidableEq, Repr

/-- Each constructor names one `assert`, one `abort` or one access outside a buffer. -/
inductive Abort where
  | memory
  | bitMask
  | bitstreamLowMask
  | bitstreamSignedWidth
  | tscInitSize
  | tscNumValidBits
  | tscLeadingZeros
  | tscSigBits
  | tscIsClear
  | tscLoadBlock
  | lseek
  | fileTooLarge
  | mustRead
  | crashTest
  | getPoolId
  | openEndPosition
  | openEofOffset
  | readBlocksOffset
  | readBlocksShort
  | readBlockHeader
  | readBlockShort
  | recoverSeek
  | writeScratchSeek
  | writeBlockOffset
  | writeBlockStatus
  | writeBlockHeader
  | writeBlockSize
  | reserveBlockOffset
  | releaseBlockOffset
  | releaseBlockEmpty
  | releaseBlockHeader
  | storageGetItemKey
  | storageNextInternalId
  | storageWriteDiskPoints
  | storageWriteDiskTime
  | storageWriteDiskOffset
  | storageWriteDiskStart
  | storageWriteRetry
  | storageGetRead
  | storageGetActive
  | storageGetId
  | storageTrimOffset
  | storageTrimRemaining
  | storageDeleteOffset
  | storageInsertOffset
  | storageAttachKey
  | storageLoadStatus
  | storageLoadTime
  | storageLoadLastBlock
  | storageLoadKeySize
  | storageLoadKey
  | storageLoadRelease
  | storageLoadUnknownKey
  | storageLoadOffsets
  | storageLoadLastOffset
  | ensureReadSpace
  | ensureReadRounds
  | readCursor
  | parseBinaryLfm
  | lfmAddLabel
  | getKeyValueFound
  | treeDiscrepancy
  | treeDeleteMissing
  | treeDeleteOther
  | storageInsertLast
  | storageDeleteFirst
  | storageDeleteLast
  | storageLookupKey
  | stringEnd
  | parseHumanLfm
  | myFree
  | myRealloc
  | appendQuotedString
  | slogValueFmt
  | slogFormat
  | slogEnd
  | vaArg
  deriving DecidableEq, Repr

/-- A call fails by returning a code, or by stopping the process. -/
inductive Failure where
  | code (err : Err)
  | abort (site : Abort)
  deriving DecidableEq, Repr

/-- The longest key that the request handler passes on. -/
def maxLfmSize : Nat := 1024

/-- A failed `assert` stops the process at its site. -/
def require {σ : Type} (condition : Prop) [Decidable condition] (site : Abort) :
    EStateM Failure σ Unit :=
  if condition then pure () else throw (.abort site)

@[simp] theorem require_apply {σ : Type} (condition : Prop) [Decidable condition] (site : Abort)
    (state : σ) :
    (require condition site : EStateM Failure σ Unit) state =
      if condition then .ok () state else .error (.abort site) state := by
  unfold require
  split <;> rfl

/-- A passed check changes nothing. -/
theorem require_bind {σ α : Type} {condition : Prop} [Decidable condition] {site : Abort}
    (holds : condition) (next : Unit → EStateM Failure σ α) :
    (require condition site >>= next) = next () := by
  funext state
  simp [holds]

/-- A check before a run that succeeds has passed. -/
theorem of_require_bind {σ α : Type} {condition : Prop} [Decidable condition] {site : Abort}
    {next : Unit → EStateM Failure σ α} {state after : σ} {value : α}
    (run : (require condition site >>= next) state = .ok value after) :
    condition ∧ next () state = .ok value after := by
  by_cases holds : condition
  · rw [require_bind holds] at run
    exact ⟨holds, run⟩
  · have failed : (require condition site : EStateM Failure σ Unit) state =
        .error (.abort site) state := by rw [require_apply, if_neg holds]
    rw [EStateM.bind_error failed] at run
    cases run

/-- The caller looks at the returned code, where `none` is `ERR_OK`. A stop stops the caller too. -/
def resultCode {σ : Type} (action : EStateM Failure σ Unit) : EStateM Failure σ (Option Err) :=
  fun state =>
    match action state with
    | .ok _ after => .ok none after
    | .error (.code err) after => .ok (some err) after
    | .error (.abort site) after => .error (.abort site) after

/-- The caller stops when the call returns a code. -/
def mustSucceed {σ α : Type} (action : EStateM Failure σ α) (site : Abort) : EStateM Failure σ α :=
  fun state =>
    match action state with
    | .ok value after => .ok value after
    | .error (.code _) after => .error (.abort site) after
    | .error (.abort other) after => .error (.abort other) after

/-- A pure part of a function, with its failures. -/
def ofExcept {σ α : Type} : Except Failure α → EStateM Failure σ α
  | .ok value => pure value
  | .error failure => throw failure

theorem resultCode_ok {σ : Type} {action : EStateM Failure σ Unit} {state after : σ}
    (run : action state = .ok () after) : resultCode action state = .ok none after := by
  rw [resultCode, run]

theorem resultCode_code {σ : Type} {action : EStateM Failure σ Unit} {state after : σ} {err : Err}
    (run : action state = .error (.code err) after) :
    resultCode action state = .ok (some err) after := by
  rw [resultCode, run]

/-- A caller that looks at the code goes on after every code. -/
theorem resultCode_ends {σ : Type} {action : EStateM Failure σ Unit} {state : σ}
    {post : Option Err → σ → Prop} {stop : Failure → σ → Prop}
    (ends : action.Ends state (fun _ after => post none after) fun failure after =>
      match failure with
      | .code err => post (some err) after
      | .abort site => stop (.abort site) after) :
    (resultCode action).Ends state post stop := by
  cases run : action state with
  | ok value after =>
      exact EStateM.ends_of_ok (by rw [resultCode, run]) (ends.of_ok run)
  | error failure after =>
      cases failure with
      | code err => exact EStateM.ends_of_ok (by rw [resultCode, run]) (ends.of_error run)
      | abort site => exact EStateM.ends_of_error (by rw [resultCode, run]) (ends.of_error run)

/-- A call that never returns a code goes on as it is. -/
theorem resultCode_ends_abort {σ : Type} {action : EStateM Failure σ Unit} {state : σ} {post : σ → Prop}
    {stop : Failure → σ → Prop} (ends : action.Ends state (fun _ after => post after) stop)
    (aborts : ∀ failure after, stop failure after → ∃ site, failure = .abort site) :
    (resultCode action).Ends state (fun _ after => post after) stop := by
  apply @resultCode_ends _ action state (fun _ after => post after) stop
  apply ends.mono (fun _ _ done => done)
  intro failure after stopped
  obtain ⟨site, rfl⟩ := aborts failure after stopped
  exact stopped

end Menoetius
