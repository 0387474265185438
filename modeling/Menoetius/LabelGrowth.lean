import Menoetius.LabelArray
import Menoetius.PoolLaw

/-
This file says how many labels the array of a label set can take.
-/

namespace Menoetius
open ChunkMemory LittleEndian

/-- The labels that were added are the first ones of the array, in their order. -/
def LabelState.Present (state : LabelState) (labels : List (Word × Word)) : Prop :=
  (List.range state.lfm.numLabels).map state.labelAt = labels.map some

/-- Every call returns, with a request for at least the labels that it has stored, and all labels are still there. -/
def AddsLabels (realloc : Choice → ChunkPointer → Nat → HeapM ChunkPointer) :
    LabelState → List (Word × Word) → List LabelCall → Prop
  | _, _, [] => True
  | state, labels, .others change :: calls => AddsLabels realloc (state.others change) labels calls
  | state, labels, .add key value choice :: calls =>
      ∃ after, LabelArray.lfmAddLabelUnsorted realloc choice key value state = .ok () after ∧
        after.lfm.numLabels * keyValueSize ≤ after.lfm.requested ∧ after.Present (labels ++ [(key, value)]) ∧
        AddsLabels realloc after (labels ++ [(key, value)]) calls

def LabelCall.adds : LabelCall → Bool
  | .add _ _ _ => true
  | .others _ => false

/-- The array still has the room that `lfm_new` has asked for. -/
structure LabelState.Holds (state : LabelState) (labels : List (Word × Word)) : Prop where
  start : state.lfm.labels.start = 8
  room : state.lfm.maxNumLabels = 64
  requested : state.lfm.requested = keyValueSize * 64
  chunk : ∃ bytes, state.heap.chunks state.lfm.labels.chunk = some bytes ∧ 8 + keyValueSize * 64 ≤ bytes.length
  present : state.Present labels

section
variable {realloc : Choice → ChunkPointer → Nat → HeapM ChunkPointer} {state after : LabelState}
  {labels : List (Word × Word)} {choice : Choice} {key value : Word}

theorem LabelState.Present.length (present : state.Present labels) : state.lfm.numLabels = labels.length := by
  have same := congrArg List.length present
  simpa using same

theorem onHeap_ok {α : Type} {action : HeapM α} {result : α} {heap : Heap}
    (run : action state.heap = .ok result heap) : onHeap action state = .ok result { state with heap } := by
  simp only [onHeap, run]

/-- Whatever happens to the memory, the fields of the label set stay. -/
theorem of_onHeap {α : Type} {action : HeapM α} {result : α} (run : onHeap action state = .ok result after) :
    after.lfm = state.lfm := by
  unfold onHeap at run
  split at run
  · cases run
    rfl
  · cases run

/-- The other work of the process leaves the labels. -/
theorem LabelState.Holds.others (holds : state.Holds labels) (change : Heap → Heap) :
    (state.others change).Holds labels := by
  obtain ⟨bytes, here, long⟩ := holds.chunk
  have still : (state.others change).heap.chunks (state.others change).lfm.labels.chunk = some bytes := by
    rw [← here]
    exact Function.update_self _ _ _
  have same : (state.others change).labelAt = state.labelAt := by
    funext i
    rw [LabelState.labelAt, LabelState.labelAt, still, here]
    rfl
  refine ⟨holds.start, holds.room, holds.requested, ⟨bytes, still, long⟩, ?_⟩
  rw [LabelState.Present, same]
  exact holds.present

/-- The two pointers of a label in the bytes of the array. -/
def labelIn (bytes : List UInt8) (start : Nat) : Word × Word :=
  (BitVec.ofNat 64 (wordAt bytes start), BitVec.ofNat 64 (wordAt bytes (start + 8)))

theorem labelAt_run {bytes : List UInt8} (here : state.heap.chunks state.lfm.labels.chunk = some bytes) {i : Nat}
    (inside : state.lfm.labels.start + keyValueSize * i + keyValueSize ≤ bytes.length) :
    state.labelAt i = some (labelIn bytes (state.lfm.labels.start + keyValueSize * i)) := by
  rw [LabelState.labelAt, here]
  exact if_pos inside

/-- The bytes of the array with one more label. -/
def withLabel (bytes : List UInt8) (start : Nat) (key value : Word) : List UInt8 :=
  putWordAt (putWordAt bytes start key.toNat) (start + 8) value.toNat

section Bytes
variable {bytes : List UInt8} {start : Nat}

theorem withLabel_length (inside : start + keyValueSize ≤ bytes.length) (key value : Word) :
    (withLabel bytes start key value).length = bytes.length := by
  unfold keyValueSize at inside
  rw [withLabel, putWordAt_length, putWordAt_length (by omega)]
  rw [putWordAt_length (by omega)]
  omega

theorem labelIn_withLabel (inside : start + keyValueSize ≤ bytes.length) (key value : Word) :
    labelIn (withLabel bytes start key value) start = (key, value) := by
  unfold keyValueSize at inside
  have length := putWordAt_length (by omega : start + 8 ≤ bytes.length) key.toNat
  have first : wordAt (withLabel bytes start key value) start = key.toNat := by
    rw [withLabel, putWordAt, wordAt_writeAt_before le_rfl (by rw [bytesOf_length, length]; omega),
      wordAt_putWordAt (by omega) key.isLt]
  have second : wordAt (withLabel bytes start key value) (start + 8) = value.toNat := by
    rw [withLabel, wordAt_putWordAt (by omega) value.isLt]
  simp only [labelIn, first, second, BitVec.ofNat_toNat, BitVec.setWidth_eq]

/-- The labels in front stay. -/
theorem labelIn_before (inside : start + keyValueSize ≤ bytes.length) (key value : Word) {low : Nat}
    (before : low + keyValueSize ≤ start) :
    labelIn (withLabel bytes start key value) low = labelIn bytes low := by
  unfold keyValueSize at inside before
  have length := putWordAt_length (by omega : start + 8 ≤ bytes.length) key.toNat
  have same : ∀ position, position + 8 ≤ start →
      wordAt (withLabel bytes start key value) position = wordAt bytes position := by
    intro position front
    rw [withLabel, putWordAt, wordAt_writeAt_before (by omega) (by rw [bytesOf_length, length]; omega), putWordAt,
      wordAt_writeAt_before front (by rw [bytesOf_length]; omega)]
  rw [labelIn, labelIn, same low (by omega), same (low + 8) (by omega)]

end Bytes

/-- The state with one more label in the array. -/
def LabelState.withLabel (state : LabelState) (bytes : List UInt8) (key value : Word) : LabelState where
  heap := { state.heap with
    chunks := Function.update state.heap.chunks state.lfm.labels.chunk
      (some (Menoetius.withLabel bytes (state.lfm.labels.start + keyValueSize * state.lfm.numLabels) key value)) }
  lfm := { state.lfm with numLabels := state.lfm.numLabels + 1 }

theorem storeLabel_run {bytes : List UInt8} (here : state.heap.chunks state.lfm.labels.chunk = some bytes) {start : Nat}
    (place : state.lfm.labels.start + keyValueSize * state.lfm.numLabels = start)
    (inside : start + keyValueSize ≤ bytes.length) (key value : Word) :
    LabelArray.storeLabel key value state = .ok () (state.withLabel bytes key value) := by
  unfold keyValueSize at inside
  have first := onHeap_ok (setChunkWord_run here (by omega : start + 8 ≤ bytes.length) key)
  have length := putWordAt_length (by omega : start + 8 ≤ bytes.length) key.toNat
  have second := @onHeap_ok
    ⟨⟨Function.update state.heap.chunks state.lfm.labels.chunk (some (putWordAt bytes start key.toNat)),
      state.heap.pools⟩, state.lfm⟩ _ _ _ _
    (@setChunkWord_run _ state.lfm.labels.chunk _ (Function.update_self _ _ _) (start + 8) (by omega) value)
  unfold LabelArray.storeLabel
  rw [EStateM.bind_ok (EStateM.get_apply state)]
  dsimp only
  rw [place, EStateM.bind_ok first, EStateM.bind_ok second, Function.update_idem, LabelState.withLabel, place]
  rfl

/-- The label stands behind those that were there. -/
theorem LabelState.Present.withLabel (present : state.Present labels) {bytes : List UInt8}
    (here : state.heap.chunks state.lfm.labels.chunk = some bytes) {start : Nat}
    (place : state.lfm.labels.start + keyValueSize * state.lfm.numLabels = start)
    (inside : start + keyValueSize ≤ bytes.length) (key value : Word) :
    (state.withLabel bytes key value).Present (labels ++ [(key, value)]) := by
  have there : (state.withLabel bytes key value).heap.chunks (state.withLabel bytes key value).lfm.labels.chunk =
      some (Menoetius.withLabel bytes start key value) := by
    rw [← place]
    exact Function.update_self _ _ _
  have length := withLabel_length inside key value
  have last : (state.withLabel bytes key value).labelAt state.lfm.numLabels = some (key, value) := by
    rw [labelAt_run there (by rw [length]; exact place.symm ▸ inside)]
    exact congrArg some ((congrArg _ place).trans (labelIn_withLabel inside key value))
  have earlier : ∀ i ∈ List.range state.lfm.numLabels,
      (state.withLabel bytes key value).labelAt i = state.labelAt i := by
    intro i member
    have before : state.lfm.labels.start + keyValueSize * i + keyValueSize ≤ start := by
      have less := List.mem_range.mp member
      unfold keyValueSize at place ⊢
      omega
    rw [labelAt_run here (by omega), labelAt_run there (by rw [length]; exact before.trans (by omega))]
    exact congrArg some (labelIn_before inside key value before)
  have count : (state.withLabel bytes key value).lfm.numLabels = state.lfm.numLabels + 1 := rfl
  rw [LabelState.Present, count, List.range_succ, List.map_append, List.map_congr_left earlier, present,
    List.map_append, List.map_singleton, List.map_singleton, last]

/-- A label is stored while there is room in the array. -/
theorem LabelState.Holds.add (holds : state.Holds labels) (few : labels.length < 64)
    (realloc : Choice → ChunkPointer → Nat → HeapM ChunkPointer) (choice : Choice) (key value : Word) :
    ∃ after, LabelArray.lfmAddLabelUnsorted realloc choice key value state = .ok () after ∧
      after.lfm.numLabels * keyValueSize ≤ after.lfm.requested ∧ after.Holds (labels ++ [(key, value)]) := by
  obtain ⟨bytes, here, long⟩ := holds.chunk
  have count := holds.present.length
  have inside : state.lfm.labels.start + keyValueSize * state.lfm.numLabels + keyValueSize ≤ bytes.length := by
    rw [holds.start]
    unfold keyValueSize at long ⊢
    omega
  have roomy : ¬ state.lfm.maxNumLabels ≤ state.lfm.numLabels := by
    rw [holds.room, count]
    omega
  refine ⟨state.withLabel bytes key value, ?_, ?_, holds.start, holds.room, holds.requested, ?_, ?_⟩
  · rw [LabelArray.lfmAddLabelUnsorted, EStateM.bind_ok (EStateM.get_apply state)]
    dsimp only
    rw [if_neg roomy]
    exact storeLabel_run here rfl inside key value
  · change (state.lfm.numLabels + 1) * keyValueSize ≤ state.lfm.requested
    rw [holds.requested, count, keyValueSize]
    omega
  · exact ⟨_, Function.update_self _ _ _, by rw [withLabel_length inside]; exact long⟩
  · exact holds.present.withLabel here rfl inside key value

/-- A growth doubles the number of labels and requests as many bytes. -/
theorem of_growLabels (run : LabelArray.growLabels realloc choice state = .ok () after) :
    after.lfm.requested = state.lfm.maxNumLabels * 2 ∧ after.lfm.numLabels = state.lfm.numLabels := by
  unfold LabelArray.growLabels at run
  rw [EStateM.bind_ok (EStateM.get_apply state)] at run
  obtain ⟨-, run⟩ := of_require_bind run
  obtain ⟨-, run⟩ := of_require_bind run
  obtain ⟨_, requested, request, run⟩ := EStateM.of_bind_ok run
  obtain ⟨labels, moved, move, ended⟩ := EStateM.of_bind_ok run
  have same := of_onHeap move
  cases request
  cases ended
  dsimp only
  rw [same]
  exact ⟨rfl, rfl⟩

/-- Storing a label requests nothing. -/
theorem of_storeLabel (run : LabelArray.storeLabel key value state = .ok () after) :
    after.lfm.requested = state.lfm.requested ∧ after.lfm.numLabels = state.lfm.numLabels + 1 := by
  unfold LabelArray.storeLabel at run
  rw [EStateM.bind_ok (EStateM.get_apply state)] at run
  obtain ⟨_, first, keyed, run⟩ := EStateM.of_bind_ok run
  obtain ⟨_, second, valued, ended⟩ := EStateM.of_bind_ok run
  have same := (of_onHeap valued).trans (of_onHeap keyed)
  cases ended
  dsimp only
  rw [same]
  exact ⟨rfl, rfl⟩

/-- A call that finds the array full requests fewer bytes than the labels need. -/
theorem LabelState.Holds.full (holds : state.Holds labels) (full : labels.length = 64)
    (run : LabelArray.lfmAddLabelUnsorted realloc choice key value state = .ok () after) :
    after.lfm.requested < after.lfm.numLabels * keyValueSize := by
  have count := holds.present.length
  have reached : state.lfm.maxNumLabels ≤ state.lfm.numLabels := by rw [holds.room, count, full]
  rw [LabelArray.lfmAddLabelUnsorted, EStateM.bind_ok (EStateM.get_apply state)] at run
  dsimp only at run
  rw [if_pos reached] at run
  obtain ⟨_, grown, grow, store⟩ := EStateM.of_bind_ok run
  obtain ⟨asked, kept⟩ := of_growLabels grow
  obtain ⟨same, next⟩ := of_storeLabel store
  rw [same, next, asked, kept, holds.room, count, full]
  decide

/-- The law holds as long as the labels fit the first request. -/
theorem LabelState.Holds.adds_iff (calls : List LabelCall) :
    ∀ {state : LabelState} {labels : List (Word × Word)}, state.Holds labels → labels.length ≤ 64 →
      (AddsLabels realloc state labels calls ↔ labels.length + calls.countP LabelCall.adds ≤ 64) := by
  induction calls with
  | nil =>
      intro state labels _ few
      simpa [AddsLabels] using few
  | cons call calls ih =>
      intro state labels holds few
      cases call with
      | others change =>
          rw [AddsLabels, ih (holds.others change) few]
          rfl
      | add key value choice =>
          rw [List.countP_cons_of_pos rfl]
          rcases few.lt_or_eq with fewer | full
          · obtain ⟨after, run, enough, next⟩ := holds.add fewer realloc choice key value
            have later := @ih after (labels ++ [(key, value)]) next (by rw [List.length_append]; exact fewer)
            rw [List.length_append, List.length_singleton, Nat.add_assoc, Nat.add_comm 1] at later
            rw [← later, AddsLabels]
            constructor
            · rintro ⟨other, again, _, _, rest⟩
              rw [run] at again
              cases again
              exact rest
            · exact fun rest => ⟨after, run, enough, next.present, rest⟩
          · constructor
            · rintro ⟨after, run, enough, _⟩
              exact absurd (holds.full full run) (Nat.not_lt.mpr enough)
            · omega

/-- The array of a new label set has the room that was requested. -/
theorem lfmNew_holds {heap : Heap} {live : List Held} {frees : Nat → List Word} (holds : heap.Holds live frees)
    (fresh : choice.Fresh heap) (name : Word) :
    ∃ lfm after, LabelArray.lfmNew choice name heap = .ok lfm after ∧ LabelState.Holds ⟨after, lfm⟩ [] := by
  obtain ⟨q, after, run, handsOut⟩ := myMalloc_run holds (by decide : keyValueSize * 64 < 2 ^ 40) fresh.1 fresh.2
  obtain ⟨frees', holds'⟩ := handsOut.holds
  obtain ⟨_, bytes, here, long, _⟩ := holds'.held ⟨q, keyValueSize * 64⟩ List.mem_cons_self
  refine ⟨⟨name, ⟨q - 8, 8⟩, 0, 64, keyValueSize * 64⟩, after, ?_,
    ⟨rfl, rfl, rfl, ⟨bytes, here, long⟩, rfl⟩⟩
  rw [LabelArray.lfmNew, EStateM.bind_ok run]
  rfl

/-- The labels of the array in the words of the other model. The function gives the strings that the pointers
lead to. -/
def LabelState.Represents (text : Word → CString) (state : LabelState) (lfm : LFM.Growing) : Prop :=
  ∃ labels, state.Holds labels ∧ labels.length ≤ 64 ∧ lfm.maxNumLabels = 64 ∧
    lfm.labels = labels.map fun label => ⟨text label.1, text label.2⟩

/-- A full array stops the process when `realloc` checks its pointer. -/
theorem growLabels_checked (holds : state.Holds labels) (choice : Choice) :
    ∃ after, LabelArray.growLabels reallocChecked choice state = .error (.abort .memory) after := by
  have some : 0 < state.lfm.maxNumLabels := by
    rw [holds.room]
    decide
  have fits : state.lfm.maxNumLabels * 2 < 2 ^ 31 := by
    rw [holds.room]
    decide
  unfold LabelArray.growLabels
  rw [EStateM.bind_ok (EStateM.get_apply state)]
  dsimp only
  rw [require_bind some, require_bind fits, EStateM.bind_ok (EStateM.modify_apply _ _)]
  have inside : state.lfm.labels.start ≠ 0 := by
    rw [holds.start]
    decide
  have stopped : ∀ other, onHeap (reallocChecked choice state.lfm.labels (state.lfm.maxNumLabels * 2)) other =
      .error (.abort .memory) other := by
    intro other
    rw [onHeap, reallocChecked, if_neg inside]
    rfl
  exact ⟨_, EStateM.bind_error (stopped _) _⟩

/-- The model with a list of labels does what the model with an array does. -/
theorem lfmAddLabelUnsorted_represents {text : Word → CString} {lfm : LFM.Growing}
    (represents : state.Represents text lfm) (choice : Choice) (key value : Word) :
    match lfmAddLabelUnsorted lfm (text key) (text value) with
    | .ok next => ∃ after, LabelArray.lfmAddLabelUnsorted reallocChecked choice key value state = .ok () after ∧
        after.Represents text next
    | .error failure => ∃ after,
        LabelArray.lfmAddLabelUnsorted reallocChecked choice key value state = .error failure after := by
  obtain ⟨labels, holds, few, room, same⟩ := represents
  have count : lfm.labels.length = labels.length := by rw [same, List.length_map]
  rcases few.lt_or_eq with fewer | full
  · have added : lfmAddLabelUnsorted lfm (text key) (text value) =
        .ok { lfm with labels := lfm.labels ++ [⟨text key, text value⟩] } := by
      rw [lfmAddLabelUnsorted, if_neg (by omega)]
      rfl
    obtain ⟨after, run, _, next⟩ := holds.add fewer reallocChecked choice key value
    rw [added]
    refine ⟨after, run, labels ++ [(key, value)], next, ?_, room, ?_⟩
    · rw [List.length_append]
      exact fewer
    · dsimp only
      rw [same, List.map_append]
      rfl
  · have refused : lfmAddLabelUnsorted lfm (text key) (text value) = .error (.abort .memory) := by
      rw [lfmAddLabelUnsorted, if_pos (by omega), if_pos (by omega)]
      rfl
    obtain ⟨after, stopped⟩ := growLabels_checked holds choice
    have reached : state.lfm.maxNumLabels ≤ state.lfm.numLabels := by
      rw [holds.room, holds.present.length, full]
    rw [refused]
    refine ⟨after, ?_⟩
    rw [LabelArray.lfmAddLabelUnsorted, EStateM.bind_ok (EStateM.get_apply state)]
    dsimp only
    rw [if_pos reached]
    exact EStateM.bind_error stopped _

end

/-- The array keeps all labels, and requests room for them, exactly when it never has to grow. -/
theorem lfmAddLabels_law_iff {heap : Heap} {live : List Held} {frees : Nat → List Word} (holds : heap.Holds live frees)
    {choice : Choice} (fresh : choice.Fresh heap) (name : Word)
    (realloc : Choice → ChunkPointer → Nat → HeapM ChunkPointer) (calls : List LabelCall) :
    ∃ lfm after, LabelArray.lfmNew choice name heap = .ok lfm after ∧
      (AddsLabels realloc ⟨after, lfm⟩ [] calls ↔ calls.countP LabelCall.adds ≤ 64) := by
  obtain ⟨lfm, after, run, begun⟩ := lfmNew_holds holds fresh name
  refine ⟨lfm, after, run, ?_⟩
  have law := @LabelState.Holds.adds_iff realloc calls _ _ begun (Nat.zero_le 64)
  rwa [List.length_nil, Nat.zero_add] at law

theorem lfmAddLabels_law_twoLabels :
    ∃ lfm after, LabelArray.lfmNew firstChoice 0 PoolState.init.heap = .ok lfm after ∧
      AddsLabels reallocInside ⟨after, lfm⟩ [] [.add 1 2 secondChoice, .add 3 4 secondChoice] := by
  obtain ⟨lfm, after, run, law⟩ := lfmAddLabels_law_iff poolInit_holds (⟨rfl, by decide⟩ : firstChoice.Fresh _) 0
    reallocInside [.add 1 2 secondChoice, .add 3 4 secondChoice]
  exact ⟨lfm, after, run, law.mpr (by decide)⟩

/-- Sixty-five labels, with a `realloc` that takes the pointer. -/
theorem lfmAddLabels_sixtyFive :
    ¬ ∀ calls lfm after, LabelArray.lfmNew firstChoice 0 PoolState.init.heap = .ok lfm after →
      AddsLabels reallocInside ⟨after, lfm⟩ [] calls := by
  intro claim
  obtain ⟨lfm, after, run, begun⟩ := @lfmNew_holds firstChoice _ _ _ poolInit_holds ⟨rfl, by decide⟩ 0
  have law := claim (List.replicate 65 (.add 1 2 secondChoice)) lfm after run
  rw [begun.adds_iff _ (Nat.zero_le 64), List.countP_replicate] at law
  exact absurd law (by decide)

end Menoetius
