import Menoetius.DiskOpen

/-
This file reads the main file of a store as a sequence of blocks.
-/

namespace Menoetius
open FileImage LittleEndian

/-- A block fills the size of its pool. -/
structure Block where
  status : BlockStatus
  pool : Fin numDiskPools
  payload : List UInt8
  whole : payload.length = getPoolSize pool

def Block.image (block : Block) : List UInt8 :=
  block.status.code :: UInt8.ofNat block.pool :: block.payload

def Block.span (block : Block) : Nat := blockHeaderSize + getPoolSize block.pool

/-- A block that a scan returns. -/
def Block.Live (block : Block) : Prop := block.status = .valid ∨ block.status = .active

instance (block : Block) : Decidable block.Live := inferInstanceAs (Decidable (_ ∨ _))

@[simp] theorem Block.image_length (block : Block) : block.image.length = block.span := by
  rw [image, List.length_cons, List.length_cons, block.whole, span, blockHeaderSize]
  omega

theorem getPoolSize_ge (pool : Nat) : 128 ≤ getPoolSize pool := by
  have power : 2 ^ 7 ≤ 2 ^ (pool + 7) := Nat.pow_le_pow_right (by omega) (by omega)
  exact power

theorem Block.span_pos (block : Block) : 0 < block.span := by
  unfold span blockHeaderSize
  omega

def imageOf (blocks : List Block) : List UInt8 := blocks.flatMap Block.image

def spanOf (blocks : List Block) : Nat := (blocks.map Block.span).sum

@[simp] theorem imageOf_nil : imageOf [] = [] := rfl

@[simp] theorem imageOf_cons (block : Block) (blocks : List Block) :
    imageOf (block :: blocks) = block.image ++ imageOf blocks := rfl

@[simp] theorem imageOf_append (first second : List Block) :
    imageOf (first ++ second) = imageOf first ++ imageOf second := by
  simp [imageOf]

@[simp] theorem spanOf_nil : spanOf [] = 0 := rfl

@[simp] theorem spanOf_cons (block : Block) (blocks : List Block) :
    spanOf (block :: blocks) = block.span + spanOf blocks := rfl

@[simp] theorem spanOf_append (first second : List Block) :
    spanOf (first ++ second) = spanOf first + spanOf second := by
  simp [spanOf]

@[simp] theorem imageOf_length (blocks : List Block) : (imageOf blocks).length = spanOf blocks := by
  induction blocks with
  | nil => rfl
  | cons block blocks ih => simp [ih]

/-- The blocks with their offsets. -/
def placed (start : Nat) : List Block → List (Nat × Block)
  | [] => []
  | block :: blocks => (start, block) :: placed (start + block.span) blocks

/-- The block that starts at an offset of the main file. -/
def blockAt (blocks : List Block) (offset : Nat) : Option Block :=
  (placed storageInitialReserved blocks).lookup offset

theorem placed_append (start : Nat) (first second : List Block) :
    placed start (first ++ second) = placed start first ++ placed (start + spanOf first) second := by
  induction first generalizing start with
  | nil => simp [placed]
  | cons block first ih => simp [placed, ih, Nat.add_assoc]

theorem placed_bounds (start : Nat) (blocks : List Block) (offset : Nat) (block : Block)
    (member : (offset, block) ∈ placed start blocks) :
    start ≤ offset ∧ offset + block.span ≤ start + spanOf blocks := by
  induction blocks generalizing start with
  | nil => cases member
  | cons first blocks ih =>
      rw [placed, List.mem_cons] at member
      rw [spanOf_cons]
      rcases member with same | later
      · obtain ⟨rfl, rfl⟩ := Prod.mk.inj same
        omega
      · have bounds := ih (start + first.span) later
        omega

theorem lookup_placed (start : Nat) (blocks : List Block) (offset : Nat) (block : Block) :
    (placed start blocks).lookup offset = some block ↔
      ∃ front back, blocks = front ++ block :: back ∧ offset = start + spanOf front := by
  induction blocks generalizing start with
  | nil => simp [placed]
  | cons first blocks ih =>
      have positive := first.span_pos
      rw [placed, List.lookup_cons]
      by_cases here : offset = start
      · subst here
        simp only [beq_self_eq_true]
        constructor
        · intro same
          exact ⟨[], blocks, by rw [Option.some.inj same]; rfl, by simp⟩
        · rintro ⟨front, back, split, place⟩
          cases front with
          | nil => rw [List.nil_append, List.cons.injEq] at split; rw [split.1]
          | cons other front =>
              rw [List.cons_append, List.cons.injEq] at split
              rw [spanOf_cons, ← split.1] at place
              omega
      · have different : (offset == start) = false := by simpa using here
        rw [different]
        dsimp only
        rw [ih]
        constructor
        · rintro ⟨front, back, split, place⟩
          exact ⟨first :: front, back, by rw [split]; rfl, by rw [spanOf_cons]; omega⟩
        · rintro ⟨front, back, split, place⟩
          cases front with
          | nil => exact absurd place (by simpa using here)
          | cons other front =>
              rw [List.cons_append, List.cons.injEq] at split
              refine ⟨front, back, split.2, ?_⟩
              rw [spanOf_cons, ← split.1] at place
              omega

theorem placed_sorted (start : Nat) (blocks : List Block) :
    ((placed start blocks).map Prod.fst).Pairwise (· < ·) := by
  induction blocks generalizing start with
  | nil => exact .nil
  | cons block blocks ih =>
      rw [placed, List.map_cons, List.pairwise_cons]
      refine ⟨?_, ih _⟩
      intro offset member
      obtain ⟨⟨place, other⟩, inside, rfl⟩ := List.mem_map.mp member
      have bounds := placed_bounds _ _ _ _ inside
      have positive := block.span_pos
      dsimp only
      omega

theorem lookup_of_mem_placed {start : Nat} {blocks : List Block} {offset : Nat} {block : Block}
    (member : (offset, block) ∈ placed start blocks) : (placed start blocks).lookup offset = some block := by
  induction blocks generalizing start with
  | nil => cases member
  | cons first blocks ih =>
      rw [placed, List.mem_cons] at member
      rw [placed, List.lookup_cons]
      rcases member with same | later
      · cases same
        simp
      · have bounds := placed_bounds _ _ _ _ later
        have positive := first.span_pos
        have other : (offset == start) = false := by
          rw [beq_eq_false_iff_ne]
          omega
        rw [other]
        exact ih later

/-- A block stands behind the blocks before it. -/
theorem blockAt_eq_some (blocks : List Block) (offset : Nat) (block : Block) :
    blockAt blocks offset = some block ↔
      ∃ front back, blocks = front ++ block :: back ∧
        offset = storageInitialReserved + spanOf front :=
  lookup_placed storageInitialReserved blocks offset block

theorem blockAt_ge {blocks : List Block} {offset : Nat} {block : Block} (found : blockAt blocks offset = some block) :
    storageInitialReserved ≤ offset := by
  obtain ⟨front, back, _, rfl⟩ := (blockAt_eq_some _ _ _).mp found
  omega

/-- The version stands at the start of the file. -/
theorem blockAt_zero (blocks : List Block) : blockAt blocks 0 = none := by
  cases found : blockAt blocks 0 with
  | none => rfl
  | some block => exact absurd (blockAt_ge found) (by decide)

theorem lookup_placed_below (start : Nat) (blocks : List Block) (offset : Nat)
    (outside : offset < start ∨ start + spanOf blocks ≤ offset) :
    (placed start blocks).lookup offset = none := by
  cases found : (placed start blocks).lookup offset with
  | none => rfl
  | some block =>
      obtain ⟨front, back, rfl, rfl⟩ := (lookup_placed start blocks offset block).mp found
      have positive := block.span_pos
      rw [spanOf_append, spanOf_cons] at outside
      omega

/-- Another block of the same size in one place changes one entry. -/
theorem blockAt_replace (front back : List Block) (old new : Block) (same : new.span = old.span) :
    blockAt (front ++ new :: back) = Function.update (blockAt (front ++ old :: back))
      (storageInitialReserved + spanOf front) (some new) := by
  funext offset
  unfold blockAt
  rw [Function.update_apply, placed_append, placed_append, List.lookup_append, List.lookup_append, placed,
    placed, List.lookup_cons, List.lookup_cons, same]
  by_cases here : offset = storageInitialReserved + spanOf front
  · rw [if_pos here, lookup_placed_below _ front offset (Or.inr (by omega)), here]
    simp
  · have different : (offset == storageInitialReserved + spanOf front) = false := by simpa using here
    rw [if_neg here, different]

/-- A block behind the last one adds one entry. -/
theorem blockAt_concat (blocks : List Block) (new : Block) :
    blockAt (blocks ++ [new]) = Function.update (blockAt blocks)
      (storageInitialReserved + spanOf blocks) (some new) := by
  funext offset
  unfold blockAt
  rw [Function.update_apply, placed_append, List.lookup_append, placed, placed, List.lookup_cons]
  by_cases here : offset = storageInitialReserved + spanOf blocks
  · rw [if_pos here, lookup_placed_below _ blocks offset (Or.inr (by omega)), here]
    simp
  · have different : (offset == storageInitialReserved + spanOf blocks) = false := by simpa using here
    rw [if_neg here, different]
    simp

theorem blockAt_end (blocks : List Block) :
    blockAt blocks (storageInitialReserved + spanOf blocks) = none :=
  lookup_placed_below _ blocks _ (Or.inr le_rfl)

/-- The longest record that a store logs. -/
def scratchBound : Nat := 2 ^ 27

/-- The two files of a store hold these blocks. -/
structure DiskFiles (store : DiskStorage) (blocks : List Block) : Prop where
  header : MainHeader store.fd.bytes
  body : store.fd.bytes.drop storageInitialReserved = imageOf blocks
  eofOffset : store.eofOffset = store.fd.bytes.length
  scratch : ∃ rest, store.scratchFd.bytes = versionBytes ++ rest ∧
    ScratchQuiet store.fd.bytes rest ∧ rest.length ≤ scratchBound

theorem DiskFiles.length {store : DiskStorage} {blocks : List Block} (files : DiskFiles store blocks) :
    store.fd.bytes.length = storageInitialReserved + spanOf blocks := by
  have reserved := files.header.reserved
  have length := congrArg List.length files.body
  rw [List.length_drop, imageOf_length] at length
  omega

/-- The bytes of one block, with what stands before and behind it. -/
theorem DiskFiles.split {store : DiskStorage} {blocks : List Block} (files : DiskFiles store blocks)
    {front back : List Block} {block : Block} (split : blocks = front ++ block :: back) :
    store.fd.bytes = (store.fd.bytes.take storageInitialReserved ++ imageOf front) ++
        (block.image ++ imageOf back) ∧
      (store.fd.bytes.take storageInitialReserved ++ imageOf front).length =
        storageInitialReserved + spanOf front := by
  have body := files.body
  rw [split, imageOf_append, imageOf_cons] at body
  constructor
  · rw [List.append_assoc, ← body, List.take_append_drop]
  · rw [List.length_append, List.length_take, imageOf_length, Nat.min_eq_left files.header.reserved]

/-- A move of the descriptors does not change what the files hold. -/
theorem DiskFiles.moved {store after : DiskStorage} {blocks : List Block} (files : DiskFiles store blocks)
    (main : after.fd.bytes = store.fd.bytes) (scratch : after.scratchFd.bytes = store.scratchFd.bytes)
    (eof : after.eofOffset = store.eofOffset) : DiskFiles after blocks where
  header := by rw [main]; exact files.header
  body := by rw [main]; exact files.body
  eofOffset := by rw [eof, main]; exact files.eofOffset
  scratch := by rw [main, scratch]; exact files.scratch

end Menoetius
