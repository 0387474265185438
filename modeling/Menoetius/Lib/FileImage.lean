import Mathlib.Data.UInt
import Mathlib.Tactic

/-
This file writes byte strings into the image of a file.
-/

namespace FileImage

variable {α : Type} [Zero α]

/-- A write replaces the elements at its position. A gap before it reads as zero, and a write of
nothing does not extend the image. -/
def writeAt (image : List α) (start : Nat) (data : List α) : List α :=
  if data.isEmpty then image
  else image.take start ++ List.replicate (start - image.length) 0 ++ data ++
    image.drop (start + data.length)

def readAt (image : List α) (start count : Nat) : List α := (image.drop start).take count

@[simp] theorem writeAt_nil (image : List α) (start : Nat) : writeAt image start [] = image := rfl

/-- A write inside the image, by position. -/
theorem writeAt_getElem? (image : List α) (start : Nat) (data : List α)
    (inside : start ≤ image.length) (position : Nat) :
    (writeAt image start data)[position]? =
      if start ≤ position ∧ position < start + data.length then data[position - start]?
      else image[position]? := by
  by_cases empty : data = []
  · subst empty
    rw [writeAt_nil, if_neg]
    simp
  have shape : writeAt image start data =
      image.take start ++ (data ++ image.drop (start + data.length)) := by
    rw [writeAt, if_neg (by simpa using empty), Nat.sub_eq_zero_of_le inside]
    simp
  rw [shape, List.getElem?_append, List.length_take, Nat.min_eq_left inside]
  by_cases before : position < start
  · rw [if_pos before, if_neg (by omega), List.getElem?_take_of_lt before]
  rw [if_neg before, List.getElem?_append]
  by_cases within : position - start < data.length
  · rw [if_pos within, if_pos (by omega)]
  · rw [if_neg within, if_neg (by omega), List.getElem?_drop]
    congr 1
    omega

/-- A write behind a known part covers what follows. -/
theorem writeAt_over (front rest data : List α) :
    writeAt (front ++ rest) front.length data = front ++ (data ++ rest.drop data.length) := by
  by_cases empty : data = []
  · simp [empty]
  rw [writeAt, if_neg (by simpa using empty), List.take_left, List.length_append,
    Nat.sub_eq_zero_of_le (by omega), List.replicate_zero, List.append_nil, List.drop_append,
    List.drop_eq_nil_of_le (by omega), Nat.add_sub_cancel_left, List.nil_append, List.append_assoc]

/-- A write over a part of the image. -/
theorem writeAt_inside (front old back data : List α) (fits : data.length ≤ old.length) :
    writeAt (front ++ (old ++ back)) front.length data =
      front ++ (data ++ old.drop data.length ++ back) := by
  rw [writeAt_over, List.drop_append_of_le_length fits, List.append_assoc]

/-- A write at the end extends the image. -/
theorem writeAt_end (image data : List α) : writeAt image image.length data = image ++ data := by
  by_cases empty : data = []
  · simp [empty]
  · rw [writeAt, if_neg (by simpa using empty)]
    simp

/-- A write behind the end leaves a gap of zeros. -/
theorem writeAt_gap (image data : List α) (gap : Nat) (some : data ≠ []) :
    writeAt image (image.length + gap) data = image ++ (List.replicate gap 0 ++ data) := by
  rw [writeAt, if_neg (by simpa using some), List.take_of_length_le (by omega),
    List.drop_eq_nil_of_le (by omega), Nat.add_sub_cancel_left, List.append_nil, List.append_assoc]

theorem writeAt_length (image data : List α) (start : Nat)
    (inside : start + data.length ≤ image.length) :
    (writeAt image start data).length = image.length := by
  by_cases empty : data = []
  · simp [empty]
  · rw [writeAt, if_neg (by simpa using empty)]
    simp only [List.length_append, List.length_take, List.length_replicate, List.length_drop]
    omega

/-- Writing the whole after a part of it leaves no trace of the part. -/
theorem writeAt_take (image data : List α) (start count : Nat)
    (inside : start + data.length ≤ image.length) :
    writeAt (writeAt image start (data.take count)) start data = writeAt image start data := by
  have length := writeAt_length image (data.take count) start
    (by rw [List.length_take]; omega)
  apply List.ext_getElem?
  intro position
  rw [writeAt_getElem? _ _ _ (by omega), writeAt_getElem? _ _ _ (by omega),
    writeAt_getElem? _ _ _ (by omega), List.length_take]
  by_cases within : start ≤ position ∧ position < start + data.length
  · rw [if_pos within, if_pos within]
  · rw [if_neg within, if_neg within, if_neg (by omega)]

end FileImage
