import Mathlib.Tactic

/-
This file orders the nodes of coloured binary trees and bounds their height.
-/

namespace SearchTree

inductive Color where
  | red
  | black
  deriving DecidableEq, Repr

inductive RbTree (α : Type) where
  | leaf
  | node (color : Color) (left : RbTree α) (item : α) (right : RbTree α)
  deriving DecidableEq, Repr

variable {α : Type}

namespace RbTree

/-- The items from left to right. -/
def toList : RbTree α → List α
  | .leaf => []
  | .node _ left item right => left.toList ++ item :: right.toList

@[simp] theorem toList_leaf : (leaf : RbTree α).toList = [] := rfl

@[simp] theorem toList_node (color : Color) (left : RbTree α) (item : α) (right : RbTree α) :
    (node color left item right).toList = left.toList ++ item :: right.toList := rfl

/-- Left and right change places. -/
def mirror : RbTree α → RbTree α
  | .leaf => .leaf
  | .node color left item right => .node color right.mirror item left.mirror

@[simp] theorem mirror_leaf : (leaf : RbTree α).mirror = leaf := rfl

@[simp] theorem mirror_node (color : Color) (left : RbTree α) (item : α) (right : RbTree α) :
    (node color left item right).mirror = node color right.mirror item left.mirror := rfl

@[simp] theorem mirror_mirror (tree : RbTree α) : tree.mirror.mirror = tree := by
  induction tree with
  | leaf => rfl
  | node color left item right ihLeft ihRight => rw [mirror_node, mirror_node, ihLeft, ihRight]

theorem toList_mirror (tree : RbTree α) : tree.mirror.toList = tree.toList.reverse := by
  induction tree with
  | leaf => rfl
  | node color left item right ihLeft ihRight =>
      rw [mirror_node, toList_node, toList_node, ihLeft, ihRight, List.reverse_append, List.reverse_cons,
        List.append_assoc]
      rfl

def isRed : RbTree α → Bool
  | .node .red _ _ _ => true
  | _ => false

/-- The root becomes black. -/
def blacken : RbTree α → RbTree α
  | .leaf => .leaf
  | .node _ left item right => .node .black left item right

@[simp] theorem toList_blacken (tree : RbTree α) : tree.blacken.toList = tree.toList := by
  cases tree <;> rfl

/-- The number of nodes on the longest way down. -/
def height : RbTree α → Nat
  | .leaf => 0
  | .node _ left _ right => max left.height right.height + 1

/-- Every way down meets as many black nodes, and no red node has a red child. -/
inductive Balanced : RbTree α → Color → Nat → Prop where
  | leaf : Balanced .leaf .black 0
  | red {left right : RbTree α} {item : α} {count : Nat} :
      Balanced left .black count → Balanced right .black count → Balanced (.node .red left item right) .red count
  | black {left right : RbTree α} {item : α} {leftColor rightColor : Color} {count : Nat} :
      Balanced left leftColor count → Balanced right rightColor count →
      Balanced (.node .black left item right) .black (count + 1)

theorem Balanced.mirror {tree : RbTree α} {color : Color} {count : Nat} (balanced : tree.Balanced color count) :
    tree.mirror.Balanced color count := by
  induction balanced with
  | leaf => exact .leaf
  | red _ _ ihLeft ihRight => exact .red ihRight ihLeft
  | black _ _ ihLeft ihRight => exact .black ihRight ihLeft

theorem Balanced.blacken {tree : RbTree α} {color : Color} {count : Nat} (balanced : tree.Balanced color count) :
    ∃ count, tree.blacken.Balanced .black count := by
  cases balanced with
  | leaf => exact ⟨_, .leaf⟩
  | red left right => exact ⟨_, .black left right⟩
  | black left right => exact ⟨_, .black left right⟩

/-- A way down has at most one red node for each black one. -/
theorem Balanced.height_le {tree : RbTree α} {color : Color} {count : Nat} (balanced : tree.Balanced color count) :
    tree.height ≤ 2 * count + if color = .red then 1 else 0 := by
  induction balanced with
  | leaf => exact Nat.zero_le _
  | red _ _ ihLeft ihRight =>
      simp only [reduceCtorEq, if_false, height, if_true] at ihLeft ihRight ⊢
      omega
  | @black left right item leftColor rightColor count _ _ ihLeft ihRight =>
      have one : ∀ color : Color, (if color = .red then 1 else 0) ≤ 1 := by
        intro color
        split <;> omega
      have first := one leftColor
      have second := one rightColor
      simp only [height, reduceCtorEq, if_false]
      omega

/-- The black nodes alone make up a full tree. -/
theorem Balanced.pow_le {tree : RbTree α} {color : Color} {count : Nat} (balanced : tree.Balanced color count) :
    2 ^ count ≤ tree.toList.length + 1 := by
  induction balanced with
  | leaf => exact le_rfl
  | red _ _ ihLeft ihRight =>
      rw [toList_node, List.length_append, List.length_cons]
      omega
  | black _ _ ihLeft ihRight =>
      rw [toList_node, List.length_append, List.length_cons, pow_succ]
      omega

/-- A tree with a black root is at most twice as high as the logarithm of its size. -/
theorem Balanced.height_le_of_length {tree : RbTree α} {count bits : Nat} (balanced : tree.Balanced .black count)
    (few : tree.toList.length < 2 ^ bits) : tree.height ≤ 2 * bits := by
  have height := balanced.height_le
  have pow : 2 ^ count ≤ 2 ^ bits := balanced.pow_le.trans few
  have count_le : count ≤ bits := (Nat.pow_le_pow_iff_right (by decide)).mp pow
  simp only [reduceCtorEq, if_false] at height
  omega

end RbTree

/-- A probe tells on which side of an item it lies, and it changes sides only once along an order. -/
structure Cut (before : α → α → Prop) (probe : α → Ordering) : Prop where
  lt : ∀ {first second}, before first second → probe first = .lt → probe second = .lt
  gt : ∀ {first second}, before first second → probe second = .gt → probe first = .gt

namespace RbTree

/-- The descent to the first item that equals the probe, with what is below it. -/
def seek (probe : α → Ordering) : RbTree α → RbTree α
  | .leaf => .leaf
  | .node color left item right =>
      match probe item with
      | .lt => left.seek probe
      | .gt => right.seek probe
      | .eq => .node color left item right

/-- The items that equal the probe, from left to right. -/
def equals (probe : α → Ordering) (tree : RbTree α) : List α := tree.toList.filter fun item => probe item = .eq

@[simp] theorem equals_leaf (probe : α → Ordering) : (leaf : RbTree α).equals probe = [] := rfl

theorem equals_node (probe : α → Ordering) (color : Color) (left : RbTree α) (item : α) (right : RbTree α) :
    (node color left item right).equals probe =
      left.equals probe ++ ((if probe item = .eq then [item] else []) ++ right.equals probe) := by
  rw [equals, toList_node, List.filter_append, List.filter_cons]
  split
  next equal => rw [if_pos (of_decide_eq_true equal)]; rfl
  next other => rw [if_neg (by simpa using other)]; rfl

variable {before : α → α → Prop} {probe : α → Ordering}

/-- A sorted tree is sorted on both sides of its root, and the root is in between. -/
theorem sorted_node {color : Color} {left right : RbTree α} {item : α}
    (sorted : (node color left item right).toList.Pairwise before) :
    left.toList.Pairwise before ∧ right.toList.Pairwise before ∧ (∀ other ∈ left.toList, before other item) ∧
      ∀ other ∈ right.toList, before item other := by
  obtain ⟨first, rest, across⟩ := List.pairwise_append.mp sorted
  obtain ⟨behind, second⟩ := List.pairwise_cons.mp rest
  exact ⟨first, second, fun other mem => across other mem item List.mem_cons_self, behind⟩

theorem equals_of_none {tree : RbTree α} (none : ∀ item ∈ tree.toList, probe item ≠ .eq) : tree.equals probe = [] := by
  refine List.filter_eq_nil_iff.mpr fun item mem => ?_
  simpa using none item mem

/-- The descent passes no item that equals the probe. -/
theorem equals_seek (cut : Cut before probe) {tree : RbTree α} (sorted : tree.toList.Pairwise before) :
    (tree.seek probe).equals probe = tree.equals probe := by
  induction tree with
  | leaf => rfl
  | node color left item right ihLeft ihRight =>
      obtain ⟨sortedLeft, sortedRight, below, above⟩ := sorted_node sorted
      rw [seek, equals_node]
      cases side : probe item with
      | lt =>
          have none : right.equals probe = [] :=
            equals_of_none fun other mem => by
              rw [cut.lt (above other mem) side]
              exact nofun
          rw [ihLeft sortedLeft, none]
          simp
      | gt =>
          have none : left.equals probe = [] :=
            equals_of_none fun other mem => by
              rw [cut.gt (below other mem) side]
              exact nofun
          rw [ihRight sortedRight, none]
          simp
      | eq => simp only [equals_node, side, if_true]

/-- The descent ends at an item that equals the probe. -/
theorem seek_root {color : Color} {left right : RbTree α} {item : α} {tree : RbTree α}
    (found : tree.seek probe = node color left item right) : probe item = .eq := by
  induction tree with
  | leaf => cases found
  | node color left item right ihLeft ihRight =>
      rw [seek] at found
      cases side : probe item with
      | lt => rw [side] at found; exact ihLeft found
      | gt => rw [side] at found; exact ihRight found
      | eq =>
          rw [side] at found
          cases found
          exact side

/-- What is found is a part of the tree. -/
theorem seek_part (probe : α → Ordering) (tree : RbTree α) :
    (tree.seek probe).toList.Sublist tree.toList ∧ (tree.seek probe).height ≤ tree.height := by
  induction tree with
  | leaf => exact ⟨List.Sublist.refl _, le_rfl⟩
  | node color left item right ihLeft ihRight =>
      rw [seek, toList_node, height]
      split
      · exact ⟨ihLeft.1.trans (List.sublist_append_left _ _), by omega⟩
      · refine ⟨ihRight.1.trans ((List.sublist_cons_self _ _).trans (List.sublist_append_right _ _)), by omega⟩
      · exact ⟨List.Sublist.refl _, le_rfl⟩

/-- The items that equal the probe are the one that is found and those on both sides of it. -/
theorem equals_of_seek (cut : Cut before probe) {tree : RbTree α} (sorted : tree.toList.Pairwise before) {color : Color}
    {left right : RbTree α} {item : α} (found : tree.seek probe = node color left item right) :
    tree.equals probe = left.equals probe ++ item :: right.equals probe := by
  rw [← equals_seek cut sorted, found, equals_node, if_pos (seek_root found)]
  rfl

theorem equals_of_seek_leaf (cut : Cut before probe) {tree : RbTree α} (sorted : tree.toList.Pairwise before)
    (found : tree.seek probe = leaf) : tree.equals probe = [] := by
  rw [← equals_seek cut sorted, found]
  rfl

end RbTree

end SearchTree
