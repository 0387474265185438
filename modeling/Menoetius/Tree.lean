import Menoetius.Globals
import Menoetius.Lib.SearchTree

/-
This file models the trees of `tree.c`. A node is given by what is below it, so that a change of its
pointers is a new tree.
-/

namespace Menoetius
open SearchTree

variable {α : Type}

/-- A new red node under a red left child of a black node. -/
def fixLeftInsertionDiscrepancy : RbTree α → RbTree α
  | .node color (.node .red left b inner) a right =>
      if right.isRed then
        if left.isRed || inner.isRed then .node .red (.node .black left b inner) a right.blacken
        else .node color (.node .red left b inner) a right
      else if left.isRed then .node .black left b (.node .red inner a right)
      else match inner with
        | .node .red cl c cr => .node .black (.node .red left b cl) c (.node .red cr a right)
        | _ => .node color (.node .red left b inner) a right
  | tree => tree

/-- The source writes out the same with left and right exchanged. -/
def fixRightInsertionDiscrepancy (tree : RbTree α) : RbTree α := (fixLeftInsertionDiscrepancy tree.mirror).mirror

/-- The left child has lost a black node. The flag tells whether the whole tree has. -/
def fixLeftDeletionDiscrepancy : RbTree α → Except Failure (RbTree α × Bool)
  | .leaf => throw (.abort .treeDiscrepancy)
  | .node color left a .leaf =>
      if color = .red then pure (.node .black left a .leaf, false) else throw (.abort .treeDiscrepancy)
  | .node color left a (.node .red inner b outer) =>
      match inner with
      | .leaf => pure (.node .black (.node color left a .leaf) b outer, false)
      | .node .red _ _ _ => throw (.abort .treeDiscrepancy)
      | .node .black near c far =>
          match near with
          | .node .red dr d dl =>
              pure (.node .black (.node color left a dr) d (.node .red (.node .black dl c far) b outer), false)
          | _ =>
              if far.isRed then
                pure (.node .black (.node color left a near) c (.node .red far.blacken b outer), false)
              else
                pure (.node .black (.node color left a (.node .red near c far)) b outer, false)
  | .node color left a (.node .black inner b outer) =>
      match inner with
      | .node .red near c far => pure (.node color (.node .black left a near) c (.node .black far b outer), false)
      | _ =>
          if outer.isRed then pure (.node color (.node .black left a inner) b outer.blacken, false)
          else pure (.node .black left a (.node .red inner b outer), color = .black)

/-- The source writes out the same with left and right exchanged. -/
def fixRightDeletionDiscrepancy (tree : RbTree α) : Except Failure (RbTree α × Bool) :=
  (fixLeftDeletionDiscrepancy tree.mirror).map fun result => (result.1.mirror, result.2)

section
variable (cmp : α → α → Ordering) (address : α → Nat)

/-- Items that compare equal are ordered by their addresses. -/
def goesLeft (elem item : α) : Bool := cmp elem item = .lt || (cmp elem item = .eq && address elem < address item)

def goesRight (elem item : α) : Bool := cmp elem item = .gt || (cmp elem item = .eq && address item < address elem)

def sglibAddRecursive (elem : α) : RbTree α → RbTree α
  | .leaf => .node .red .leaf elem .leaf
  | .node color left item right =>
      if goesLeft cmp address elem item then
        let tree := .node color (sglibAddRecursive elem left) item right
        if color = .black then fixLeftInsertionDiscrepancy tree else tree
      else
        let tree := .node color left item (sglibAddRecursive elem right)
        if color = .black then fixRightInsertionDiscrepancy tree else tree

def sglibAdd (tree : RbTree α) (elem : α) : RbTree α := (sglibAddRecursive cmp address elem tree).blacken

/-- The last item leaves the tree. The flag tells whether the tree has lost a black node. -/
def sglibDeleteRightmostLeaf : RbTree α → Except Failure (RbTree α × α × Bool)
  | .leaf => throw (.abort .treeDiscrepancy)
  | .node color .leaf item .leaf => pure (.leaf, item, color = .black)
  | .node color (.node leftColor left next right) item .leaf =>
      pure (.node .black left next right, item, color = .black && leftColor = .black)
  | .node color left item (.node rightColor below next above) => do
      let (right, last, deepDecreased) ← sglibDeleteRightmostLeaf (.node rightColor below next above)
      if deepDecreased then
        let (tree, decreased) ← fixRightDeletionDiscrepancy (.node color left item right)
        pure (tree, last, decreased)
      else pure (.node color left item right, last, false)

/-- The node of the item that leaves is taken by the last one of its left side. -/
def deleteRoot (color : Color) (right : RbTree α) : RbTree α → Except Failure (RbTree α × Bool)
  | .leaf =>
      match right with
      | .leaf => pure (.leaf, color = .black)
      | .node rightColor below next above =>
          pure (.node .black below next above, color = .black && rightColor = .black)
  | left => do
      let (left, last, deepDecreased) ← sglibDeleteRightmostLeaf left
      if deepDecreased then fixLeftDeletionDiscrepancy (.node color left last right)
      else pure (.node color left last right, false)

def sglibDeleteRecursive (elem : α) : RbTree α → Except Failure (RbTree α × Bool)
  | .leaf => throw (.abort .treeDeleteMissing)
  | .node color left item right =>
      if goesLeft cmp address elem item then do
        let (left, deepDecreased) ← sglibDeleteRecursive elem left
        if deepDecreased then fixLeftDeletionDiscrepancy (.node color left item right)
        else pure (.node color left item right, false)
      else if goesRight cmp address elem item then do
        let (right, deepDecreased) ← sglibDeleteRecursive elem right
        if deepDecreased then fixRightDeletionDiscrepancy (.node color left item right)
        else pure (.node color left item right, false)
      else if address elem = address item then deleteRoot color right left
      else throw (.abort .treeDeleteOther)

def sglibDelete (tree : RbTree α) (elem : α) : Except Failure (RbTree α) := do
  let (tree, _) ← sglibDeleteRecursive cmp address elem tree
  pure tree.blacken

end

/-- The item at the root. -/
def rootItem : RbTree α → Option α
  | .leaf => none
  | .node _ _ item _ => some item

/-- The probe is `storage_item_cmp` with the item to find. -/
def sglibFindMember (probe : α → Ordering) (tree : RbTree α) : Option α := rootItem (tree.seek probe)

def sglibFindMemberOrNearestLesser (probe : α → Ordering) (nearest : Option α) : RbTree α → Option α
  | .leaf => nearest
  | .node _ left item right =>
      match probe item with
      | .lt => sglibFindMemberOrNearestLesser probe nearest left
      | .gt => sglibFindMemberOrNearestLesser probe (some item) right
      | .eq => some item

/-- A node on the path of an iterator, and how many of its sides were passed. -/
structure PathFrame (α : Type) where
  left : RbTree α
  item : α
  right : RbTree α
  pass : Nat

/-- The path of an iterator with its last node first. -/
abbrev Iterator (α : Type) := List (PathFrame α)

def maxTreeDeep : Nat := 128

/-- The number of turns that the loop can take at most. -/
def PathFrame.turns (frame : PathFrame α) : Nat :=
  if frame.pass = 0 then 3 + 3 * frame.left.toList.length + 3 * frame.right.toList.length
  else if frame.pass = 1 then 2 + 3 * frame.right.toList.length
  else 1

def iteratorTurns (path : Iterator α) : Nat := (path.map PathFrame.turns).sum

/-- The loop of `sglib__StorageItem_it_compute_current_elem` for the items that equal the probe, in order. -/
def itComputeLoop (probe : α → Ordering) : Nat → Iterator α → Except Failure (Option α × Iterator α)
  | 0, path => pure (none, path)
  | _ + 1, [] => pure (none, [])
  | turns + 1, frame :: below => do
      let path ←
        if 2 ≤ frame.pass then pure below
        else
          let side := if frame.pass = 0 then frame.left else frame.right
          let frame := { frame with pass := frame.pass + 1 }
          match side.seek probe with
          | .leaf => pure (frame :: below)
          | .node _ left item right =>
              if below.length + 1 < maxTreeDeep then pure ({ left, item, right, pass := 0 } :: frame :: below)
              else throw (.abort .memory)
      match path with
      | [] => pure (none, [])
      | top :: rest => if top.pass = 1 then pure (some top.item, top :: rest) else itComputeLoop probe turns (top :: rest)

def sglibItNext (probe : α → Ordering) (path : Iterator α) : Except Failure (Option α × Iterator α) :=
  itComputeLoop probe (iteratorTurns path) path

/-- The iterator starts at the item that equals the probe and is found first. -/
def sglibItInitOnEqual (probe : α → Ordering) (tree : RbTree α) : Except Failure (Option α × Iterator α) :=
  match tree.seek probe with
  | .leaf => pure (none, [])
  | .node _ left item right => sglibItNext probe [{ left, item, right, pass := 0 }]

end Menoetius
