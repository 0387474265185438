import Menoetius.TreeBalance

/-
This file shows that an iterator meets every item that equals its probe once, in the order of the tree.
-/

namespace Menoetius
open SearchTree RbTree

variable {α : Type}

section
variable (probe : α → Ordering)

/-- What a node below the last one of the path still has to give. -/
def PathFrame.waiting (frame : PathFrame α) : List α :=
  if frame.pass = 1 then frame.item :: frame.right.equals probe else []

/-- What the last node still has to give, before its own item is looked at. -/
def PathFrame.upcoming (frame : PathFrame α) : List α :=
  if frame.pass = 0 then frame.left.equals probe ++ frame.item :: frame.right.equals probe else frame.waiting probe

/-- What the last node still has to give. An item is given when its left side is passed. -/
def PathFrame.pending (frame : PathFrame α) : List α :=
  if frame.pass = 1 then frame.right.equals probe else frame.upcoming probe

/-- The items that an iterator has not given yet. -/
def pendingItems : Iterator α → List α
  | [] => []
  | top :: below => top.pending probe ++ below.flatMap (PathFrame.waiting probe)

/-- The same in the middle of a turn of the loop. -/
def upcomingItems : Iterator α → List α
  | [] => []
  | top :: below => top.upcoming probe ++ below.flatMap (PathFrame.waiting probe)

/-- The end of a turn of the loop. -/
def itComputeCheck (turns : Nat) : Iterator α → Except Failure (Option α × Iterator α)
  | [] => .ok (none, [])
  | top :: rest => if top.pass = 1 then .ok (some top.item, top :: rest) else itComputeLoop probe turns (top :: rest)

end

/-- A path stays inside the array when the sides that remain are low enough, and its nodes are passed in turn. -/
def Sound (before : α → α → Prop) : Iterator α → Prop
  | [] => True
  | frame :: below =>
      (frame.left.toList.Pairwise before ∧ frame.right.toList.Pairwise before) ∧
      below.length + 1 + max frame.left.height frame.right.height ≤ maxTreeDeep ∧
      (∀ other ∈ below, 0 < other.pass) ∧ Sound before below

variable {before : α → α → Prop} {probe : α → Ordering}

theorem itComputeLoop_passed {frame : PathFrame α} (passed : 2 ≤ frame.pass) (below : Iterator α) (turns : Nat) :
    itComputeLoop probe (turns + 1) (frame :: below) = itComputeCheck probe turns below := by
  rw [itComputeLoop, if_pos passed]
  cases below <;> rfl

/-- The side that a turn looks at. -/
def PathFrame.side (frame : PathFrame α) : RbTree α := if frame.pass = 0 then frame.left else frame.right

theorem itComputeLoop_empty {frame : PathFrame α} (unfinished : frame.pass < 2) (empty : frame.side.seek probe = .leaf)
    (below : Iterator α) (turns : Nat) :
    itComputeLoop probe (turns + 1) (frame :: below) =
      itComputeCheck probe turns ({ frame with pass := frame.pass + 1 } :: below) := by
  rw [PathFrame.side] at empty
  rw [itComputeLoop, if_neg (by omega)]
  simp only [empty]
  rfl

theorem itComputeLoop_found {frame : PathFrame α} (unfinished : frame.pass < 2) {color : Color} {left right : RbTree α} {item : α}
    (found : frame.side.seek probe = .node color left item right) {below : Iterator α}
    (room : below.length + 1 < maxTreeDeep) (turns : Nat) :
    itComputeLoop probe (turns + 1) (frame :: below) =
      itComputeCheck probe turns
        ({ left, item, right, pass := 0 } :: { frame with pass := frame.pass + 1 } :: below) := by
  rw [PathFrame.side] at found
  rw [itComputeLoop, if_neg (by omega)]
  simp only [found, if_pos room]
  rfl

/-- A turn moves the items of a side from the node to a node of that side. -/
theorem pending_of_turn {frame : PathFrame α} (unfinished : frame.pass < 2) (below : Iterator α) :
    pendingItems probe (frame :: below) =
      frame.side.equals probe ++ upcomingItems probe ({ frame with pass := frame.pass + 1 } :: below) := by
  rcases frame with ⟨left, item, right, pass⟩
  change pass < 2 at unfinished
  obtain rfl | rfl : pass = 0 ∨ pass = 1 := by omega
  · simp [pendingItems, upcomingItems, PathFrame.pending, PathFrame.upcoming, PathFrame.waiting, PathFrame.side]
  · simp [pendingItems, upcomingItems, PathFrame.pending, PathFrame.upcoming, PathFrame.waiting, PathFrame.side]

theorem side_sorted {frame : PathFrame α} {below : Iterator α} (sound : Sound before (frame :: below)) :
    frame.side.toList.Pairwise before := by
  rw [PathFrame.side]
  split
  · exact sound.1.1
  · exact sound.1.2

theorem side_height (frame : PathFrame α) : frame.side.height ≤ max frame.left.height frame.right.height := by
  rw [PathFrame.side]
  split
  · exact le_max_left _ _
  · exact le_max_right _ _

/-- A turn takes at least one from the count of turns. -/
theorem turns_of_side {frame : PathFrame α} (unfinished : frame.pass < 2) (below : Iterator α) :
    iteratorTurns ({ frame with pass := frame.pass + 1 } :: below) + 3 * frame.side.toList.length <
      iteratorTurns (frame :: below) := by
  rcases frame with ⟨left, item, right, pass⟩
  change pass < 2 at unfinished
  simp only [iteratorTurns, List.map_cons, List.sum_cons]
  obtain rfl | rfl : pass = 0 ∨ pass = 1 := by omega
  · simp only [PathFrame.turns, PathFrame.side]
    simp
    omega
  · simp only [PathFrame.turns, PathFrame.side]
    simp
    omega

theorem iteratorTurns_cons_pos (frame : PathFrame α) (below : Iterator α) :
    iteratorTurns below < iteratorTurns (frame :: below) := by
  have turns : 0 < frame.turns := by
    rw [PathFrame.turns]
    split
    · omega
    · split <;> omega
  rw [iteratorTurns, iteratorTurns, List.map_cons, List.sum_cons]
  omega

/-- A node below the last one waits with the same items when it becomes the last one. -/
theorem upcoming_of_waiting {path : Iterator α} (passed : ∀ frame ∈ path, 0 < frame.pass) :
    upcomingItems probe path = path.flatMap (PathFrame.waiting probe) := by
  cases path with
  | nil => rfl
  | cons frame below =>
      have pos : frame.pass ≠ 0 := (passed frame List.mem_cons_self).ne'
      rw [upcomingItems, PathFrame.upcoming, if_neg pos, List.flatMap_cons]

theorem pending_of_passed {frame : PathFrame α} (passed : 2 ≤ frame.pass) (below : Iterator α) :
    pendingItems probe (frame :: below) = below.flatMap (PathFrame.waiting probe) := by
  have first : ¬ frame.pass = 1 := by omega
  have second : ¬ frame.pass = 0 := by omega
  rw [pendingItems, PathFrame.pending, if_neg first, PathFrame.upcoming, if_neg second, PathFrame.waiting, if_neg first,
    List.nil_append]

/-- What a call leaves behind. -/
def Gives (before : α → α → Prop) (probe : α → Ordering) (items : List α)
    (result : Except Failure (Option α × Iterator α)) : Prop :=
  ∃ after, result = .ok (items.head?, after) ∧ Sound before after ∧ pendingItems probe after = items.tail

/-- The loop gives the next item. -/
theorem itComputeLoop_gives (cut : Cut before probe) (turns : Nat) {path : Iterator α} (sound : Sound before path)
    (enough : iteratorTurns path ≤ turns) :
    Gives before probe (pendingItems probe path) (itComputeLoop probe turns path) := by
  induction turns generalizing path with
  | zero =>
      cases path with
      | nil => exact ⟨[], rfl, trivial, rfl⟩
      | cons frame below =>
          have := iteratorTurns_cons_pos frame below
          omega
  | succ turns ih =>
      have check : ∀ path, Sound before path → iteratorTurns path ≤ turns →
          Gives before probe (upcomingItems probe path) (itComputeCheck probe turns path) := by
        intro path sound enough
        cases path with
        | nil => exact ⟨[], rfl, trivial, rfl⟩
        | cons top rest =>
            rw [itComputeCheck]
            split
            next one =>
              refine ⟨top :: rest, ?_, sound, ?_⟩
              · simp [upcomingItems, PathFrame.upcoming, PathFrame.waiting, one]
              · simp [pendingItems, upcomingItems, PathFrame.pending, PathFrame.upcoming, PathFrame.waiting, one]
            next other =>
              have same : pendingItems probe (top :: rest) = upcomingItems probe (top :: rest) := by
                rw [pendingItems, PathFrame.pending, if_neg other, upcomingItems]
              rw [← same]
              exact ih sound enough
      cases path with
      | nil => exact ⟨[], rfl, trivial, rfl⟩
      | cons frame below =>
          have deep := sound.2.1
          have fewer := iteratorTurns_cons_pos frame below
          by_cases passed : 2 ≤ frame.pass
          · rw [itComputeLoop_passed passed, pending_of_passed passed, ← upcoming_of_waiting sound.2.2.1]
            exact check below sound.2.2.2 (by omega)
          · have unfinished : frame.pass < 2 := by omega
            have turn := turns_of_side unfinished below
            rw [pending_of_turn unfinished]
            cases found : frame.side.seek probe with
            | leaf =>
                rw [itComputeLoop_empty unfinished found, equals_of_seek_leaf cut (side_sorted sound) found, List.nil_append]
                exact check _ sound (by omega)
            | node color left item right =>
                have part := seek_part probe frame.side
                have inside := side_height frame
                have size := part.1.length_le
                have height := part.2
                have sorted := (side_sorted sound).sublist part.1
                rw [found] at size height sorted
                rw [toList_node, List.length_append, List.length_cons] at size
                rw [RbTree.height] at height
                obtain ⟨sortedLeft, sortedRight, _, _⟩ := sorted_node sorted
                rw [itComputeLoop_found unfinished found (by omega), equals_of_seek cut (side_sorted sound) found]
                have stacked : ∀ other ∈ { frame with pass := frame.pass + 1 } :: below, 0 < other.pass :=
                  List.forall_mem_cons.mpr ⟨Nat.succ_pos _, sound.2.2.1⟩
                have order : (left.equals probe ++ item :: right.equals probe) ++
                    upcomingItems probe ({ frame with pass := frame.pass + 1 } :: below) =
                    upcomingItems probe
                      ({ left, item, right, pass := 0 } :: { frame with pass := frame.pass + 1 } :: below) := by
                  rw [upcoming_of_waiting stacked]
                  rfl
                rw [order]
                refine check _ ⟨⟨sortedLeft, sortedRight⟩, ?_, stacked, sound⟩ ?_
                · change below.length + 1 + 1 + max left.height right.height ≤ maxTreeDeep
                  omega
                · rw [iteratorTurns, List.map_cons, List.sum_cons]
                  change 3 + 3 * left.toList.length + 3 * right.toList.length +
                    iteratorTurns ({ frame with pass := frame.pass + 1 } :: below) ≤ turns
                  omega

theorem sglibItNext_gives (cut : Cut before probe) {path : Iterator α} (sound : Sound before path) :
    Gives before probe (pendingItems probe path) (sglibItNext probe path) :=
  itComputeLoop_gives cut _ sound le_rfl

/-- The iterator starts in front of all items of the tree that equal the probe. -/
theorem sglibItInitOnEqual_gives (cut : Cut before probe) {tree : RbTree α} (sorted : tree.toList.Pairwise before)
    (low : tree.height ≤ maxTreeDeep) :
    Gives before probe (tree.equals probe) (sglibItInitOnEqual probe tree) := by
  rw [sglibItInitOnEqual]
  cases found : tree.seek probe with
  | leaf =>
      rw [equals_of_seek_leaf cut sorted found]
      exact ⟨[], rfl, trivial, rfl⟩
  | node color left item right =>
      have part := seek_part probe tree
      have height := part.2
      have inside := sorted.sublist part.1
      rw [found] at height inside
      rw [RbTree.height] at height
      obtain ⟨sortedLeft, sortedRight, _, _⟩ := sorted_node inside
      rw [equals_of_seek cut sorted found]
      have start : pendingItems probe [{ left, item, right, pass := 0 }] =
          left.equals probe ++ item :: right.equals probe := List.append_nil _
      rw [← start]
      refine sglibItNext_gives cut ⟨⟨sortedLeft, sortedRight⟩, ?_, List.forall_mem_nil _, trivial⟩
      change 0 + 1 + max left.height right.height ≤ maxTreeDeep
      omega

end Menoetius
