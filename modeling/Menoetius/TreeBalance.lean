import Menoetius.Tree

/-
This file shows that insertions and deletions keep the trees balanced, so that no check of the source fails.
-/

namespace Menoetius
open SearchTree

variable {α : Type}

open RbTree

theorem balanced_color {tree : RbTree α} {color : Color} {count : Nat} (balanced : tree.Balanced color count) :
    color = if tree.isRed then .red else .black := by
  cases balanced <;> rfl

/-- A node that is not red is black. -/
theorem black_of_not_red {tree : RbTree α} {color : Color} {count : Nat} (balanced : tree.Balanced color count)
    (notRed : tree.isRed = false) : tree.Balanced .black count := by
  have same := balanced_color balanced
  rw [notRed] at same
  rw [same] at balanced
  exact balanced

theorem blacken_of_red {tree : RbTree α} {color : Color} {count : Nat} (balanced : tree.Balanced color count)
    (red : tree.isRed = true) : tree.blacken.Balanced .black (count + 1) := by
  cases balanced with
  | leaf => cases red
  | red left right => exact .black left right
  | black left right => cases red

/-- A tree is balanced but for a red child of its red root. -/
def AlmostBalanced (tree : RbTree α) (count : Nat) : Prop :=
  (∃ color, tree.Balanced color count) ∨
    ∃ left item right leftColor rightColor, tree = .node .red left item right ∧ left.Balanced leftColor count ∧
      right.Balanced rightColor count ∧ (leftColor = .black ∨ rightColor = .black)

theorem AlmostBalanced.mirror {tree : RbTree α} {count : Nat} (almost : AlmostBalanced tree count) :
    AlmostBalanced tree.mirror count := by
  rcases almost with ⟨color, balanced⟩ | ⟨left, item, right, leftColor, rightColor, rfl, first, second, black⟩
  · exact Or.inl ⟨color, balanced.mirror⟩
  · exact Or.inr ⟨right.mirror, item, left.mirror, rightColor, leftColor, rfl, second.mirror, first.mirror, black.symm⟩

/-- The children of a red root, of which one is black. -/
theorem AlmostBalanced.children {left right : RbTree α} {item : α} {count : Nat}
    (almost : AlmostBalanced (.node .red left item right) count) :
    ∃ leftColor rightColor, left.Balanced leftColor count ∧ right.Balanced rightColor count ∧
      (leftColor = .black ∨ rightColor = .black) := by
  rcases almost with ⟨color, balanced⟩ | ⟨_, _, _, leftColor, rightColor, same, first, second, black⟩
  · cases balanced with
    | red first second => exact ⟨_, _, first, second, Or.inl rfl⟩
  · cases same
    exact ⟨leftColor, rightColor, first, second, black⟩

/-- The repair of an insertion on the left. -/
theorem fixLeftInsertion_balanced {left right : RbTree α} {item : α} {color : Color} {count : Nat}
    (almost : AlmostBalanced left count) (balanced : right.Balanced color count) :
    ∃ after, (fixLeftInsertionDiscrepancy (.node .black left item right)).Balanced after (count + 1) := by
  cases left with
  | leaf =>
      rcases almost with ⟨_, first⟩ | ⟨_, _, _, _, _, same, _⟩
      · exact ⟨.black, .black first balanced⟩
      · cases same
  | node leftColor outer b inner =>
      cases leftColor with
      | black =>
          rcases almost with ⟨_, first⟩ | ⟨_, _, _, _, _, same, _⟩
          · exact ⟨.black, .black first balanced⟩
          · cases same
      | red =>
          obtain ⟨outerColor, innerColor, first, second, oneBlack⟩ := almost.children
          have outerIs := balanced_color first
          have innerIs := balanced_color second
          simp only [fixLeftInsertionDiscrepancy]
          split
          next rightRed =>
            split
            next => exact ⟨.red, .red (.black first second) (blacken_of_red balanced rightRed)⟩
            next neither =>
              rw [Bool.or_eq_true, not_or, Bool.not_eq_true, Bool.not_eq_true] at neither
              exact ⟨.black, .black (.red (black_of_not_red first neither.1) (black_of_not_red second neither.2))
                balanced⟩
          next rightBlack =>
            have rightIs := black_of_not_red balanced (by simpa using rightBlack)
            split
            next outerRed =>
              rw [outerRed, if_pos rfl] at outerIs
              have innerBlack : innerColor = .black := oneBlack.resolve_left (by rw [outerIs]; exact nofun)
              rw [innerBlack] at second
              exact ⟨.black, .black first (.red second rightIs)⟩
            next outerBlack =>
              have outerIs := black_of_not_red first (by simpa using outerBlack)
              split
              next cl c cr =>
                cases second with
                | red below above => exact ⟨.black, .black (.red outerIs below) (.red above rightIs)⟩
              next notRed =>
                have innerIs : inner.Balanced .black count := by
                  apply black_of_not_red second
                  cases inner with
                  | leaf => rfl
                  | node color cl c cr =>
                      cases color with
                      | red => exact absurd rfl (notRed cl c cr)
                      | black => rfl
                exact ⟨.black, .black (.red outerIs innerIs) balanced⟩

/-- The repair of an insertion on the right. -/
theorem fixRightInsertion_balanced {left right : RbTree α} {item : α} {color : Color} {count : Nat}
    (balanced : left.Balanced color count) (almost : AlmostBalanced right count) :
    ∃ after, (fixRightInsertionDiscrepancy (.node .black left item right)).Balanced after (count + 1) := by
  obtain ⟨after, fixed⟩ := @fixLeftInsertion_balanced α right.mirror left.mirror item color count almost.mirror
    balanced.mirror
  exact ⟨after, fixed.mirror⟩

theorem fixLeftInsertion_toList (tree : RbTree α) : (fixLeftInsertionDiscrepancy tree).toList = tree.toList := by
  fun_cases fixLeftInsertionDiscrepancy tree <;> simp

theorem fixRightInsertion_toList (tree : RbTree α) : (fixRightInsertionDiscrepancy tree).toList = tree.toList := by
  rw [fixRightInsertionDiscrepancy, toList_mirror, fixLeftInsertion_toList, toList_mirror, List.reverse_reverse]

section
variable (cmp : α → α → Ordering) (address : α → Nat) (elem : α)

/-- An insertion below a black root leaves a balanced tree, and one below a red root may leave a red child. -/
theorem sglibAddRecursive_balanced {tree : RbTree α} {color : Color} {count : Nat}
    (balanced : tree.Balanced color count) :
    AlmostBalanced (sglibAddRecursive cmp address elem tree) count ∧
      (color = .black → ∃ after, (sglibAddRecursive cmp address elem tree).Balanced after count) := by
  induction balanced with
  | leaf =>
      have single : (RbTree.node .red .leaf elem .leaf : RbTree α).Balanced .red 0 := .red .leaf .leaf
      exact ⟨Or.inl ⟨_, single⟩, fun _ => ⟨_, single⟩⟩
  | @red left right item count first second ihLeft ihRight =>
      refine ⟨?_, nofun⟩
      rw [sglibAddRecursive]
      split
      · obtain ⟨after, grown⟩ := ihLeft.2 rfl
        exact Or.inr ⟨_, _, _, _, _, rfl, grown, second, Or.inr rfl⟩
      · obtain ⟨after, grown⟩ := ihRight.2 rfl
        exact Or.inr ⟨_, _, _, _, _, rfl, first, grown, Or.inl rfl⟩
  | @black left right item leftColor rightColor count first second ihLeft ihRight =>
      have fixed : ∃ after, (sglibAddRecursive cmp address elem (.node .black left item right)).Balanced after
          (count + 1) := by
        rw [sglibAddRecursive]
        split
        · exact fixLeftInsertion_balanced ihLeft.1 second
        · exact fixRightInsertion_balanced first ihRight.1
      exact ⟨Or.inl fixed, fun _ => fixed⟩

theorem sglibAdd_balanced {tree : RbTree α} {color : Color} {count : Nat} (balanced : tree.Balanced color count) :
    ∃ after, (sglibAdd cmp address tree elem).Balanced .black after := by
  rcases (sglibAddRecursive_balanced cmp address elem balanced).1 with
    ⟨after, grown⟩ | ⟨left, item, right, _, _, same, first, second, _⟩
  · exact grown.blacken
  · rw [sglibAdd, same]
    exact ⟨_, .black first second⟩

end

/-- What a deletion leaves of a balanced tree: it may be short of one black node below a black root. -/
def Shortened (color : Color) (count : Nat) (tree : RbTree α) (decreased : Bool) : Prop :=
  if decreased then color = .black ∧ ∃ less, count = less + 1 ∧ tree.Balanced .black less
  else ∃ after, tree.Balanced after count ∧ (color = .black → after = .black)

theorem Shortened.mirror {color : Color} {count : Nat} {tree : RbTree α} {decreased : Bool}
    (shortened : Shortened color count tree decreased) : Shortened color count tree.mirror decreased := by
  cases decreased with
  | true =>
      obtain ⟨black, less, same, balanced⟩ := shortened
      exact ⟨black, less, same, balanced.mirror⟩
  | false =>
      obtain ⟨after, balanced, black⟩ := shortened
      exact ⟨after, balanced.mirror, black⟩

/-- A node of a color over two sides with as many black nodes. -/
def under (color : Color) (count : Nat) : Nat :=
  match color with
  | .red => count
  | .black => count + 1

theorem balanced_under {color leftColor rightColor : Color} {left right : RbTree α} {item : α} {count : Nat}
    (first : left.Balanced leftColor count) (second : right.Balanced rightColor count)
    (sides : color = .red → leftColor = .black ∧ rightColor = .black) :
    (RbTree.node color left item right).Balanced color (under color count) := by
  cases color with
  | red =>
      obtain ⟨rfl, rfl⟩ := sides rfl
      exact .red first second
  | black => exact .black first second

theorem of_balanced_node {color after : Color} {left right : RbTree α} {item : α} {count : Nat}
    (balanced : (RbTree.node color left item right).Balanced after count) :
    after = color ∧ ∃ less leftColor rightColor, count = under color less ∧ left.Balanced leftColor less ∧
      right.Balanced rightColor less ∧ (color = .red → leftColor = .black ∧ rightColor = .black) := by
  cases balanced with
  | red first second => exact ⟨rfl, _, _, _, rfl, first, second, fun _ => ⟨rfl, rfl⟩⟩
  | black first second => exact ⟨rfl, _, _, _, rfl, first, second, nofun⟩

theorem shortened_same {color : Color} {count : Nat} {tree : RbTree α} (balanced : tree.Balanced color count) :
    Shortened color count tree false := ⟨color, balanced, id⟩

/-- The repair of a deletion on the left, where the left side is short of one black node. -/
theorem fixLeftDeletion_run {color rightColor : Color} {left right : RbTree α} {item : α} {count : Nat}
    (first : left.Balanced .black count) (second : right.Balanced rightColor (count + 1))
    (sides : color = .red → rightColor = .black) :
    ∃ tree decreased, fixLeftDeletionDiscrepancy (.node color left item right) = .ok (tree, decreased) ∧
      tree.toList = left.toList ++ item :: right.toList ∧ Shortened color (under color (count + 1)) tree decreased := by
  cases right with
  | leaf => cases second
  | node bColor inner b outer =>
      cases bColor with
      | red =>
          -- A red node has a black parent and black children, of which the inner one is there.
          obtain rfl : color = .black := by
            cases second
            cases color with
            | red => exact absurd (sides rfl) nofun
            | black => rfl
          cases second with
          | red innerBlack outerBlack =>
              cases innerBlack with
              | @black near far c nearColor farColor _ nearBalanced farBalanced =>
                  simp only [fixLeftDeletionDiscrepancy]
                  split
                  next dr d dl =>
                    cases nearBalanced with
                    | red below above =>
                        exact ⟨_, _, rfl, by simp, shortened_same
                          (.black (.black first below) (.red (.black above farBalanced) outerBlack))⟩
                  next notRed =>
                    have nearBlack : near.Balanced .black count := by
                      apply black_of_not_red nearBalanced
                      cases near with
                      | leaf => rfl
                      | node color dr d dl =>
                          cases color with
                          | red => exact absurd rfl (notRed dr d dl)
                          | black => rfl
                    split
                    next farRed =>
                      exact ⟨_, _, rfl, by simp, shortened_same
                        (.black (.black first nearBlack) (.red (blacken_of_red farBalanced farRed) outerBlack))⟩
                    next farNotRed =>
                      have farBlack := black_of_not_red farBalanced (by simpa using farNotRed)
                      exact ⟨_, _, rfl, by simp, shortened_same
                        (.black (.black first (.red nearBlack farBlack)) outerBlack)⟩
      | black =>
          cases second with
          | @black _ _ _ innerColor outerColor _ innerBalanced outerBalanced =>
              simp only [fixLeftDeletionDiscrepancy]
              split
              next near c far =>
                cases innerBalanced with
                | red below above =>
                    exact ⟨_, _, rfl, by simp, shortened_same
                      (balanced_under (.black first below) (.black above outerBalanced) fun _ => ⟨rfl, rfl⟩)⟩
              next notRed =>
                have innerBlack : inner.Balanced .black count := by
                  apply black_of_not_red innerBalanced
                  cases inner with
                  | leaf => rfl
                  | node color near c far =>
                      cases color with
                      | red => exact absurd rfl (notRed near c far)
                      | black => rfl
                split
                next outerRed =>
                  exact ⟨_, _, rfl, by simp, shortened_same
                    (balanced_under (.black first innerBlack) (blacken_of_red outerBalanced outerRed)
                      fun _ => ⟨rfl, rfl⟩)⟩
                next outerNotRed =>
                  have outerBlack := black_of_not_red outerBalanced (by simpa using outerNotRed)
                  have flat : (RbTree.node .black left item (.node .red inner b outer)).Balanced .black (count + 1) :=
                    .black first (.red innerBlack outerBlack)
                  refine ⟨_, _, rfl, by simp, ?_⟩
                  cases color with
                  | red => exact ⟨.black, flat, nofun⟩
                  | black => exact ⟨rfl, count + 1, rfl, flat⟩

/-- The repair of a deletion on the right. -/
theorem fixRightDeletion_run {color leftColor : Color} {left right : RbTree α} {item : α} {count : Nat}
    (first : left.Balanced leftColor (count + 1)) (second : right.Balanced .black count)
    (sides : color = .red → leftColor = .black) :
    ∃ tree decreased, fixRightDeletionDiscrepancy (.node color left item right) = .ok (tree, decreased) ∧
      tree.toList = left.toList ++ item :: right.toList ∧ Shortened color (under color (count + 1)) tree decreased := by
  obtain ⟨tree, decreased, run, list, shortened⟩ := @fixLeftDeletion_run α color leftColor right.mirror left.mirror item
    count second.mirror first.mirror sides
  refine ⟨tree.mirror, decreased, ?_, ?_, shortened.mirror⟩
  · rw [fixRightDeletionDiscrepancy, mirror_node, run]
    rfl
  · rw [toList_mirror, list, toList_mirror, toList_mirror]
    simp

/-- A side that has lost an item, below a node that has not changed. -/
theorem shortened_right {color leftColor rightColor : Color} {left right : RbTree α} {item : α} {count : Nat}
    (first : left.Balanced leftColor count) (second : Shortened rightColor count right false)
    (sides : color = .red → leftColor = .black ∧ rightColor = .black) :
    Shortened color (under color count) (.node color left item right) false := by
  obtain ⟨after, balanced, black⟩ := second
  exact shortened_same (balanced_under first balanced fun red => ⟨(sides red).1, black (sides red).2⟩)

theorem shortened_left {color leftColor rightColor : Color} {left right : RbTree α} {item : α} {count : Nat}
    (first : Shortened leftColor count left false) (second : right.Balanced rightColor count)
    (sides : color = .red → leftColor = .black ∧ rightColor = .black) :
    Shortened color (under color count) (.node color left item right) false := by
  obtain ⟨after, balanced, black⟩ := first
  exact shortened_same (balanced_under balanced second fun red => ⟨black (sides red).1, (sides red).2⟩)

/-- The only node next to an empty side is red and has no children. -/
theorem balanced_zero {tree : RbTree α} {color : Color} (balanced : tree.Balanced color 0) (some : tree ≠ .leaf) :
    ∃ item, tree = .node .red .leaf item .leaf := by
  cases balanced with
  | leaf => exact absurd rfl some
  | red first second =>
      cases first
      cases second
      exact ⟨_, rfl⟩

/-- The last item leaves the tree. -/
theorem sglibDeleteRightmostLeaf_run {tree : RbTree α} {color : Color} {count : Nat}
    (balanced : tree.Balanced color count) (some : tree ≠ .leaf) :
    ∃ after last decreased, sglibDeleteRightmostLeaf tree = .ok (after, last, decreased) ∧
      tree.toList = after.toList ++ [last] ∧ Shortened color count after decreased := by
  fun_induction sglibDeleteRightmostLeaf tree generalizing color count with
  | case1 => exact absurd rfl some
  | case2 own item =>
      refine ⟨_, _, _, rfl, rfl, ?_⟩
      cases balanced with
      | red first second =>
          cases first
          exact ⟨.black, .leaf, nofun⟩
      | black first second =>
          cases first
          exact ⟨rfl, 0, rfl, .leaf⟩
  | case3 own leftColor left next right item =>
      refine ⟨_, _, _, rfl, by simp, ?_⟩
      obtain ⟨rfl, less, firstColor, secondColor, rfl, first, second, sides⟩ := of_balanced_node balanced
      cases second
      obtain ⟨single, same⟩ := balanced_zero first nofun
      cases same
      cases first
      cases color with
      | red => exact absurd (sides rfl).1 nofun
      | black => exact ⟨.black, .black .leaf .leaf, fun _ => rfl⟩
  | case4 own left item rightColor below next above ih =>
      obtain ⟨rfl, less, firstColor, secondColor, rfl, first, second, sides⟩ := of_balanced_node balanced
      obtain ⟨right, last, decreased, run, list, shortened⟩ := ih second nofun
      rw [run]
      cases decreased with
      | false =>
          refine ⟨_, _, _, rfl, ?_, shortened_right first shortened sides⟩
          rw [toList_node, list, toList_node, List.append_assoc, List.cons_append]
      | true =>
          obtain ⟨rfl, fewer, rfl, short⟩ := shortened
          obtain ⟨tree, decreased, fixed, whole, done⟩ := @fixRightDeletion_run α color firstColor left right item fewer
            first short fun red => (sides red).1
          refine ⟨tree, last, decreased, ?_, ?_, done⟩
          · change (fixRightDeletionDiscrepancy _ >>= _) = _
            rw [fixed]
            rfl
          · rw [toList_node, list, whole, List.append_assoc, List.cons_append]

/-- The root leaves the tree. -/
theorem deleteRoot_run {color leftColor rightColor : Color} {left right : RbTree α} {count : Nat}
    (first : left.Balanced leftColor count) (second : right.Balanced rightColor count)
    (sides : color = .red → leftColor = .black ∧ rightColor = .black) :
    ∃ tree decreased, deleteRoot color right left = .ok (tree, decreased) ∧
      tree.toList = left.toList ++ right.toList ∧ Shortened color (under color count) tree decreased := by
  cases left with
  | leaf =>
      cases first
      by_cases empty : right = .leaf
      · rw [empty]
        refine ⟨_, _, rfl, rfl, ?_⟩
        cases color with
        | red => exact ⟨.black, .leaf, nofun⟩
        | black => exact ⟨rfl, 0, rfl, .leaf⟩
      · obtain ⟨item, same⟩ := balanced_zero second empty
        cases same
        refine ⟨_, _, rfl, rfl, ?_⟩
        cases second
        cases color with
        | red => exact absurd (sides rfl).2 nofun
        | black => exact ⟨.black, .black .leaf .leaf, fun _ => rfl⟩
  | node own below item above =>
      obtain ⟨rest, last, decreased, run, list, shortened⟩ := sglibDeleteRightmostLeaf_run first nofun
      have start : deleteRoot color right (.node own below item above) =
          (if decreased then fixLeftDeletionDiscrepancy (.node color rest last right)
            else .ok (.node color rest last right, false)) := by
        change (sglibDeleteRightmostLeaf (.node own below item above) >>= _) = _
        rw [run]
        rfl
      rw [start, list]
      cases decreased with
      | false =>
          refine ⟨_, _, rfl, ?_, shortened_left shortened second sides⟩
          rw [toList_node, List.append_assoc]
          rfl
      | true =>
          obtain ⟨rfl, fewer, rfl, short⟩ := shortened
          obtain ⟨tree, decreased, fixed, whole, done⟩ := @fixLeftDeletion_run α color rightColor rest right last fewer
            short second fun red => (sides red).2
          refine ⟨tree, decreased, fixed, ?_, done⟩
          rw [whole, List.append_assoc]
          rfl

section Order
variable (cmp : α → α → Ordering) (address : α → Nat)

/-- The order of the trees: by the comparison, and among equal items by the address. -/
def Before (first second : α) : Prop :=
  cmp first second = .lt ∨ (cmp first second = .eq ∧ address first < address second)

variable {cmp address}

/-- A tree that is balanced below a black root and sorted. -/
structure Indexed (cmp : α → α → Ordering) (address : α → Nat) (tree : RbTree α) : Prop where
  balanced : ∃ count, tree.Balanced .black count
  sorted : tree.toList.Pairwise (Before cmp address)

theorem Indexed.leaf : Indexed cmp address (.leaf : RbTree α) := ⟨⟨0, .leaf⟩, List.Pairwise.nil⟩

theorem goesLeft_iff {elem item : α} : goesLeft cmp address elem item = true ↔ Before cmp address elem item := by
  simp [goesLeft, Before]

theorem goesRight_iff [Std.OrientedCmp cmp] {elem item : α} :
    goesRight cmp address elem item = true ↔ Before cmp address item elem := by
  simp [goesRight, Before, Std.OrientedCmp.gt_iff_lt, @Std.OrientedCmp.eq_comm α cmp _ elem]

variable [Std.TransCmp cmp]

theorem Before.trans {first second third : α} (start : Before cmp address first second)
    (rest : Before cmp address second third) : Before cmp address first third := by
  rcases start with less | ⟨equal, less⟩
  · rcases rest with more | ⟨same, _⟩
    · exact Or.inl (Std.TransCmp.lt_trans less more)
    · exact Or.inl (Std.TransCmp.lt_of_lt_of_eq less same)
  · rcases rest with more | ⟨same, more⟩
    · exact Or.inl (Std.TransCmp.lt_of_eq_of_lt equal more)
    · exact Or.inr ⟨Std.TransCmp.eq_trans equal same, less.trans more⟩

theorem not_before_self (item : α) : ¬ Before cmp address item item := by
  rintro (less | ⟨_, less⟩)
  · rw [@Std.ReflCmp.compare_self α cmp _ item] at less
    cases less
  · exact absurd less (lt_irrefl _)

theorem Before.asymm {first second : α} (start : Before cmp address first second) :
    ¬ Before cmp address second first := fun back => not_before_self first (start.trans back)

/-- Two items with different addresses stand in one order or the other. -/
theorem before_or {first second : α} (different : address first ≠ address second) :
    Before cmp address first second ∨ Before cmp address second first := by
  cases order : cmp first second with
  | lt => exact Or.inl (Or.inl order)
  | gt => exact Or.inr (Or.inl (Std.OrientedCmp.gt_iff_lt.mp order))
  | eq =>
      rcases Nat.lt_or_gt_of_ne different with less | more
      · exact Or.inl (Or.inr ⟨order, less⟩)
      · exact Or.inr (Or.inr ⟨Std.OrientedCmp.eq_comm.mp order, more⟩)

/-- An item of the tree leaves it. -/
theorem sglibDeleteRecursive_run {elem : α} {tree : RbTree α} {color : Color} {count : Nat}
    (balanced : tree.Balanced color count) (sorted : tree.toList.Pairwise (Before cmp address))
    (member : elem ∈ tree.toList) :
    ∃ after decreased, sglibDeleteRecursive cmp address elem tree = .ok (after, decreased) ∧
      (∃ front back, tree.toList = front ++ elem :: back ∧ after.toList = front ++ back) ∧
      Shortened color count after decreased := by
  induction tree generalizing color count with
  | leaf => cases member
  | node own left item right ihLeft ihRight =>
      obtain ⟨sortedLeft, sortedRight, below, above⟩ := sorted_node sorted
      obtain ⟨rfl, less, firstColor, secondColor, rfl, first, second, sides⟩ := of_balanced_node balanced
      rw [sglibDeleteRecursive]
      rcases List.mem_append.mp member with inLeft | here
      · rw [if_pos (goesLeft_iff.mpr (below elem inLeft))]
        obtain ⟨after, decreased, run, ⟨front, back, split, list⟩, shortened⟩ := ihLeft first sortedLeft inLeft
        rw [run]
        have whole : (RbTree.node color left item right).toList = front ++ elem :: (back ++ item :: right.toList) := by
          rw [toList_node, split, List.append_assoc]
          rfl
        cases decreased with
        | false =>
            refine ⟨_, _, rfl, ⟨front, _, whole, ?_⟩, shortened_left shortened second sides⟩
            rw [toList_node, list, List.append_assoc]
        | true =>
            obtain ⟨rfl, fewer, rfl, short⟩ := shortened
            obtain ⟨tree, decreased, fixed, total, done⟩ := @fixLeftDeletion_run α color secondColor after right item
              fewer short second fun red => (sides red).2
            refine ⟨tree, decreased, fixed, ⟨front, _, whole, ?_⟩, done⟩
            rw [total, list, List.append_assoc]
      · rcases List.mem_cons.mp here with rfl | inRight
        · have notLeft : ¬ goesLeft cmp address elem elem = true := fun goes => not_before_self elem (goesLeft_iff.mp goes)
          have notRight : ¬ goesRight cmp address elem elem = true :=
            fun goes => not_before_self elem (goesRight_iff.mp goes)
          rw [if_neg notLeft, if_neg notRight, if_pos rfl]
          obtain ⟨tree, decreased, run, list, shortened⟩ := @deleteRoot_run α color firstColor secondColor left right less
            first second sides
          exact ⟨tree, decreased, run, ⟨left.toList, right.toList, rfl, list⟩, shortened⟩
        · have order := above elem inRight
          have notLeft : ¬ goesLeft cmp address elem item = true := fun goes => order.asymm (goesLeft_iff.mp goes)
          rw [if_neg notLeft, if_pos (goesRight_iff.mpr order)]
          obtain ⟨after, decreased, run, ⟨front, back, split, list⟩, shortened⟩ := ihRight second sortedRight inRight
          rw [run]
          have whole : (RbTree.node color left item right).toList = (left.toList ++ item :: front) ++ elem :: back := by
            rw [toList_node, split, List.append_assoc]
            rfl
          cases decreased with
          | false =>
              refine ⟨_, _, rfl, ⟨_, back, whole, ?_⟩, shortened_right first shortened sides⟩
              rw [toList_node, list, List.append_assoc]
              rfl
          | true =>
              obtain ⟨rfl, fewer, rfl, short⟩ := shortened
              obtain ⟨tree, decreased, fixed, total, done⟩ := @fixRightDeletion_run α color firstColor left after item
                fewer first short fun red => (sides red).1
              refine ⟨tree, decreased, fixed, ⟨_, back, whole, ?_⟩, done⟩
              rw [total, list, List.append_assoc]
              rfl

/-- A deletion takes the item out of the list. -/
theorem sglibDelete_run {tree : RbTree α} (indexed : Indexed cmp address tree) {elem : α} (member : elem ∈ tree.toList) :
    ∃ after, sglibDelete cmp address tree elem = .ok after ∧ Indexed cmp address after ∧
      ∃ front back, tree.toList = front ++ elem :: back ∧ after.toList = front ++ back := by
  obtain ⟨count, balanced⟩ := indexed.balanced
  obtain ⟨after, decreased, run, ⟨front, back, split, list⟩, shortened⟩ :=
    sglibDeleteRecursive_run balanced indexed.sorted member
  have still : ∃ color less, after.Balanced color less := by
    cases decreased with
    | true =>
        obtain ⟨_, less, _, short⟩ := shortened
        exact ⟨_, less, short⟩
    | false =>
        obtain ⟨color, same, _⟩ := shortened
        exact ⟨color, count, same⟩
  obtain ⟨color, less, kept⟩ := still
  refine ⟨after.blacken, ?_, ⟨kept.blacken, ?_⟩, front, back, split, ?_⟩
  · rw [sglibDelete, run]
    rfl
  · rw [toList_blacken, list]
    refine indexed.sorted.sublist ?_
    rw [split]
    exact List.Sublist.append_left (List.sublist_cons_self _ _) _
  · rw [toList_blacken, list]

/-- An item that is not yet in the tree takes its place in the order. -/
theorem sglibAddRecursive_split {elem : α} {tree : RbTree α} (sorted : tree.toList.Pairwise (Before cmp address))
    (fresh : ∀ item ∈ tree.toList, address elem ≠ address item) :
    ∃ front back, tree.toList = front ++ back ∧
      (sglibAddRecursive cmp address elem tree).toList = front ++ elem :: back ∧
      (∀ item ∈ front, Before cmp address item elem) ∧ ∀ item ∈ back, Before cmp address elem item := by
  induction tree with
  | leaf => exact ⟨[], [], rfl, rfl, nofun, nofun⟩
  | node color left item right ihLeft ihRight =>
      obtain ⟨sortedLeft, sortedRight, below, above⟩ := sorted_node sorted
      have freshLeft : ∀ other ∈ left.toList, address elem ≠ address other :=
        fun other mem => fresh other (List.mem_append_left _ mem)
      have freshRight : ∀ other ∈ right.toList, address elem ≠ address other :=
        fun other mem => fresh other (List.mem_append_right _ (List.mem_cons_of_mem _ mem))
      have here : address elem ≠ address item := fresh item (List.mem_append_right _ List.mem_cons_self)
      rw [sglibAddRecursive]
      split
      next goes =>
        have order := goesLeft_iff.mp goes
        obtain ⟨front, back, split, list, less, more⟩ := ihLeft sortedLeft freshLeft
        refine ⟨front, back ++ item :: right.toList, ?_, ?_, less, ?_⟩
        · rw [toList_node, split, List.append_assoc]
        · have same : (RbTree.node color (sglibAddRecursive cmp address elem left) item right).toList =
              front ++ elem :: (back ++ item :: right.toList) := by
            rw [toList_node, list, List.append_assoc]
            rfl
          dsimp only
          split
          · rw [fixLeftInsertion_toList, same]
          · exact same
        · intro other mem
          rcases List.mem_append.mp mem with inBack | rest
          · exact more other inBack
          · rcases List.mem_cons.mp rest with rfl | inRight
            · exact order
            · exact order.trans (above other inRight)
      next stays =>
        have order : Before cmp address item elem :=
          (before_or here).resolve_left fun less => stays (goesLeft_iff.mpr less)
        obtain ⟨front, back, split, list, less, more⟩ := ihRight sortedRight freshRight
        refine ⟨left.toList ++ item :: front, back, ?_, ?_, ?_, more⟩
        · rw [toList_node, split, List.append_assoc]
          rfl
        · have same : (RbTree.node color left item (sglibAddRecursive cmp address elem right)).toList =
              (left.toList ++ item :: front) ++ elem :: back := by
            rw [toList_node, list, List.append_assoc]
            rfl
          dsimp only
          split
          · rw [fixRightInsertion_toList, same]
          · exact same
        · intro other mem
          rcases List.mem_append.mp mem with inLeft | rest
          · exact (below other inLeft).trans order
          · rcases List.mem_cons.mp rest with rfl | inFront
            · exact order
            · exact less other inFront

/-- An insertion puts the item into the list. -/
theorem sglibAdd_run {tree : RbTree α} (indexed : Indexed cmp address tree) {elem : α}
    (fresh : ∀ item ∈ tree.toList, address elem ≠ address item) :
    Indexed cmp address (sglibAdd cmp address tree elem) ∧
      ∃ front back, tree.toList = front ++ back ∧
        (sglibAdd cmp address tree elem).toList = front ++ elem :: back := by
  obtain ⟨count, balanced⟩ := indexed.balanced
  obtain ⟨front, back, split, list, less, more⟩ := sglibAddRecursive_split indexed.sorted fresh
  have whole : (sglibAdd cmp address tree elem).toList = front ++ elem :: back := by
    rw [sglibAdd, toList_blacken, list]
  refine ⟨⟨?_, ?_⟩, front, back, split, whole⟩
  · exact sglibAdd_balanced cmp address elem balanced
  · rw [whole]
    have sorted := indexed.sorted
    rw [split] at sorted
    obtain ⟨first, second, across⟩ := List.pairwise_append.mp sorted
    refine List.pairwise_append.mpr ⟨first, List.pairwise_cons.mpr ⟨more, second⟩, ?_⟩
    intro item mem other there
    rcases List.mem_cons.mp there with rfl | inBack
    · exact less item mem
    · exact across item mem other inBack

end Order

end Menoetius
