import SignalFlow.Graph.Wiring

/-!
Walking through a wiring from given positions: the positions that arcs lead to, and the groups of
positions that arcs join in either direction.
-/

namespace SignalFlow

namespace Wiring

-- Those of the given positions that are still unseen, each once, and what stays unseen.
def collect (unseen : List Nat) : List Nat → List Nat × List Nat
  | [] => ([], unseen)
  | i :: rest =>
    if i ∈ unseen then
      let later := collect (unseen.erase i) rest
      (i :: later.1, later.2)
    else collect unseen rest

theorem length_collect (unseen positions : List Nat) :
    (collect unseen positions).1.length + (collect unseen positions).2.length = unseen.length := by
  induction positions generalizing unseen
  case nil            => exact Nat.zero_add _
  case cons i rest hi =>
    rw [collect]
    split
    case isFalse  => exact hi unseen
    case isTrue h =>
      have hr := hi (unseen.erase i)
      have hl := List.length_erase_of_mem h
      have hp := List.length_pos_of_mem h
      simp only [List.length_cons]
      omega

-- Walks along `next` from the positions on the stack. Gives the positions in the order in which
-- they leave the stack, and those that were not met.
def explore (next : Nat → List Nat) (unseen : List Nat) : (stack : List Nat) → List Nat × List Nat
  | [] => ([], unseen)
  | i :: stack =>
    let collected := collect unseen (next i)
    let later := explore next collected.2 (collected.1.reverse ++ stack)
    (i :: later.1, later.2)
termination_by stack => 2 * unseen.length + stack.length
decreasing_by
  have := length_collect unseen (next i)
  simp only [List.length_append, List.length_reverse, List.length_cons]
  omega

theorem length_explore_le (next : Nat → List Nat) (unseen stack : List Nat) :
    (explore next unseen stack).2.length ≤ unseen.length := by
  fun_induction explore next unseen stack
  case case1                                   => exact Nat.le_refl _
  case case2 unseen i stack collected later hi =>
    have hl := length_collect unseen (next i)
    simp only [collected, later] at hi ⊢
    omega

-- Whether arcs lead from one of the roots to the position; roots are reached.
def reached (w : Wiring) (roots : List Nat) : List Nat :=
  (explore w.successors ((List.range w.size).filter (· ∉ roots)) roots.reverse).1

def neighbors (w : Wiring) (i : Nat) : List Nat :=
  w.successors i ++ w.predecessors i

-- The groups of the unseen positions, each from its first position on.
def componentsOf (w : Wiring) : (unseen : List Nat) → List (List Nat)
  | [] => []
  | root :: unseen =>
    let found := explore w.neighbors unseen [root]
    found.1 :: componentsOf w found.2
termination_by unseen => unseen.length
decreasing_by
  have := length_explore_le w.neighbors unseen [root]
  simp only [List.length_cons]
  omega

-- The groups of positions that arcs join, directions ignored.
def components (w : Wiring) : List (List Nat) :=
  w.componentsOf (List.range w.size)

end Wiring

end SignalFlow
