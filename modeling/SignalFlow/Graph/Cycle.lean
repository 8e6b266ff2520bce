import SignalFlow.Graph.Wiring

/-!
Directed cycles, by a depth-first search. A successor that is still on the path back to the root
closes a cycle; the cycle starts at that successor and follows the path.
-/

namespace SignalFlow

namespace Wiring

-- A position on the path with its successors that are not yet looked at.
structure Step where
  position : Nat
  pending : List Nat

-- What is left to do on a path; it bounds the search while no new position is met.
def pathSize : (path : List Step) → Nat
  | [] => 0
  | s :: path => s.pending.length + 1 + pathSize path

def onPath (path : List Step) : List Nat :=
  path.map Step.position

-- The cycle that an arc from the end of a path back to `start` closes.
def closedCycle (start : Nat) (positions : List Nat) : List Nat :=
  start :: (positions.takeWhile (· ≠ start)).reverse

-- Goes on from a path, its last position first. Gives the cycles in the order in which they are
-- closed, and the positions that were not met.
def cyclesFrom (w : Wiring) (unseen : List Nat) : (path : List Step) → List (List Nat) × List Nat
  | [] => ([], unseen)
  | ⟨_, []⟩ :: path => cyclesFrom w unseen path
  | ⟨i, j :: pending⟩ :: path =>
    if j ∈ unseen then
      cyclesFrom w (unseen.erase j) (⟨j, w.successors j⟩ :: ⟨i, pending⟩ :: path)
    else
      let later := cyclesFrom w unseen (⟨i, pending⟩ :: path)
      if j ∈ i :: onPath path then (closedCycle j (i :: onPath path) :: later.1, later.2)
      else later
termination_by path => (unseen.length, pathSize path)
decreasing_by
  case _   => exact Prod.Lex.right _ <| by simp [pathSize]
  case _ h =>
    refine Prod.Lex.left _ _ ?_
    have hl := List.length_erase_of_mem h
    have hp := List.length_pos_of_mem h
    omega
  case _   => exact Prod.Lex.right _ <| by simp [pathSize]

theorem length_cyclesFrom_le (w : Wiring) (unseen : List Nat) (path : List Step) :
    (w.cyclesFrom unseen path).2.length ≤ unseen.length := by
  fun_induction cyclesFrom w unseen path
  case case1    => exact Nat.le_refl _
  case case3 hi => exact Nat.le_trans hi List.length_erase_le
  case case2 hi | case4 hi | case5 hi => exact hi

-- The cycles met from roots among the unseen positions, taken in order.
def cyclesAmong (w : Wiring) : (unseen : List Nat) → List (List Nat)
  | [] => []
  | root :: unseen =>
    let found := w.cyclesFrom unseen [⟨root, w.successors root⟩]
    found.1 ++ cyclesAmong w found.2
termination_by unseen => unseen.length
decreasing_by
  have := length_cyclesFrom_le w unseen [⟨root, w.successors root⟩]
  simp only [List.length_cons]
  omega

def cycles (w : Wiring) : List (List Nat) :=
  w.cyclesAmong (List.range w.size)

end Wiring

end SignalFlow
