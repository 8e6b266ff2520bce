import SignalFlow.Graph.Wiring

/-!
An order in which every arc points forward. Positions without open arcs wait in a queue; taking one
closes its outgoing arcs, and a position whose last arc is closed joins the queue.
-/

namespace SignalFlow

namespace Wiring

-- Closes an arc into each of the targets. Gives the open arcs left into every position, and the
-- positions that have none left now.
def closeArcs (degrees : List Nat) : (targets : List Nat) → List Nat × List Nat
  | [] => (degrees, [])
  | j :: targets =>
    let later := closeArcs (degrees.set j (degrees.getD j 0 - 1)) targets
    (later.1, if degrees.getD j 0 = 1 then j :: later.2 else later.2)

def openArcs : (degrees : List Nat) → Nat
  | [] => 0
  | d :: degrees => d + openArcs degrees

theorem openArcs_set_pred {degrees : List Nat} {j : Nat} (h : degrees.getD j 0 = 1) :
    openArcs (degrees.set j (1 - 1)) + 1 = openArcs degrees := by
  induction degrees generalizing j
  case nil               => cases h
  case cons d degrees hi =>
    cases j
    case zero   =>
      have hd : d = 1 := h
      simp [openArcs, hd, Nat.add_comm]
    case succ j =>
      have ho := hi (j := j) h
      simp only [List.set_cons_succ, openArcs]
      omega

theorem openArcs_set_pred_le (degrees : List Nat) (j : Nat) :
    openArcs (degrees.set j (degrees.getD j 0 - 1)) ≤ openArcs degrees := by
  induction degrees generalizing j
  case nil               => exact Nat.le_refl _
  case cons d degrees hi =>
    cases j
    case zero   => simp [openArcs]
    case succ j =>
      have ho := hi j
      simp only [List.getD_cons_succ, List.set_cons_succ, openArcs]
      omega

-- Every release uses up an open arc.
theorem openArcs_closeArcs_le (degrees targets : List Nat) :
    openArcs (closeArcs degrees targets).1 + (closeArcs degrees targets).2.length
      ≤ openArcs degrees := by
  induction targets generalizing degrees
  case nil               => exact Nat.le_refl _
  case cons j targets hi =>
    have hle := hi (degrees.set j (degrees.getD j 0 - 1))
    simp only [closeArcs]
    split
    case isTrue h =>
      rw [h] at hle ⊢
      have ho := openArcs_set_pred h
      simp only [List.length_cons]
      omega
    case isFalse  =>
      have ho := openArcs_set_pred_le degrees j
      omega

-- The positions that leave the queue, in order.
def drain (w : Wiring) (degrees : List Nat) : (queue : List Nat) → List Nat
  | [] => []
  | i :: queue =>
    let closed := closeArcs degrees (w.successors i)
    i :: drain w closed.1 (queue ++ closed.2)
termination_by queue => openArcs degrees + queue.length
decreasing_by
  have := openArcs_closeArcs_le degrees (w.successors i)
  simp only [List.length_append, List.length_cons]
  omega

-- Every position that is neither on a cycle nor behind one, each after all that feed it.
def order (w : Wiring) : List Nat :=
  let degrees := (List.range w.size).map w.inDegree
  w.drain degrees ((List.range w.size).filter (w.inDegree · = 0))

end Wiring

end SignalFlow
