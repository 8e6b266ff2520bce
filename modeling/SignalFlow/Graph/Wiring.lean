import SignalFlow.Graph.Basic

/-!
A graph reduced to positions: which node feeds which, one arc for each edge whose two ends exist.
Of nodes that share an id the first one stands for the id.
-/

namespace SignalFlow

structure Wiring where
  size : Nat
  arcs : List (Nat × Nat)
  bounded : ∀ a ∈ arcs, a.1 < size ∧ a.2 < size

namespace Wiring

-- The targets of the arcs that leave a position, in order.
def successors (w : Wiring) (i : Nat) : List Nat :=
  w.arcs.filterMap fun a => if a.1 = i then some a.2 else none

-- The sources of the arcs that enter a position, in order.
def predecessors (w : Wiring) (i : Nat) : List Nat :=
  w.arcs.filterMap fun a => if a.2 = i then some a.1 else none

def inDegree (w : Wiring) (i : Nat) : Nat :=
  (w.predecessors i).length

def outDegree (w : Wiring) (i : Nat) : Nat :=
  (w.successors i).length

end Wiring

namespace Graph

def position? (g : Graph) (id : String) : Option Nat :=
  g.nodes.findIdx? (·.id == id)

theorem lt_of_position? {g : Graph} {id : String} {i : Nat} (h : g.position? id = some i) :
    i < g.nodes.length :=
  (List.findIdx?_eq_some_iff_findIdx_eq.1 h).1

def arc? (g : Graph) (e : Edge) : Option (Nat × Nat) := do
  some (← g.position? e.sourceNode, ← g.position? e.targetNode)

theorem lt_of_arc? {g : Graph} {e : Edge} {a : Nat × Nat} (h : g.arc? e = some a) :
    a.1 < g.nodes.length ∧ a.2 < g.nodes.length := by
  obtain ⟨i, hi, h⟩ := Option.bind_eq_some_iff.1 h
  obtain ⟨j, hj, h⟩ := Option.bind_eq_some_iff.1 h
  cases h
  exact ⟨lt_of_position? hi, lt_of_position? hj⟩

def wiring (g : Graph) : Wiring where
  size := g.nodes.length
  arcs := g.edges.filterMap g.arc?
  bounded a ha := by
    obtain ⟨e, _, he⟩ := List.mem_filterMap.1 ha
    exact lt_of_arc? he

-- The id of the node at a position.
def idAt (g : Graph) (i : Nat) : String :=
  (g.nodes[i]?.map Node.id).getD ""

end Graph

end SignalFlow
