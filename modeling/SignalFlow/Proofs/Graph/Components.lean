import SignalFlow.Proofs.Graph.Positions
import SignalFlow.Proofs.Graph.Walks

/-!
The components of a graph. Walks along arcs in either direction do not lead out of what is unseen,
so that each of them meets exactly the positions that are joined to its root.
-/

open Relation
open scoped List

namespace SignalFlow

open Validation (ids)

namespace Wiring

variable {w : Wiring} {unseen c : List Nat} {i j root : Nat}

-- Arcs lead from one position to the other, directions ignored.
def Joined (w : Wiring) : Nat → Nat → Prop :=
  ReflTransGen (SymmGen w.Arc)

theorem Joined.symm (h : w.Joined i j) : w.Joined j i :=
  ReflTransGen.stdSymm.symm i j h

theorem leads_neighbors : Leads w.neighbors = SymmGen w.Arc := by
  funext i j
  have hs : SymmGen w.Arc i j ↔ w.Arc i j ∨ w.Arc j i := .rfl
  simp [hs, Leads, neighbors, mem_successors_iff, mem_predecessors_iff]

theorem closed_neighbors_range (w : Wiring) : Closed w.neighbors (List.range w.size) := by
  intro i _ j h
  rw [leads_neighbors] at h
  cases h
  case inl h => exact List.mem_range.mpr h.lt_size.right
  case inr h => exact List.mem_range.mpr h.lt_size.left

-- What a walk leaves behind has no neighbors among what it has met.
theorem Closed.explore (hc : Closed w.neighbors (root :: unseen)) (hn : unseen.Nodup) :
    Closed w.neighbors (explore w.neighbors unseen [root]).2 := by
  intro i hi j h
  have hj := (mem_explore_or w.neighbors unseen [root]).mpr <| List.mem_append.mp <|
    hc i (.tail _ <| explore_sublist.mem hi) j h
  refine hj.resolve_left fun hm => ?_
  have h' : Leads w.neighbors j i := by
    rw [leads_neighbors] at h ⊢
    exact h.symm
  exact not_mem_explore_of_leads hn hm h' hi

theorem flatten_componentsOf (w : Wiring) (unseen : List Nat) :
    (w.componentsOf unseen).flatten ~ unseen := by
  fun_induction componentsOf w unseen
  case case1 => exact .refl _
  case case2 root unseen found hi =>
    calc
      found.1 ++ (w.componentsOf found.2).flatten ~ found.1 ++ found.2 := hi.append_left found.1
      _ ~ root :: unseen := perm_explore w.neighbors unseen [root]

theorem ne_nil_of_mem_componentsOf (h : c ∈ w.componentsOf unseen) : c ≠ [] := by
  fun_induction componentsOf w unseen
  case case1 => cases h
  case case2 root unseen found hi =>
    cases h
    case head   => exact List.ne_nil_of_mem (subset_explore <| .head _)
    case tail h => exact hi h

theorem mem_iff_of_mem_componentsOf (hn : unseen.Nodup) (hc : Closed w.neighbors unseen)
    (h : c ∈ w.componentsOf unseen) (hi : i ∈ c) : j ∈ c ↔ w.Joined i j := by
  fun_induction componentsOf w unseen
  case case1 => cases h
  case case2 root unseen found hr =>
    have hn := (List.nodup_cons.mp hn).right
    cases h
    case tail h => exact hr (hn.sublist explore_sublist) (hc.explore hn) h
    case head   =>
      have hc : Closed w.neighbors ([root] ++ unseen) := hc
      have met (k : Nat) : k ∈ found.1 ↔ w.Joined root k := by
        simp [found, mem_explore_iff hn hc, leads_neighbors, Joined]
      have hi := (met i).mp hi
      rw [met]
      exact ⟨hi.symm.trans, hi.trans⟩

theorem flatten_components (w : Wiring) : w.components.flatten ~ List.range w.size :=
  w.flatten_componentsOf _

theorem mem_iff_of_mem_components (h : c ∈ w.components) (hi : i ∈ c) : j ∈ c ↔ w.Joined i j :=
  mem_iff_of_mem_componentsOf List.nodup_range w.closed_neighbors_range h hi

end Wiring

namespace Graph

variable {g : Graph}

-- The graph without those edges that have a missing end.
def withoutDangling (g : Graph) : Graph :=
  { g with edges := g.edges.filter fun e => e.sourceNode ∈ ids g ∧ e.targetNode ∈ ids g }

theorem arc?_eq_none_of_dangling {e : Edge} (h : ¬(e.sourceNode ∈ ids g ∧ e.targetNode ∈ ids g)) :
    g.arc? e = none := by
  by_contra hn
  have ⟨a, ha⟩ := Option.ne_none_iff_exists'.mp hn
  have ⟨i, hi, ha⟩ := Option.bind_eq_some_iff.mp ha
  have ⟨j, hj, _⟩ := Option.bind_eq_some_iff.mp ha
  exact h ⟨exists_position?_iff.mp ⟨i, hi⟩, exists_position?_iff.mp ⟨j, hj⟩⟩

theorem wiring_withoutDangling (g : Graph) : g.withoutDangling.wiring = g.wiring := by
  have ha : g.withoutDangling.arc? = g.arc? := rfl
  have he : g.withoutDangling.edges.filterMap g.arc? = g.edges.filterMap g.arc? := by
    rw [withoutDangling, List.filterMap_filter]
    refine List.filterMap_congr fun e _ => ?_
    by_cases h : e.sourceNode ∈ ids g ∧ e.targetNode ∈ ids g
    case pos => simp [h]
    case neg => simp [h, arc?_eq_none_of_dangling h]
  simp only [wiring, ha, he]
  rfl

-- The parts are the groups of positions that edges join, whichever way the edges lead. Every
-- position stands in one of the parts, and it stands there once.
structure IsPartition (g : Graph) (parts : List (List Nat)) : Prop where
  once      : parts.flatten ~ List.range g.nodes.length
  inhabited : ∀ part ∈ parts, part ≠ []
  joined    : ∀ i < g.nodes.length, ∀ j < g.nodes.length,
    (∃ part ∈ parts, i ∈ part ∧ j ∈ part) ↔ ReflTransGen (SymmGen g.Arc) i j

-- Edges with a missing end might as well not be there.
theorem isPartition_components (g : Graph) :
    g.IsPartition g.wiring.components ∧
      g.withoutDangling.wiring.components = g.wiring.components := by
  refine ⟨?partition, congrArg Wiring.components g.wiring_withoutDangling⟩
  constructor
  case once      => exact g.wiring.flatten_components
  case inhabited => exact fun _ => Wiring.ne_nil_of_mem_componentsOf
  case joined    =>
    intro i hi j _
    rw [←wiring_arc]
    constructor
    case mp  =>
      intro ⟨part, hp, hi, hj⟩
      exact (Wiring.mem_iff_of_mem_components hp hi).mp hj
    case mpr =>
      intro h
      have hm := g.wiring.flatten_components.mem_iff.mpr <| List.mem_range.mpr hi
      have ⟨part, hp, hi⟩ := List.mem_flatten.mp hm
      exact ⟨part, hp, hi, (Wiring.mem_iff_of_mem_components hp hi).mpr h⟩

end Graph

end SignalFlow
