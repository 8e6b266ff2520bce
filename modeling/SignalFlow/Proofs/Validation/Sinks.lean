import SignalFlow.Proofs.Graph.Positions
import SignalFlow.Proofs.Graph.Walks
import SignalFlow.Proofs.Validation.Kinds

/-!
The warnings of sinks that no source leads to. As long as edges do not run in circles, whatever is
fed at all is fed by a source in the end, so that only nodes without any edges are left to warn of.
-/

open Relation

namespace SignalFlow

namespace Wiring

variable {w : Wiring} {roots : List Nat} {i j : Nat}

theorem inDegree_eq_zero_iff : w.inDegree j = 0 ↔ ∀ i, ¬w.Arc i j := by
  simp [inDegree, List.eq_nil_iff_forall_not_mem, mem_predecessors_iff]

theorem outDegree_eq_zero_iff : w.outDegree i = 0 ↔ ∀ j, ¬w.Arc i j := by
  simp [outDegree, List.eq_nil_iff_forall_not_mem, mem_successors_iff]

theorem leads_successors : Leads w.successors = w.Arc :=
  funext₂ fun _ _ => propext mem_successors_iff

theorem mem_reached_iff : j ∈ w.reached roots ↔ ∃ i ∈ roots, ReflTransGen w.Arc i j := by
  have hn : ((List.range w.size).filter (· ∉ roots)).Nodup := List.nodup_range.filter _
  have hc : Closed w.successors (roots.reverse ++ (List.range w.size).filter (· ∉ roots)) := by
    intro i _ j h
    rw [leads_successors] at h
    by_cases hj : j ∈ roots <;> simp [hj, h.lt_size.right]
  rw [reached, mem_explore_iff hn hc, leads_successors]
  simp only [List.mem_reverse]

-- Going back along arcs comes to an end at a position that nothing feeds.
theorem Acyclic.exists_unfed (h : w.Acyclic) :
    ∀ i < w.size, ∃ s, (∀ j, ¬w.Arc j s) ∧ ReflTransGen w.Arc s i := by
  refine h.induction fun i _ hi => ?_
  by_cases hf : ∃ j, w.Arc j i
  case neg => exact ⟨i, not_exists.mp hf, .refl⟩
  case pos =>
    have ⟨j, hj⟩ := hf
    have ⟨s, hs, hr⟩ := hi j hj
    exact ⟨s, hs, hr.tail hj⟩

end Wiring

namespace Graph

variable {g : Graph} {i j : Nat}

-- Feeds others and is fed by none.
def IsSource (g : Graph) (i : Nat) : Prop :=
  (∀ j, ¬g.Arc j i) ∧ ∃ j, g.Arc i j

-- Stands for a node, and feeds none.
def IsSink (g : Graph) (i : Nat) : Prop :=
  i < g.nodes.length ∧ ∀ j, ¬g.Arc i j

-- Stands for a node without edges.
structure IsIsolated (g : Graph) (i : Nat) : Prop where
  lt_length : i < g.nodes.length
  feedsNone : ∀ j, ¬g.Arc i j
  unfed     : ∀ j, ¬g.Arc j i

theorem mem_sources_iff : i ∈ Validation.sources g.wiring ↔ g.IsSource i := by
  simp only [Validation.sources, List.mem_filter, List.mem_range, Bool.and_eq_true,
    decide_eq_true_eq, Nat.pos_iff_ne_zero, ne_eq, Wiring.inDegree_eq_zero_iff,
    Wiring.outDegree_eq_zero_iff, wiring_arc, IsSource]
  push Not
  constructor
  case mp  => exact And.right
  case mpr =>
    intro h
    have ⟨j, hj⟩ := h.right
    exact ⟨(g.wiring_arc ▸ hj : g.wiring.Arc i j).lt_size.left, h⟩

theorem mem_unreachableSinks_iff : i ∈ Validation.unreachableSinks g.wiring ↔
    g.IsSink i ∧ ∀ s, g.IsSource s → ¬ReflTransGen g.Arc s i := by
  have hw : g.wiring.size = g.nodes.length := rfl
  simp only [Validation.unreachableSinks, List.mem_filter, List.mem_range, Bool.and_eq_true,
    decide_eq_true_eq, Wiring.outDegree_eq_zero_iff, Wiring.mem_reached_iff, mem_sources_iff,
    wiring_arc, hw, IsSink, not_exists, not_and, and_assoc]

-- Where edges do not run in circles, what is fed is led to from a source.
theorem exists_source (ha : ∀ i, ¬TransGen g.Arc i i) (h : g.Arc i j) :
    ∃ s, g.IsSource s ∧ ReflTransGen g.Arc s j := by
  rw [←wiring_arc] at ha h
  have ⟨s, hs, hr⟩ := Wiring.Acyclic.exists_unfed ha i h.lt_size.left
  have ⟨k, hk, _⟩ := TransGen.head'_iff.mp <| TransGen.tail' hr h
  rw [wiring_arc] at hs hr hk h
  exact ⟨s, ⟨hs, k, hk⟩, hr.tail h⟩

theorem mem_unreachableSinks_iff_of_acyclic (ha : ∀ i, ¬TransGen g.Arc i i) :
    i ∈ Validation.unreachableSinks g.wiring ↔ g.IsIsolated i := by
  rw [mem_unreachableSinks_iff]
  constructor
  case mp  =>
    intro ⟨hi, hs⟩
    refine ⟨hi.left, hi.right, fun j hj => ?_⟩
    have ⟨s, hf, hr⟩ := exists_source ha hj
    exact hs s hf hr
  case mpr =>
    intro hi
    refine ⟨⟨hi.lt_length, hi.feedsNone⟩, fun s hs hr => ?_⟩
    cases hr.cases_tail
    case inl hs' =>
      have ⟨j, hj⟩ := hs.right
      exact hi.feedsNone j <| hs' ▸ hj
    case inr ht =>
      have ⟨j, _, hj⟩ := ht
      exact hi.unfed j hj

-- Positions for which the check warns of a sink, in their order. In a graph without circles they
-- are those of the nodes without edges.
structure WarnsOf (g : Graph) (config : Config) (sinks : List Nat) : Prop where
  warnings : (g.validate config).warnings.filter (·.kind = .unreachableSink) =
    sinks.map fun i => .unreachableSink (g.idAt i)
  ordered  : sinks.Pairwise (· < ·)
  unled    : ∀ i, i ∈ sinks ↔ g.IsSink i ∧ ∀ s, g.IsSource s → ¬ReflTransGen g.Arc s i
  isolated : (∀ i, ¬TransGen g.Arc i i) → ∀ i, i ∈ sinks ↔ g.IsIsolated i

theorem warnsOf_unreachableSinks (g : Graph) (config : Config) :
    g.WarnsOf config (Validation.unreachableSinks g.wiring) where
  warnings := by
    rw [validate, Validation.warnings_filter_kind, Validation.filter_issues_unreachableSink]
    intro i hi
    cases i <;> trivial
  ordered  := List.pairwise_lt_range.filter _
  unled    := fun _ => mem_unreachableSinks_iff
  isolated := fun ha _ => mem_unreachableSinks_iff_of_acyclic ha

-- Nodes of a circle have no source. What they feed is warned of, though it does have edges.
example :
    let g : Graph := {
      name  := "g"
      nodes := [⟨"a", "alert_action", ⟨0, 0⟩, ∅, ∅⟩, ⟨"b", "alert_action", ⟨0, 0⟩, ∅, ∅⟩]
      edges := [⟨"a", "out", "a", "in"⟩, ⟨"a", "out", "b", "in"⟩] }
    Validation.unreachableSinks g.wiring = [1] ∧ g.Arc 0 1 := by
  intro g
  constructor
  · cbv
  · exact ⟨_, .tail _ <| .head _, rfl, rfl⟩

end Graph

end SignalFlow
