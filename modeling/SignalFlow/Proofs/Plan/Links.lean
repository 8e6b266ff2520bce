import SignalFlow.Plan.Compile
import SignalFlow.Proofs.Dict
import SignalFlow.Proofs.Plan.Ports
import SignalFlow.Proofs.Validation.Passes

/-!
Compiling a well-formed graph: every step from the graph to its plan succeeds, and the plan has the
nodes of the graph, linked along its edges, in an order that respects them.
-/

namespace SignalFlow

open Validation (ids)

-- The node is one of the graph's, and it knows its neighbours along the edges.
structure PlanNode.Links (n : PlanNode) (nodes : List Node) (edges : List Edge) : Prop where
  mem          : n.node ∈ nodes
  kind         : Kind.ofNodeType? n.node.nodeType = some n.kind
  dependencies : ∀ id, id ∈ n.dependencies.keys ↔
    ∃ e ∈ edges, e.sourceNode = id ∧ e.targetNode = n.node.id
  dependents   : ∀ id, id ∈ n.dependents.keys ↔
    ∃ e ∈ edges, e.sourceNode = n.node.id ∧ e.targetNode = id

theorem PlanNode.Links.append_nodes {n : PlanNode} {nodes nodes' : List Node} {edges : List Edge}
    (h : n.Links nodes edges) : n.Links (nodes ++ nodes') edges where
  mem          := List.mem_append_left _ h.mem
  kind         := h.kind
  dependencies := h.dependencies
  dependents   := h.dependents

namespace Compile

-- A plan under construction has the nodes and the edges that were added so far.
structure Linked (nodes : List Node) (edges : List Edge) (d : Dict PlanNode) : Prop where
  id      : ∀ id n, d.get? id = some n → n.node.id = id
  links   : ∀ id n, d.get? id = some n → n.Links nodes edges
  present : ∀ n ∈ nodes, ∃ p, d.get? n.id = some p

variable {nodes : List Node} {edges : List Edge} {d : Dict PlanNode} {n : Node} {e : Edge}

-- What every step of a construction achieves, the whole of it achieves.
theorem exists_foldlM_eq_ok {α β ε : Type} {f : β → α → Except ε β} {motive : List α → β → Prop}
    {l : List α} {b : β} (init : motive [] b)
    (step : ∀ done, ∀ a ∈ l, ∀ b, motive done b →
      ∃ b', f b a = .ok b' ∧ motive (done ++ [a]) b') :
    ∃ b', l.foldlM f b = .ok b' ∧ motive l b' := by
  suffices h : ∀ done b, motive done b →
      ∃ b', l.foldlM f b = .ok b' ∧ motive (done ++ l) b' from h [] b init
  clear init
  induction l
  case nil => exact fun done b h => ⟨b, rfl, by simpa using h⟩
  case cons a l hi =>
    intro done b h
    have ⟨b', hf, h'⟩ := step done a (.head _) b h
    have ⟨b'', hl, h''⟩ := hi (fun done c hc => step done c (.tail _ hc)) _ b' h'
    refine ⟨b'', ?_, by simpa using h''⟩
    rw [List.foldlM_cons, hf]
    exact hl

theorem Linked.init : Linked [] [] ∅ where
  id      := by intro _ _ h; cases h
  links   := by intro _ _ h; cases h
  present := by intro _ h; cases h

theorem Linked.addNode (h : Linked nodes [] d) (hk : (Kind.ofNodeType? n.nodeType).isSome) :
    ∃ d', Compile.addNode d n = .ok d' ∧ Linked (nodes ++ [n]) [] d' := by
  have ⟨kind, hk⟩ := Option.isSome_iff_exists.mp hk
  refine ⟨d.insert n.id { kind, node := n }, by rw [Compile.addNode, hk], ?_⟩
  constructor
  case id =>
    intro id p hp
    rw [Dict.get?_insert] at hp
    split at hp
    case isTrue he   => cases hp; exact he.symm
    case isFalse     => exact h.id id p hp
  case links =>
    intro id p hp
    rw [Dict.get?_insert] at hp
    split at hp
    case isTrue      => cases hp; exact ⟨by simp, hk, by simp, by simp⟩
    case isFalse     => exact (h.links id p hp).append_nodes
  case present =>
    intro m hm
    rw [Dict.get?_insert]
    split
    case isTrue      => exact ⟨_, rfl⟩
    case isFalse hne =>
      cases List.mem_append.mp hm
      case inl hm => exact h.present m hm
      case inr hm => exact absurd (List.mem_singleton.mp hm ▸ rfl) hne

-- What an edge does to the node under an id.
def link (e : Edge) (id : String) (n : PlanNode) : PlanNode :=
  let n := if id = e.sourceNode then addDependent e.targetNode n else n
  if id = e.targetNode then addDependency e.sourceNode n else n

section Link

variable {id : String} {p : PlanNode}

theorem link_node : (link e id p).node = p.node := by
  simp only [link]
  split <;> split <;> rfl

theorem link_kind : (link e id p).kind = p.kind := by
  simp only [link]
  split <;> split <;> rfl

theorem mem_link_dependencies {s : String} :
    s ∈ (link e id p).dependencies.keys ↔
      s ∈ p.dependencies.keys ∨ e.sourceNode = s ∧ e.targetNode = id := by
  have hl : (link e id p).dependencies =
      if id = e.targetNode then p.dependencies.insert e.sourceNode () else p.dependencies := by
    simp only [link]
    split <;> split <;> rfl
  rw [hl]
  split <;> simp_all [Dict.mem_keys_insert, eq_comm, or_comm]

theorem mem_link_dependents {t : String} :
    t ∈ (link e id p).dependents.keys ↔
      t ∈ p.dependents.keys ∨ e.sourceNode = id ∧ e.targetNode = t := by
  have hl : (link e id p).dependents =
      if id = e.sourceNode then p.dependents.insert e.targetNode () else p.dependents := by
    simp only [link]
    split <;> split <;> rfl
  rw [hl]
  split <;> simp_all [Dict.mem_keys_insert, eq_comm, or_comm]

theorem links_link (h : p.Links nodes edges) :
    (link e p.node.id p).Links nodes (edges ++ [e]) where
  mem          := by rw [link_node]; exact h.mem
  kind         := by rw [link_node, link_kind, h.kind]
  dependencies := by
    simp [link_node, mem_link_dependencies, h.dependencies, or_and_right, exists_or]
  dependents   := by
    simp [link_node, mem_link_dependents, h.dependents, or_and_right, exists_or]

end Link

theorem Linked.addEdge (h : Linked nodes edges d) (hs : ∃ n ∈ nodes, n.id = e.sourceNode)
    (ht : ∃ n ∈ nodes, n.id = e.targetNode) :
    ∃ d', Compile.addEdge d e = .ok d' ∧ Linked nodes (edges ++ [e]) d' := by
  have ⟨_, hs, hsid⟩ := hs
  have ⟨_, ht, htid⟩ := ht
  have hs := Dict.contains_iff.mpr <| hsid ▸ h.present _ hs
  have ht := Dict.contains_iff.mpr <| htid ▸ h.present _ ht
  rw [Compile.addEdge, if_neg (by simp [ht]), if_neg (by simp [hs])]
  refine ⟨_, rfl, ?_⟩
  have hl id : ((d.modify e.sourceNode (addDependent e.targetNode)).modify e.targetNode
      (addDependency e.sourceNode)).get? id = (d.get? id).map (link e id) := by
    rw [Dict.get?_modify, Dict.get?_modify, Option.map_map]
    rfl
  constructor
  case id =>
    intro id p hp
    have ⟨q, hq, he⟩ := Option.map_eq_some_iff.mp <| (hl id).symm.trans hp
    rw [←he, link_node, h.id id q hq]
  case links =>
    intro id p hp
    have ⟨q, hq, he⟩ := Option.map_eq_some_iff.mp <| (hl id).symm.trans hp
    exact he ▸ h.id id q hq ▸ links_link (h.links id q hq)
  case present =>
    intro m hm
    have ⟨p, hp⟩ := h.present m hm
    exact ⟨link e m.id p, by rw [hl, hp, Option.map_some]⟩

theorem Linked.modify {key : String} {f : PlanNode → PlanNode} (h : Linked nodes edges d)
    (hn : ∀ p, (f p).node = p.node) (hf : ∀ p, p.Links nodes edges → (f p).Links nodes edges) :
    Linked nodes edges (d.modify key f) := by
  constructor
  case id =>
    intro id p hp
    rw [Dict.get?_modify] at hp
    have ⟨q, hq, he⟩ := Option.map_eq_some_iff.mp hp
    rw [←he, ←h.id id q hq]
    split <;> simp [hn]
  case links =>
    intro id p hp
    rw [Dict.get?_modify] at hp
    have ⟨q, hq, he⟩ := Option.map_eq_some_iff.mp hp
    rw [←he]
    split
    case isTrue  => exact hf q <| h.links id q hq
    case isFalse => exact h.links id q hq
  case present =>
    intro n hn
    have ⟨p, hp⟩ := h.present n hn
    exact ⟨_, by rw [Dict.get?_modify, hp, Option.map_some]⟩

end Compile

end SignalFlow
