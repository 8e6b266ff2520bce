import SignalFlow.Proofs.Plan.Routes

/-!
Plans in which causes come first: every node stands in the order once, after all that it depends on,
and it reads from nothing else. A compiled plan is such a plan in any order that respects the edges
of its graph.
-/

namespace SignalFlow

open Validation (ids)

namespace Plan

-- The node reads from nothing but its dependencies.
def Routed (p : Plan) (id : String) (n : PlanNode) : Prop :=
  ∀ route ∈ (p.routes.get? id).getD [], ∀ source ∈ route.sources,
    source.node ∈ n.dependencies.keys

structure Causal (p : Plan) : Prop where
  nodup  : p.order.Nodup
  mem    : ∀ id, id ∈ p.order ↔ ∃ n, p.nodes.get? id = some n
  after  : ∀ done id rest n, p.order = done ++ id :: rest → p.nodes.get? id = some n →
    ∀ d ∈ n.dependencies.keys, d ∈ done
  routed : ∀ id n, p.nodes.get? id = some n → p.Routed id n

-- The node whose turn it is has not had it.
theorem Causal.next {p : Plan} {done rest : List String} {id : String} (h : p.Causal)
    (hs : p.order = done ++ id :: rest) : id ∉ done ∧ ∃ n, p.nodes.get? id = some n := by
  have hn : (done ++ id :: rest).Nodup := hs ▸ h.nodup
  have hm : id ∈ p.order := hs ▸ List.mem_append_right _ (.head _)
  exact ⟨fun hd => (List.nodup_append.mp hn).right.right id hd id (.head _) rfl, (h.mem id).mp hm⟩

-- The dependencies of a node that had its turn had theirs.
theorem Causal.mem_done {p : Plan} {done rest : List String} {id : String} {n : PlanNode}
    (h : p.Causal) (hs : p.order = done ++ rest) (hm : id ∈ done) (hn : p.nodes.get? id = some n) :
    ∀ d ∈ n.dependencies.keys, d ∈ done := by
  have ⟨before, after, he⟩ := List.append_of_mem hm
  intro d hd
  have hd := h.after before id (after ++ rest) n (by rw [hs, he]; simp) hn d hd
  exact he ▸ List.mem_append_left _ hd

theorem Causal.exists_dependency {p : Plan} {id d : String} {n : PlanNode} (h : p.Causal)
    (hn : p.nodes.get? id = some n) (hd : d ∈ n.dependencies.keys) :
    ∃ m, p.nodes.get? d = some m := by
  have hm : id ∈ p.order := (h.mem id).mpr ⟨n, hn⟩
  exact (h.mem d).mp <| h.mem_done (List.append_nil _).symm hm hn d hd

-- What is true of a node whenever it is true of all its dependencies is true of every node.
theorem Causal.induction {p : Plan} {motive : String → Prop} (h : p.Causal)
    (step : ∀ id n, p.nodes.get? id = some n → (∀ d ∈ n.dependencies.keys, motive d) → motive id) :
    ∀ id ∈ p.order, motive id := by
  suffices hd : ∀ done rest, p.order = done ++ rest → ∀ id ∈ done, motive id from
    hd p.order [] (List.append_nil _).symm
  intro done
  induction done using List.reverseRecOn
  case nil => simp
  case append_singleton done id hi =>
    intro rest ho k hk
    have ho : p.order = done ++ id :: rest := by rw [ho, List.append_assoc, List.singleton_append]
    cases List.mem_append.mp hk
    case inl hk => exact hi _ ho k hk
    case inr hk =>
      cases List.mem_singleton.mp hk
      have ⟨_, n, hn⟩ := h.next ho
      exact step id n hn fun d hd => hi _ ho d <| h.after done id rest n ho hn d hd

namespace Implements

variable {p : Plan} {g : Graph} {id d : String} {n : PlanNode} {order : List String}

theorem mem_dependencies_iff (h : p.Implements g) (hn : p.nodes.get? id = some n) :
    d ∈ n.dependencies.keys ↔ g.Feeds d id := by
  rw [(h.linked.links id n hn).dependencies, h.linked.id id n hn, Graph.Feeds]

theorem exists_get?_iff (h : p.Implements g) : (∃ n, p.nodes.get? id = some n) ↔ id ∈ ids g := by
  constructor
  case mp  =>
    intro ⟨n, hn⟩
    exact h.linked.id id n hn ▸ List.mem_map_of_mem (h.linked.links id n hn).mem
  case mpr =>
    intro hm
    have ⟨n, hn, hid⟩ := List.mem_map.mp hm
    exact hid ▸ h.linked.present n hn

theorem routed (h : p.Implements g) (hw : g.WellFormed) (hn : p.nodes.get? id = some n) :
    p.Routed id n := by
  intro route hr source hs
  have hl := h.linked.links id n hn
  have hid := h.linked.id id n hn
  rw [h.routes, ←hid, Compile.get?_routes hw.distinct hl.mem] at hr
  split at hr
  case isTrue  => cases hr
  case isFalse =>
    have ⟨port, _, he⟩ := List.mem_map.mp hr
    cases he
    have ⟨e, he, ht, _, hs⟩ := Compile.mem_sources_iff.mp hs
    exact (hl.dependencies _).mpr ⟨e, he, congrArg PortRef.node hs, ht⟩

theorem causal (h : p.Implements g) (hw : g.WellFormed) (ho : g.IsOrder order) :
    { p with order }.Causal where
  nodup  := ho.nodup
  mem id := by rw [ho.perm.mem_iff, h.exists_get?_iff]
  after  := by
    intro done id rest n hs hn d hd
    have ⟨e, he, hd, hid⟩ := (h.mem_dependencies_iff hn).mp hd
    have ⟨i, j, hlt, hi, hj⟩ := ho.forward e he
    dsimp only at hs
    have hp : order[done.length]? = some id := by simp [hs]
    have hj : j = done.length :=
      (List.getElem?_inj (List.getElem?_eq_some_iff.mp hj).1 ho.nodup).mp (by rw [hj, hp, hid])
    rw [hs, List.getElem?_append_left (hj ▸ hlt), hd] at hi
    exact List.mem_of_getElem? hi
  routed _ _ := h.routed hw

end Implements

end Plan

-- Migrating and compiling a graph gives a plan that implements what the migration gave.
theorem Graph.implements_of_compile {g m : Graph} {setup : Setup} {services : Services}
    {strategy symbol : String} {p : Plan} (hm : setup.registry.migrate g none = .ok m)
    (hc : (g.compile setup services strategy symbol).1 = .ok p) :
    m.hydrate.WellFormed ∧ p.Implements m.hydrate := by
  have ⟨m', hm', hw, hi⟩ := exists_implements_of_compile hc
  cases hm.symm.trans hm'
  exact ⟨wellFormed_hydrate_iff.mpr hw, hi⟩

end SignalFlow
