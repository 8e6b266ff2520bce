import SignalFlow.Proofs.Plan.Requests
import SignalFlow.Proofs.Schema.Circles

/-!
Edges that are written down more than once. The order in which nodes run is found by counting edges,
and there copies are counted too. Everywhere else in a plan an edge is there or it is not.
-/

open scoped List

namespace SignalFlow

open Validation (ids distinct)

section Distinct

variable {α β : Type} [DecidableEq α] [DecidableEq β] {seen before after l : List α} {a : α}

-- Of what was seen before, it only counts what comes again.
theorem distinct_congr {seen' : List α} (h : ∀ a ∈ l, a ∈ seen ↔ a ∈ seen') :
    distinct seen l = distinct seen' l := by
  induction l generalizing seen seen'
  case nil         => rfl
  case cons a l hi =>
    have ⟨ha, hl⟩ := List.forall_mem_cons.mp h
    rw [distinct, distinct]
    by_cases hs : a ∈ seen
    case pos => rw [if_pos hs, if_pos <| ha.mp hs, hi hl]
    case neg =>
      rw [if_neg hs, if_neg <| mt ha.mpr hs]
      exact congrArg (a :: ·) <| hi fun b hb => by simp only [List.mem_cons, hl b hb]

theorem distinct_filter {p : α → Bool} :
    distinct seen (l.filter p) = (distinct seen l).filter p := by
  induction l generalizing seen
  case nil         => rfl
  case cons a l hi =>
    by_cases hp : p a
    case pos => by_cases hs : a ∈ seen <;> simp [distinct, hs, hp, hi]
    case neg =>
      have unseen : ∀ b ∈ l.filter p, b ∈ seen ↔ b ∈ a :: seen := by
        intro b hb
        have hne : b ≠ a := fun he => hp <| he ▸ List.of_mem_filter hb
        simp [hne]
      by_cases hs : a ∈ seen <;> simp [distinct, hs, hp, ←hi, distinct_congr unseen]

theorem distinct_map {f : α → β} {seen' : List β} (h : ∀ a ∈ seen, f a ∈ seen') :
    distinct seen' (l.map f) = distinct seen' ((distinct seen l).map f) := by
  induction l generalizing seen seen'
  case nil         => rfl
  case cons a l hi =>
    by_cases hs : a ∈ seen
    case pos => simp only [distinct, hs, h a hs, if_true, List.map_cons, hi h]
    case neg =>
      by_cases hf : f a ∈ seen'
      case pos =>
        have h : ∀ b ∈ a :: seen, f b ∈ seen' := List.forall_mem_cons.mpr ⟨hf, h⟩
        simp only [distinct, hs, hf, if_true, if_false, List.map_cons, hi h]
      case neg =>
        have h : ∀ b ∈ a :: seen, f b ∈ f a :: seen' :=
          List.forall_mem_cons.mpr ⟨.head _, fun b hb => .tail _ <| h b hb⟩
        simp only [distinct, hs, hf, if_false, List.map_cons, hi h]

-- What comes again makes no difference.
theorem distinct_insert (h : a ∈ seen ∨ a ∈ before) :
    distinct seen (before ++ a :: after) = distinct seen (before ++ after) := by
  induction before generalizing seen
  case nil              => simp [distinct, h.resolve_right List.not_mem_nil]
  case cons b before hi =>
    simp only [List.cons_append, distinct]
    split
    case isTrue hb =>
      refine hi <| h.elim .inl fun h => ?_
      cases h
      case head   => exact .inl hb
      case tail h => exact .inr h
    case isFalse   =>
      refine congrArg (b :: ·) <| hi ?_
      simpa [or_assoc, or_left_comm] using h

end Distinct

namespace Graph

-- The same graph, apart from how often edges are repeated.
structure Echoes (g g' : Graph) : Prop where
  rest  : g' = { g with edges := g'.edges }
  edges : distinct [] g'.edges = distinct [] g.edges

-- The graph with a further copy of one of its edges, somewhere after the edge itself.
def Copies (g g' : Graph) : Prop :=
  ∃ before after, ∃ e ∈ before, g.edges = before ++ after ∧
    g' = { g with edges := before ++ e :: after }

theorem Copies.echoes {g g' : Graph} (h : g.Copies g') : g.Echoes g' := by
  obtain ⟨before, after, e, he, hg, rfl⟩ := h
  exact ⟨rfl, (distinct_insert <| .inr he).trans <| congrArg (distinct []) hg.symm⟩

namespace Echoes

variable {g g' : Graph} (h : g.Echoes g')

include h

theorem nodes : g'.nodes = g.nodes :=
  (congrArg Graph.nodes h.rest : _ = { g with edges := g'.edges }.nodes)

theorem mem_edges_iff {e : Edge} : e ∈ g'.edges ↔ e ∈ g.edges := by
  have hm := congrArg (e ∈ ·) h.edges
  simpa [Validation.mem_distinct_iff] using hm

theorem hydrate : g.hydrate.Echoes g'.hydrate :=
  ⟨congrArg Graph.hydrate h.rest, h.edges⟩

theorem stamp (version : String) : (Registry.stamp g version).Echoes (Registry.stamp g' version) :=
  ⟨congrArg (Registry.stamp · version) h.rest, h.edges⟩

-- Whether a graph makes sense does not depend on how often an edge is there.
theorem wellFormed (hw : g.WellFormed) : g'.WellFormed := by
  have feeds : g'.Feeds = g.Feeds := by
    funext a b
    simp only [Feeds, h.mem_edges_iff]
  have connected {id port} (hc : g.Connected id port) : g'.Connected id port := by
    simpa only [Connected, h.mem_edges_iff] using hc
  have port {id p} (hp : g.HasPort id p) : g'.HasPort id p := by
    rwa [HasPort, h.nodes]
  constructor
  case nonempty   => exact h.nodes ▸ hw.nonempty
  case distinct   => rw [ids, h.nodes]; exact hw.distinct
  case known      => exact h.nodes ▸ hw.known
  case parameters => exact h.nodes ▸ hw.parameters
  case connected  =>
    intro n hn d hd p hp hr
    exact connected <| hw.connected n (h.nodes ▸ hn) d hd p hp hr
  case wired      =>
    intro e he
    obtain ⟨output, input, hw⟩ := hw.wired e (h.mem_edges_iff.mp he)
    exact ⟨output, input, { hw with source := port hw.source, target := port hw.target }⟩
  case acyclic    => exact feeds ▸ hw.acyclic

theorem routes_eq : Compile.routes g' = Compile.routes g := by
  have sources : Compile.sources g' = Compile.sources g := by
    funext id port
    have hm {l : List Edge} (f : Edge → PortRef) :
        distinct [] (l.map f) = distinct [] ((distinct [] l).map f) := distinct_map nofun
    rw [Compile.sources, hm, distinct_filter, h.edges, ←distinct_filter, ←hm, Compile.sources]
  have into : Compile.routesInto g' = Compile.routesInto g := by
    unfold Compile.routesInto
    rw [sources]
  rw [Compile.routes, into, h.nodes, Compile.routes]

end Echoes

end Graph

-- The hop has no eye for how often edges are repeated.
def Hop.KeepsEchoes (hop : Hop) : Prop :=
  ∀ g g' : Graph, g.Echoes g' → (hop.apply g).Echoes (hop.apply g')

namespace Registry

variable {r : Registry} {g g' m : Graph} (hr : ∀ hop ∈ r.hops, hop.KeepsEchoes)

include hr

theorem exists_follow_of_echoes {target v : String} {fuel : Nat} (h : g.Echoes g')
    (hm : r.follow target fuel v g = .ok m) :
    ∃ m', r.follow target fuel v g' = .ok m' ∧ m.Echoes m' := by
  induction fuel generalizing v g g' <;> rw [follow] at hm ⊢ <;> split at hm
  case zero.isTrue hv | succ.isTrue hv =>
    cases hm
    exact ⟨_, if_pos hv, h.stamp target⟩
  case zero.isFalse hv                 => split at hm <;> cases hm
  case succ.isFalse hi hv              =>
    rw [if_neg hv]
    split at hm
    case h_1      => cases hm
    case h_2 hop hf => exact hi (hr hop (mem_of_hopFrom? hf) g g' h) hm

theorem exists_migrate_of_echoes (h : g.Echoes g') (hm : r.migrate g none = .ok m) :
    ∃ m', r.migrate g' none = .ok m' ∧ m.Echoes m' := by
  have hv : g'.schemaVersion? = g.schemaVersion? :=
    (congrArg Graph.schemaVersion? h.rest : _ = { g with edges := g'.edges }.schemaVersion?)
  simp only [migrate, hv] at hm ⊢
  split at hm
  case h_1 => cases hm
  case h_2 =>
    split at hm
    case h_1 => cases hm
    case h_2 =>
      split at hm
      case isTrue     => cases hm
      case isFalse hn =>
        rw [if_neg hn]
        exact exists_follow_of_echoes hr h hm

end Registry

-- A set of names is known by its names.
theorem NameSet.ext {d e : NameSet} (h : ∀ k, k ∈ d.keys ↔ k ∈ e.keys) : d = e := by
  apply Dict.ext_get?
  intro k
  have hk := h k
  rw [Dict.mem_keys_iff, Dict.mem_keys_iff] at hk
  cases hd : d.get? k <;> cases he : e.get? k <;> simp_all

namespace Compile

section Edges

variable {d d' d'' : Dict PlanNode} {e : Edge} {edges edges' : List Edge} {id : String}

theorem get?_addEdge (h : addEdge d e = .ok d') : d'.get? id = (d.get? id).map (link e id) := by
  rw [addEdge] at h
  split at h
  case isTrue  => cases h
  case isFalse =>
    split at h
    case isTrue  => cases h
    case isFalse =>
      cases h
      rw [Dict.get?_modify, Dict.get?_modify, Option.map_map]
      rfl

-- What all edges do to the node under an id.
def linkAll (edges : List Edge) (id : String) (n : PlanNode) : PlanNode :=
  edges.foldl (fun n e => link e id n) n

theorem get?_foldlM_addEdge (h : edges.foldlM addEdge d = .ok d') :
    d'.get? id = (d.get? id).map (linkAll edges id) := by
  induction edges generalizing d
  case nil             => cases h; exact Option.map_id'.symm
  case cons e edges hi =>
    rw [List.foldlM_cons] at h
    cases he : addEdge d e
    case error => rw [he] at h; cases h
    case ok d₁ =>
      rw [he] at h
      rw [hi h, get?_addEdge he, Option.map_map]
      rfl

section Link

variable {n : PlanNode} {k : String}

theorem linkAll_eq : linkAll edges id n = { n with
    dependencies := (linkAll edges id n).dependencies
    dependents   := (linkAll edges id n).dependents } := by
  induction edges generalizing n
  case nil             => rfl
  case cons e edges hi =>
    have hl : link e id n = { n with
        dependencies := (link e id n).dependencies, dependents := (link e id n).dependents } := by
      simp only [link]
      split <;> split <;> rfl
    exact hi.trans <| congrArg (fun m : PlanNode => { m with
      dependencies := (linkAll (e :: edges) id n).dependencies
      dependents   := (linkAll (e :: edges) id n).dependents }) hl

theorem mem_linkAll_dependencies : k ∈ (linkAll edges id n).dependencies.keys ↔
    k ∈ n.dependencies.keys ∨ ∃ e ∈ edges, e.sourceNode = k ∧ e.targetNode = id := by
  induction edges generalizing n
  case nil             => simp [linkAll]
  case cons e edges hi =>
    refine hi.trans ?_
    rw [mem_link_dependencies, List.exists_mem_cons_iff, or_assoc]

theorem mem_linkAll_dependents : k ∈ (linkAll edges id n).dependents.keys ↔
    k ∈ n.dependents.keys ∨ ∃ e ∈ edges, e.sourceNode = id ∧ e.targetNode = k := by
  induction edges generalizing n
  case nil             => simp [linkAll]
  case cons e edges hi =>
    refine hi.trans ?_
    rw [mem_link_dependents, List.exists_mem_cons_iff, or_assoc]

-- Nothing but the edges that there are counts, and not how often.
theorem linkAll_congr (h : ∀ e, e ∈ edges ↔ e ∈ edges') :
    linkAll edges id n = linkAll edges' id n := by
  have dependencies : (linkAll edges id n).dependencies = (linkAll edges' id n).dependencies :=
    NameSet.ext fun k => by simp only [mem_linkAll_dependencies, h]
  have dependents : (linkAll edges id n).dependents = (linkAll edges' id n).dependents :=
    NameSet.ext fun k => by simp only [mem_linkAll_dependents, h]
  rw [linkAll_eq, dependencies, dependents, ←linkAll_eq]

end Link

theorem foldlM_addEdge_congr (hm : ∀ e, e ∈ edges ↔ e ∈ edges')
    (h : edges.foldlM addEdge d = .ok d') (h' : edges'.foldlM addEdge d = .ok d'') : d' = d'' := by
  apply Dict.ext_get?
  intro id
  rw [get?_foldlM_addEdge h, get?_foldlM_addEdge h']
  congr 1
  funext n
  exact linkAll_congr hm

end Edges

-- The plan of a graph, piece by piece.
theorem exists_of_skeleton {strategy symbol : String} {g : Graph} {p : Plan}
    (h : skeleton strategy g symbol = .ok p) : ∃ nodes, g.nodes.foldlM addNode ∅ = .ok nodes ∧
      g.edges.foldlM addEdge nodes = .ok p.nodes ∧
      p = { name := g.name, strategy, symbol, nodes := p.nodes, order := p.order, machines := ∅,
            routes := routes g } := by
  simp only [skeleton, bind, Except.bind] at h
  split at h
  case h_1 => cases h
  case h_2 nodes hn =>
    split at h
    case h_1 => cases h
    case h_2 he =>
      split at h
      case h_1 => cases h
      case h_2 => cases h; exact ⟨nodes, hn, he, rfl⟩

theorem exists_skeleton_of_echoes {strategy symbol : String} {g g' : Graph} {q : Plan}
    (h : g.Echoes g') (hw : g.WellFormed) (hq : skeleton strategy g symbol = .ok q) :
    ∃ order, skeleton strategy g' symbol = .ok { q with order } ∧ q.order ~ order := by
  have ⟨q', hq', hi'⟩ := exists_skeleton strategy symbol <| h.wellFormed hw
  have ⟨q'', hq'', hi⟩ := exists_skeleton strategy symbol hw
  cases hq.symm.trans hq''
  have ⟨nodes, hn, he, hs⟩ := exists_of_skeleton hq
  have ⟨nodes', hn', he', hs'⟩ := exists_of_skeleton hq'
  rw [h.nodes] at hn'
  cases hn.symm.trans hn'
  have hnodes : q.nodes = q'.nodes := foldlM_addEdge_congr (fun _ => h.mem_edges_iff.symm) he he'
  have hname : g'.name = g.name :=
    (congrArg Graph.name h.rest : _ = { g with edges := g'.edges }.name)
  refine ⟨q'.order, ?_, ?_⟩
  · rw [hq', hs', hs, hname, hnodes, h.routes_eq]
  · have ho := (Graph.isOrder_of_implements hi hw).perm
    have ho' := (Graph.isOrder_of_implements hi' <| h.wellFormed hw).perm
    rw [ids, h.nodes] at ho'
    exact ho.trans ho'.symm

section Equip

variable (p : Plan) (services services' : Services) {ids order : List String}

theorem exists_foldl_equip_eq (ids : List String) : ∃ nodes machines,
    (ids.foldl equip (p, services)).1 = { p with nodes, machines } := by
  induction ids generalizing p services
  case nil            => exact ⟨_, _, rfl⟩
  case cons id ids hi =>
    have ⟨_, _, he⟩ := exists_equip_eq services p id
    have ⟨nodes, machines, hl⟩ := hi (equip (p, services) id).1 (equip (p, services) id).2
    exact ⟨nodes, machines, hl.trans <| he ▸ rfl⟩

-- The nodes are given the names of their series, each by itself.
theorem nodes_foldl_equip_of_perm (h : ids ~ order) :
    (order.foldl equip ({ p with order }, services')).1.nodes =
      (ids.foldl equip (p, services)).1.nodes := by
  apply Dict.ext_get?
  intro k
  rw [get?_nodes_foldl_equip, get?_nodes_foldl_equip]
  congr 1
  funext n
  simp only [h.mem_iff]
  rfl

end Equip

end Compile

-- From now on the store answers each key in one way, whichever call asks for it.
def StoreLink.Constant (l : StoreLink) : Prop :=
  ∀ j k key, l.answer j key = l.answer k key

namespace Graph

variable {g g' m : Graph} {setup : Setup} {services : Services} {strategy symbol : String}
  {p q : Plan}

theorem compile_of_skeleton (hm : setup.registry.migrate g none = .ok m) (hw : m.WellFormed)
    (hq : Compile.skeleton strategy m.hydrate symbol = .ok q) :
    (g.compile setup services strategy symbol).1 =
      .ok (q.order.foldl Compile.equip (q, services)).1 := by
  have hv := (m.isValid_validate_iff setup.config).mpr hw
  simp only [compile, Compile.prepare_of_migrate hm, hv, if_true, hq]

-- Copies of edges get into the order of a plan. Machines are recovered in that order, which makes
-- no difference unless the store takes notice of it. There is nothing else that copies get into.
theorem exists_compile_of_echoes (h : g.Echoes g')
    (hc : (g.compile setup services strategy symbol).1 = .ok p)
    (hr : ∀ hop ∈ setup.registry.hops, hop.KeepsEchoes) :
    ∃ p', (g'.compile setup services strategy symbol).1 = .ok p' ∧
      p' = { p with order := p'.order, machines := p'.machines } ∧ p.order ~ p'.order ∧
      ((∀ l ∈ services.store, l.Constant) → p'.machines = p.machines) := by
  have ⟨m, hm, hw, _⟩ := exists_implements_of_compile hc
  have ⟨m', hm', he⟩ := Registry.exists_migrate_of_echoes hr h hm
  have hw' := wellFormed_hydrate_iff.mpr hw
  have ⟨q, hq, _⟩ := Compile.exists_skeleton strategy symbol hw'
  have ⟨order, hq', ho⟩ := Compile.exists_skeleton_of_echoes he.hydrate hw' hq
  have hc' : (g'.compile setup services strategy symbol).1 = .ok _ :=
    compile_of_skeleton hm' (he.wellFormed hw) hq'
  have hp := hc.symm.trans <| compile_of_skeleton hm hw hq
  cases hp
  refine ⟨_, hc', ?rest, ?order, fun hs => ?machines⟩
  case rest     =>
    have nodes := Compile.nodes_foldl_equip_of_perm q services services ho
    have ⟨_, _, hl⟩ := Compile.exists_foldl_equip_eq q services q.order
    have ⟨_, _, hr⟩ := Compile.exists_foldl_equip_eq { q with order } services order
    rw [hl, hr] at nodes ⊢
    cases nodes
    rfl
  case order    =>
    rwa [Compile.order_foldl_equip, Compile.order_foldl_equip]
  case machines =>
    have answers (j k : Nat) (key : StateKey) : services.store.bind (·.answer j key) =
        services.store.bind (·.answer k key) :=
      Option.bind_congr fun l hl => hs l hl j k key
    apply Dict.ext_get?
    intro id
    rw [get?_machines_of_compile hc', get?_machines_of_compile hc,
      Compile.machineKind?_foldl_equip, Compile.machineKind?_foldl_equip]
    refine congrArg (Option.map · _) <| funext fun kind => ?_
    rw [answers]

end Graph

end SignalFlow
