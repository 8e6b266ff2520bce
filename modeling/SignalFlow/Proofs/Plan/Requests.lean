import SignalFlow.Proofs.Plan.Recovery

/-!
What compilation asks of the services for a plan: one read of the store for each machine, and one
registration with the feed for each indicator, both in the order of the plan. The plan has nothing
to show for the latter but the names of the series.
-/

namespace SignalFlow

namespace Plan

-- What the feed is asked for on behalf of a node.
def request? (p : Plan) (id : String) : Option (IndicatorKey × Json) :=
  (p.nodes.get? id).bind fun n =>
    match n.kind with
    | .indicator kind => some (n.node.series p.symbol kind, .obj [("node_id", .str n.node.id)])
    | _               => none

-- The services after all that the plan needs was asked of them.
def serve (p : Plan) (services : Services) : Services where
  store := services.store.map fun l =>
    (p.order.filter p.isTemporal).foldl (fun l id => (l.read (p.stateKey id)).2) l
  feed  := services.feed.map fun f =>
    { f with registrations := f.registrations ++ p.order.filterMap p.request? }

theorem request?_congr {p q : Plan} (hs : q.symbol = p.symbol)
    (hn : ∀ id, (q.nodes.get? id).map (fun n => (n.kind, n.node)) =
      (p.nodes.get? id).map fun n => (n.kind, n.node)) : q.request? = p.request? := by
  funext id
  have hn := hn id
  rw [request?, request?, hs]
  cases hq : q.nodes.get? id <;> cases hp : p.nodes.get? id <;> rw [hq, hp] at hn
  case none.some     => cases hn
  case some.none     => cases hn
  case some.some n m =>
    have ⟨hk, hn⟩ := Prod.mk.inj <| Option.some.inj hn
    simp only [Option.bind_some, hk, hn]

end Plan

namespace Compile

-- What an indicator that has its turn learns: the name of its series.
def keyed (p : Plan) (id : String) (n : PlanNode) : PlanNode :=
  { n with indicatorKey := ((p.request? id).map Prod.fst).or n.indicatorKey }

section Equip

variable (p : Plan) (services : Services) (id : String)

theorem equip_request? :
    (∀ k, (equip (p, services) id).1.nodes.get? k =
      (p.nodes.get? k).map fun n => if k = id then keyed p id n else n) ∧
    (equip (p, services) id).2.feed = services.feed.map fun f =>
      { f with registrations := f.registrations ++ (p.request? id).toList } := by
  have hidle (hr : p.request? id = none) :
      (∀ k, p.nodes.get? k = (p.nodes.get? k).map fun n => if k = id then keyed p id n else n) ∧
      services.feed = services.feed.map fun f =>
        { f with registrations := f.registrations ++ (p.request? id).toList } := by
    simp [keyed, hr]
  rw [equip]
  cases hn : p.nodes.get? id
  case none   => exact hidle (by rw [Plan.request?, hn]; rfl)
  case some n =>
    dsimp only
    cases hk : n.kind
    case indicator kind =>
      have hr : p.request? id =
          some (n.node.series p.symbol kind, .obj [("node_id", .str n.node.id)]) := by
        simp only [Plan.request?, hn, hk, Option.bind_some]
      refine ⟨fun k => ?_, ?_⟩
      · simp only [Dict.get?_modify, keyed, hr, Option.map_some, Option.some_or]
      · simp only [hr]
        rfl
    case dataSource | condition | composition | action =>
      have hr : p.request? id = none := by simp only [Plan.request?, hn, hk, Option.bind_some]
      cases Kind.machineKind? _ <;> exact hidle hr

theorem request?_equip : (equip (p, services) id).1.request? = p.request? := by
  have ⟨_, _, he⟩ := exists_equip_eq services p id
  apply Plan.request?_congr (he ▸ rfl)
  intro k
  rw [(equip_request? p services id).left, Option.map_map]
  congr 1
  funext n
  by_cases hk : k = id <;> simp [hk, keyed]

end Equip

section Fold

variable (p : Plan) (services : Services) (ids : List String)

theorem request?_foldl_equip : (ids.foldl equip (p, services)).1.request? = p.request? := by
  induction ids generalizing p services
  case nil            => rfl
  case cons id ids hi => exact (hi ..).trans <| request?_equip p services id

theorem get?_nodes_foldl_equip (k : String) :
    (ids.foldl equip (p, services)).1.nodes.get? k =
      (p.nodes.get? k).map fun n => if k ∈ ids then keyed p k n else n := by
  induction ids generalizing p services
  case nil            => simp
  case cons id ids hi =>
    refine (hi (equip (p, services) id).1 (equip (p, services) id).2).trans ?_
    rw [(equip_request? p services id).left, Option.map_map]
    congr 1
    funext n
    simp only [Function.comp_apply, keyed, request?_equip, List.mem_cons]
    by_cases hk : k = id
    case pos =>
      subst hk
      by_cases hm : k ∈ ids <;> simp [hm, ←Option.or_assoc]
    case neg =>
      simp [hk]

theorem feed_foldl_equip :
    (ids.foldl equip (p, services)).2.feed = services.feed.map fun f =>
      { f with registrations := f.registrations ++ ids.filterMap p.request? } := by
  induction ids generalizing p services
  case nil            => simp
  case cons id ids hi =>
    refine (hi (equip (p, services) id).1 (equip (p, services) id).2).trans ?_
    rw [(equip_request? p services id).right, Option.map_map, request?_equip]
    congr 1
    funext f
    cases hr : p.request? id <;> simp [hr]

theorem store_foldl_equip :
    (ids.foldl equip (p, services)).2.store = services.store.map fun l =>
      (ids.filter p.isTemporal).foldl (fun l id => (l.read (p.stateKey id)).2) l := by
  induction ids generalizing p services
  case nil            => simp
  case cons id ids hi =>
    refine (hi (equip (p, services) id).1 (equip (p, services) id).2).trans ?_
    have hkey := stateKey_foldl_equip p services [id]
    rw [List.foldl_cons, List.foldl_nil] at hkey
    rw [store_equip, isTemporal_equip, hkey]
    cases ht : p.isTemporal id
    case false => rw [List.filter_cons_of_neg (by simp [ht])]; rfl
    case true  =>
      rw [List.filter_cons_of_pos ht, if_pos rfl, Option.map_map]
      rfl

-- Nothing is asked of the services but what the plan needs.
theorem serve_foldl_equip :
    (p.order.foldl equip (p, services)).2 =
      (p.order.foldl equip (p, services)).1.serve services := by
  have hs := store_foldl_equip p services p.order
  have hf := feed_foldl_equip p services p.order
  rw [Plan.serve, order_foldl_equip, isTemporal_foldl_equip, stateKey_foldl_equip,
    request?_foldl_equip, ←hs, ←hf]

end Fold

end Compile

namespace Graph

variable {g : Graph} {setup : Setup} {services : Services} {strategy symbol : String} {p : Plan}

-- A graph that does not compile is refused before anything is asked of the services.
theorem services_of_compile_error {error : CompileError}
    (h : (g.compile setup services strategy symbol).1 = .error error) :
    (g.compile setup services strategy symbol).2 = services := by
  rw [compile] at h ⊢
  split at h
  case h_1 => rfl
  case h_2 =>
    split at h
    case h_1 => rfl
    case h_2 => cases h

theorem services_of_compile (h : (g.compile setup services strategy symbol).1 = .ok p) :
    (g.compile setup services strategy symbol).2 = p.serve services := by
  have ⟨q, _, _, _, hq⟩ := exists_skeleton_of_compile h
  rw [hq] at h ⊢
  cases h
  exact Compile.serve_foldl_equip q services

end Graph

end SignalFlow
