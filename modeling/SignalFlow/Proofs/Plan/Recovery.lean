import SignalFlow.Proofs.Execution.Steps
import SignalFlow.Proofs.StateStore

/-!
What compilation takes from the services: the machines, and nothing else of a plan. Each temporal
node has a machine of its kind, which is the stored one if there is one.
-/

namespace SignalFlow

namespace Plan

-- The machine that the node needs.
def machineKind? (p : Plan) (id : String) : Option MachineKind :=
  (p.nodes.get? id).bind (·.kind.machineKind?)

def isTemporal (p : Plan) (id : String) : Bool :=
  (p.machineKind? id).isSome

-- The machine of a node, given what is stored for each.
def recovered (p : Plan) (slots : String → Option (Blob × Int)) (id : String) : Option Machine :=
  (p.machineKind? id).map fun kind => Compile.recover kind <| (slots id).map Prod.fst

-- The plan without its machines.
def bare (p : Plan) : Plan :=
  { p with machines := ∅ }

variable {p q : Plan}

theorem blank_eq_reset_bare : p.blank = p.bare.reset := rfl

theorem machineKind?_modify {id : String} {f : PlanNode → PlanNode}
    (hf : ∀ n, (f n).kind = n.kind) :
    { p with nodes := p.nodes.modify id f }.machineKind? = p.machineKind? := by
  funext k
  simp only [machineKind?, Dict.get?_modify, Option.bind_map]
  congr 1
  funext n
  by_cases hk : k = id <;> simp [hk, hf]

theorem machineKind?_of_blank_eq (h : q.blank = p.blank) : q.machineKind? = p.machineKind? := by
  have hk (p : Plan) id : p.machineKind? id =
      (p.reset.nodes.get? id).bind (·.kind.machineKind?) := by
    rw [get?_reset, Option.bind_map]
    rfl
  funext id
  rw [hk, hk, nodes_reset_of_blank_eq h]

end Plan

namespace Compile

section Equip

variable {p q : Plan} (services services' : Services) {id : String} {kind : MachineKind}

theorem equip_of_machineKind?_eq_none (h : p.machineKind? id = none) :
    (equip (p, services) id).1.machines = p.machines ∧
      (equip (p, services) id).2.store = services.store := by
  rw [equip]
  cases hn : p.nodes.get? id
  case none   => exact ⟨rfl, rfl⟩
  case some n =>
    have hk : n.kind.machineKind? = none := by simpa [Plan.machineKind?, hn] using h
    dsimp only
    rw [hk]
    cases n.kind <;> exact ⟨rfl, rfl⟩

theorem equip_of_machineKind?_eq_some (h : p.machineKind? id = some kind) :
    (equip (p, services) id).1.machines =
        p.machines.insert id (recoverFrom services.store (p.stateKey id) kind).1 ∧
      (equip (p, services) id).2.store = (recoverFrom services.store (p.stateKey id) kind).2 := by
  rw [equip]
  cases hn : p.nodes.get? id
  case none   => simp [Plan.machineKind?, hn] at h
  case some n =>
    have hk : n.kind.machineKind? = some kind := by simpa [Plan.machineKind?, hn] using h
    dsimp only
    rw [hk]
    cases hc : n.kind
    case indicator => rw [hc] at hk; cases hk
    case dataSource | condition | composition | action => exact ⟨rfl, rfl⟩

theorem bare_equip (h : q.bare = p.bare) :
    (equip (q, services') id).1.bare = (equip (p, services) id).1.bare := by
  have he : q = { p with machines := q.machines } :=
    congrArg (fun p : Plan => { p with machines := q.machines }) h
  generalize q.machines = machines at he
  subst he
  simp only [equip]
  cases p.nodes.get? id
  case none   => rfl
  case some n =>
    dsimp only
    cases n.kind.machineKind? <;> cases n.kind <;> rfl

theorem machineKind?_equip (p : Plan) (id : String) :
    (equip (p, services) id).1.machineKind? = p.machineKind? := by
  rw [equip]
  cases p.nodes.get? id
  case none   => rfl
  case some n =>
    dsimp only
    cases n.kind
    case indicator =>
      dsimp only
      exact Plan.machineKind?_modify fun _ => rfl
    case dataSource | condition | composition | action => cases Kind.machineKind? _ <;> rfl

theorem exists_equip_eq (p : Plan) (id : String) :
    ∃ nodes machines, (equip (p, services) id).1 = { p with nodes, machines } := by
  rw [equip]
  cases p.nodes.get? id
  case none   => exact ⟨_, _, rfl⟩
  case some n =>
    dsimp only
    cases n.kind.machineKind? <;> cases n.kind <;> exact ⟨_, _, rfl⟩

end Equip

theorem fst_recoverFrom (store : Option StoreLink) (key : StateKey) (kind : MachineKind) :
    (recoverFrom store key kind).1 = recover kind (store.bind (·.answer 0 key)) := by
  cases store
  case none   => rfl
  case some l => rw [recoverFrom, StoreLink.fst_read]; rfl

theorem snd_recoverFrom (store : Option StoreLink) (key : StateKey) (kind : MachineKind) :
    (recoverFrom store key kind).2 = store.map fun l => (l.read key).2 := by
  cases store <;> rfl

section Fold

variable {p q : Plan} {services services' : Services} {id : String} {l : StoreLink}
  {ids before after : List String}

theorem bare_foldl_equip (h : q.bare = p.bare) :
    (ids.foldl equip (q, services')).1.bare = (ids.foldl equip (p, services)).1.bare := by
  induction ids generalizing p q services services'
  case nil          => exact h
  case cons id l hi => exact hi (bare_equip _ _ h)

variable (p services ids)

theorem machineKind?_foldl_equip :
    (ids.foldl equip (p, services)).1.machineKind? = p.machineKind? := by
  induction ids generalizing p services
  case nil            => rfl
  case cons id ids hi => exact (hi ..).trans <| machineKind?_equip services p id

theorem isTemporal_equip (id : String) :
    (equip (p, services) id).1.isTemporal = p.isTemporal := by
  funext k
  rw [Plan.isTemporal, machineKind?_equip, Plan.isTemporal]

theorem isTemporal_foldl_equip :
    (ids.foldl equip (p, services)).1.isTemporal = p.isTemporal := by
  funext id
  rw [Plan.isTemporal, machineKind?_foldl_equip, Plan.isTemporal]

theorem stateKey_foldl_equip : (ids.foldl equip (p, services)).1.stateKey = p.stateKey := by
  induction ids generalizing p services
  case nil            => rfl
  case cons id ids hi =>
    have ⟨nodes, machines, he⟩ := exists_equip_eq services p id
    exact (hi ..).trans <| he ▸ rfl

theorem order_foldl_equip : (ids.foldl equip (p, services)).1.order = p.order := by
  induction ids generalizing p services
  case nil            => rfl
  case cons id ids hi =>
    have ⟨nodes, machines, he⟩ := exists_equip_eq services p id
    exact (hi ..).trans <| he ▸ rfl

-- Each temporal node makes one read.
theorem store_equip (id : String) : (equip (p, services) id).2.store =
    if p.isTemporal id then services.store.map fun l => (l.read (p.stateKey id)).2
    else services.store := by
  cases hk : p.machineKind? id
  case none      =>
    rw [(equip_of_machineKind?_eq_none services hk).right]
    simp [Plan.isTemporal, hk]
  case some kind =>
    rw [(equip_of_machineKind?_eq_some services hk).right, snd_recoverFrom]
    simp [Plan.isTemporal, hk]

variable {services} in
theorem exists_store_equip (id : String) (hs : services.store = some l) :
    ∃ l', (equip (p, services) id).2.store = some l' ∧
      l'.calls = l.calls + [id].countP p.isTemporal := by
  rw [store_equip, hs]
  cases ht : p.isTemporal id
  case false => exact ⟨l, rfl, by simp [ht]⟩
  case true  => exact ⟨_, rfl, by simp [ht]⟩

variable {services} in
theorem exists_store_foldl_equip (hs : services.store = some l) :
    ∃ l', (ids.foldl equip (p, services)).2.store = some l' ∧
      l'.calls = l.calls + ids.countP p.isTemporal := by
  induction ids generalizing p services l
  case nil            => exact ⟨l, hs, rfl⟩
  case cons id ids hi =>
    have ⟨l₁, hs, hc⟩ := exists_store_equip p id hs
    have ⟨l₂, hs, hc'⟩ := hi (equip (p, services) id).1 hs
    refine ⟨l₂, hs, ?_⟩
    rw [hc', hc, isTemporal_equip, Nat.add_assoc, ←List.countP_append]
    rfl

theorem answer_foldl_equip (k : Nat) (key : StateKey) :
    (ids.foldl equip (p, services)).2.store.bind (·.answer k key) =
      services.store.bind (·.answer (ids.countP p.isTemporal + k) key) := by
  induction ids generalizing p services
  case nil            => simp
  case cons id ids hi =>
    refine (hi (equip (p, services) id).1 (equip (p, services) id).2).trans ?_
    rw [store_equip, isTemporal_equip]
    cases ht : p.isTemporal id
    case false => rw [List.countP_cons_of_neg (by simp [ht])]; rfl
    case true  =>
      have hc : ids.countP p.isTemporal + k + 1 = ids.countP p.isTemporal + 1 + k := by omega
      rw [List.countP_cons_of_pos ht, if_pos rfl, Option.bind_map]
      simp only [Function.comp_def, StoreLink.answer_read, hc]

variable {ids} in
theorem get?_machines_foldl_equip_of_notMem (h : id ∉ ids) :
    (ids.foldl equip (p, services)).1.machines.get? id = p.machines.get? id := by
  induction ids generalizing p services
  case nil           => rfl
  case cons k ids hi =>
    have ⟨hk, h⟩ := List.ne_and_not_mem_of_not_mem_cons h
    refine (hi (equip (p, services) k).1 (equip (p, services) k).2 h).trans ?_
    cases hm : p.machineKind? k
    case none      => rw [(equip_of_machineKind?_eq_none services hm).left]
    case some kind =>
      rw [(equip_of_machineKind?_eq_some services hm).left, Dict.get?_insert, if_neg hk]

variable {p} in
-- The machine of a node comes from the read that is made for it.
theorem get?_machines_foldl_equip (hb : id ∉ before) (ha : id ∉ after) (hm : p.machines = ∅) :
    ((before ++ id :: after).foldl equip (p, services)).1.machines.get? id =
      (p.machineKind? id).map fun kind => recover kind <|
        services.store.bind (·.answer (before.countP p.isTemporal) (p.stateKey id)) := by
  have answer := answer_foldl_equip p services before 0
  have later := get?_machines_foldl_equip_of_notMem
    (equip (before.foldl equip (p, services)) id).1 (equip (before.foldl equip (p, services)) id).2 ha
  rw [List.foldl_append, List.foldl_cons, later]
  have hmachine := get?_machines_foldl_equip_of_notMem p services hb
  have hkind := machineKind?_foldl_equip p services before
  have hkey := stateKey_foldl_equip p services before
  generalize before.foldl equip (p, services) = state at answer hmachine hkind hkey
  rw [←hkind]
  cases hk : state.1.machineKind? id
  case none      =>
    rw [(equip_of_machineKind?_eq_none state.2 hk).left, hmachine, hm]
    rfl
  case some kind =>
    rw [(equip_of_machineKind?_eq_some state.2 hk).left, Dict.get?_insert, if_pos rfl,
      fst_recoverFrom, hkey, answer]
    rfl

end Fold

-- What is stored for a node can be read, as long as calls find the store up.
def Legible (l l' : StoreLink) (strategy symbol : String) : Prop :=
  ∀ id, l.slots strategy symbol id = none ∨
    l.Reaches l' ∧ ∀ e ∈ l.slots strategy symbol id, l.now < e.2

theorem skeleton_eq {strategy symbol : String} {g : Graph} {p : Plan}
    (h : skeleton strategy g symbol = .ok p) :
    p.strategy = strategy ∧ p.symbol = symbol ∧ p.machines = ∅ := by
  simp only [skeleton, bind, Except.bind] at h
  split at h
  case h_1 => cases h
  case h_2 =>
    split at h
    case h_1 => cases h
    case h_2 =>
      split at h
      case h_1 => cases h
      case h_2 => cases h; exact ⟨rfl, rfl, rfl⟩

end Compile

namespace Graph

open Compile

variable {g : Graph} {setup : Setup} {services : Services} {strategy symbol : String}
  {p : Plan} {l : StoreLink}

-- The services come in only when the plan is there.
theorem exists_skeleton_eq_of_compile (h : (g.compile setup services strategy symbol).1 = .ok p) :
    ∃ prepared q, skeleton strategy prepared symbol = .ok q ∧
      ∀ services, g.compile setup services strategy symbol =
        (.ok (q.order.foldl equip (q, services)).1, (q.order.foldl equip (q, services)).2) := by
  simp only [compile] at h ⊢
  split at h
  case h_1 => cases h
  case h_2 prepared _ =>
    split at h
    case h_1      => cases h
    case h_2 q hs => exact ⟨prepared, q, hs, fun services => rfl⟩

theorem exists_skeleton_of_compile (h : (g.compile setup services strategy symbol).1 = .ok p) :
    ∃ q : Plan, q.strategy = strategy ∧ q.symbol = symbol ∧ q.machines = ∅ ∧
      ∀ services, g.compile setup services strategy symbol =
        (.ok (q.order.foldl equip (q, services)).1, (q.order.foldl equip (q, services)).2) := by
  have ⟨_, q, hs, hq⟩ := exists_skeleton_eq_of_compile h
  have ⟨hstrategy, hsymbol, hm⟩ := skeleton_eq hs
  exact ⟨q, hstrategy, hsymbol, hm, hq⟩

theorem exists_compile_bare (h : (g.compile setup services strategy symbol).1 = .ok p)
    (services' : Services) :
    ∃ p', (g.compile setup services' strategy symbol).1 = .ok p' ∧ p'.bare = p.bare := by
  have ⟨q, _, _, _, hq⟩ := exists_skeleton_of_compile h
  rw [hq] at h ⊢
  cases h
  exact ⟨_, rfl, bare_foldl_equip rfl⟩

theorem causal_of_compile (hc : (g.compile setup services strategy symbol).1 = .ok p) :
    p.Causal := by
  have ⟨m, _, hw, hi⟩ := exists_implements_of_compile hc
  have hw := wellFormed_hydrate_iff.mpr hw
  exact hi.causal hw <| isOrder_of_implements hi hw

theorem mem_temporal_of_compile (hc : (g.compile setup services strategy symbol).1 = .ok p)
    {id : String} {kind : MachineKind} (hk : p.machineKind? id = some kind) :
    id ∈ p.order.filter p.isTemporal := by
  have ⟨n, hn, _⟩ := Option.bind_eq_some_iff.mp hk
  refine List.mem_filter.mpr ⟨((causal_of_compile hc).mem id).mpr ⟨n, hn⟩, ?_⟩
  rw [Plan.isTemporal, hk]
  rfl

theorem stateKey_of_compile (h : (g.compile setup services strategy symbol).1 = .ok p)
    (node : String) : p.stateKey node = ⟨strategy, symbol, node⟩ := by
  have ⟨q, hstrategy, hsymbol, _, hq⟩ := exists_skeleton_of_compile h
  rw [hq] at h
  cases h
  rw [stateKey_foldl_equip, Plan.stateKey, hstrategy, hsymbol]

theorem exists_store_of_compile (hc : (g.compile setup services strategy symbol).1 = .ok p)
    (hs : services.store = some l) :
    ∃ l', (g.compile setup services strategy symbol).2.store = some l' ∧
      l'.calls = l.calls + p.order.countP p.isTemporal := by
  have ⟨q, _, _, _, hq⟩ := exists_skeleton_of_compile hc
  have ⟨l', hs', hcalls⟩ := exists_store_foldl_equip q q.order hs
  rw [hq] at hc ⊢
  cases hc
  exact ⟨l', hs', hcalls.trans <| by rw [order_foldl_equip, isTemporal_foldl_equip]⟩

-- The machine of a temporal node is what the store answers the read with the number of the node.
theorem get?_machines_of_compile (hc : (g.compile setup services strategy symbol).1 = .ok p)
    (id : String) :
    p.machines.get? id = (p.machineKind? id).map fun kind => recover kind <|
      services.store.bind
        (·.answer ((p.order.filter p.isTemporal).idxOf id) ⟨strategy, symbol, id⟩) := by
  have ⟨q, hstrategy, hsymbol, hm, hq⟩ := exists_skeleton_of_compile hc
  have causal := causal_of_compile hc
  have hkey := stateKey_of_compile hc id
  rw [hq] at hc
  have horder : p.order = q.order := by cases hc; exact order_foldl_equip ..
  have hkind : p.machineKind? = q.machineKind? := by cases hc; exact machineKind?_foldl_equip ..
  have htemporal : p.isTemporal = q.isTemporal := by cases hc; exact isTemporal_foldl_equip ..
  have hstate : p.stateKey = q.stateKey := by cases hc; exact stateKey_foldl_equip ..
  have hp : (q.order.foldl equip (q, services)).1 = p := by cases hc; rfl
  by_cases hid : id ∈ p.order
  case pos =>
    have ⟨before, after, hs⟩ := List.append_of_mem hid
    have hn := hs ▸ causal.nodup
    have hb : id ∉ before := fun hb => (List.nodup_append.mp hn).right.right id hb id (.head _) rfl
    have ha : id ∉ after := (List.nodup_cons.mp (List.nodup_append.mp hn).right.left).left
    have hf := get?_machines_foldl_equip services hb ha hm
    rw [←hs, horder, hp, ←hstate, hkey] at hf
    rw [hf, hkind]
    cases hk : q.machineKind? id
    case none      => rfl
    case some kind =>
      have ht : q.isTemporal id := by rw [Plan.isTemporal, hk]; rfl
      rw [hs, htemporal, List.filter_append, List.filter_cons_of_pos ht,
        List.idxOf_append_of_notMem (mt List.mem_of_mem_filter hb), List.idxOf_cons_self,
        Nat.add_zero, List.countP_eq_length_filter]
  case neg =>
    have hf := get?_machines_foldl_equip_of_notMem q services <| horder ▸ hid
    rw [hp, hm] at hf
    rw [causal.mem] at hid
    have hn : p.nodes.get? id = none :=
      Option.eq_none_iff_forall_ne_some.mpr fun n hn => hid ⟨n, hn⟩
    rw [hf, Plan.machineKind?, hn]
    rfl

theorem equipped_of_compile (hc : (g.compile setup services strategy symbol).1 = .ok p)
    (hs : services.store = some l)
    (hr : ∀ l' ∈ (g.compile setup services strategy symbol).2.store, Legible l l' strategy symbol) :
    p.strategy = strategy ∧ p.symbol = symbol ∧
      ∀ id, p.machines.get? id = p.recovered (l.slots strategy symbol) id := by
  have hkey := stateKey_of_compile hc ""
  refine ⟨congrArg StateKey.strategy hkey, congrArg StateKey.symbol hkey, fun id => ?_⟩
  rw [get?_machines_of_compile hc, hs, Plan.recovered, Option.bind_some]
  cases hk : p.machineKind? id
  case none      => rfl
  case some kind =>
    have ⟨l', hl, hcalls⟩ := exists_store_of_compile hc hs
    have hlt : (p.order.filter p.isTemporal).idxOf id < p.order.countP p.isTemporal := by
      rw [List.countP_eq_length_filter]
      exact List.idxOf_lt_length_of_mem <| mem_temporal_of_compile hc hk
    rw [StoreLink.answer_eq]
    exact (hr l' hl id).imp_right fun h => ⟨h.left _ (by omega) (by omega), h.right⟩

end Graph

end SignalFlow
