import SignalFlow.Proofs.Execution.Isolation
import SignalFlow.Proofs.Execution.Persistence
import SignalFlow.Proofs.Execution.Storage

/-!
Machines that observe. When the node of a machine completes in a tick, the machine has made just one
observation, and the node says what came of it. When the node does not complete, the machine has
seen nothing.
-/

namespace SignalFlow

-- The port at which a machine is told what there is to observe.
def MachineKind.port : MachineKind → String
  | .duration => "condition"
  | .sequence => "event"

namespace NodeView

variable {v : NodeView} {s : Surroundings} {kind : Kind} {mk : MachineKind} {port : String}
  {machine : Option Machine} {m : Machine} {output : NodeOutput} {error : NodeError} {b : Bool}

theorem head?_of_boolean (h : v.boolean port = .ok b) : (v.values port).head? = some (.bool b) := by
  cases hb : v.booleans port
  case error e => simp [boolean, hb, bind, Except.bind] at h
  case ok bs   =>
    rw [values_of_booleans hb]
    cases bs
    case nil  => simp [boolean, hb, bind, Except.bind] at h
    case cons => simp only [boolean, hb, bind, Except.bind] at h; cases h; rfl

theorem run_of_machineKind? (hk : kind.machineKind? = some mk) :
    v.run s kind machine =
      match v.runTemporal s mk.port machine with
      | .ok (b, m) => (verdict (.ok b), m)
      | .error e   => (.error e, machine) := by
  cases kind
  case condition kind => cases kind <;> cases hk <;> rfl
  case dataSource | indicator | composition | action => cases hk

theorem run_machine_of_not_temporal (hk : kind.machineKind? = none) :
    (v.run s kind machine).2 = machine := by
  cases kind
  case condition kind => cases kind <;> first | rfl | cases hk
  case dataSource | indicator | composition | action => rfl

theorem run_machine_of_error (hr : (v.run s kind machine).1 = .error error) :
    (v.run s kind machine).2 = machine := by
  cases hk : kind.machineKind?
  case none    => exact run_machine_of_not_temporal hk
  case some mk =>
    rw [run_of_machineKind? hk] at hr ⊢
    split at hr
    case h_1 => cases hr
    case h_2 => rfl

-- A temporal condition that completes tells what its machine made of the first value.
theorem exists_advance_of_run (hk : kind.machineKind? = some mk)
    (hr : (v.run s kind (some m)).1 = .ok output) :
    ∃ input, let observed := m.advance v.node input (.ofFloat s.now.toFloat)
      (v.values mk.port).head? = some (.bool input) ∧
        (v.run s kind (some m)).2 = some observed.1 ∧
        output = .single "result" (.bool observed.2) := by
  rw [run_of_machineKind? hk] at hr ⊢
  cases hb : v.boolean mk.port
  case error e  => simp [runTemporal, hb, bind, Except.bind] at hr
  case ok input =>
    simp only [runTemporal, hb, bind, Except.bind] at hr ⊢
    cases hr
    exact ⟨input, head?_of_boolean hb, rfl, rfl⟩

end NodeView

namespace Progress

variable {p : Progress} {s : Surroundings} {id : String} {n : PlanNode} {output : NodeOutput}

theorem run_of_turn (h : (p.turn s id n).1 = .completed output) :
    let ran := (p.view id n).run s n.kind (p.plan.machines.get? id)
    p.blocker? n = none ∧ ran.1 = .ok output ∧ (p.turn s id n).2 = ran.2 := by
  cases hb : p.blocker? n
  case some blocker => simp [turn, hb] at h
  case none         =>
    simp only [turn, hb] at h
    cases hr : ((p.view id n).run s n.kind (p.plan.machines.get? id)).1
    case error e => rw [hr] at h; cases h
    case ok o    => rw [hr] at h; cases h; exact ⟨rfl, hr, by simp only [turn, hb]⟩

theorem turn_machine_of_not_completed (h : ∀ output, (p.turn s id n).1 ≠ .completed output) :
    (p.turn s id n).2 = p.plan.machines.get? id := by
  cases hb : p.blocker? n
  case some blocker => simp [turn, hb]
  case none         =>
    simp only [turn, hb] at h ⊢
    cases hr : ((p.view id n).run s n.kind (p.plan.machines.get? id)).1
    case error e => exact NodeView.run_machine_of_error hr
    case ok o    => rw [hr] at h; exact absurd rfl (h o)

theorem turn_machine_of_not_temporal (hk : n.kind.machineKind? = none) :
    (p.turn s id n).2 = p.plan.machines.get? id := by
  rw [turn]
  split
  case h_1 => rfl
  case h_2 => exact NodeView.run_machine_of_not_temporal hk

theorem kind_turn : (p.turn s id n).2.map Machine.kind =
    (p.plan.machines.get? id).map Machine.kind := by
  cases p.turn_machine_cases s id n
  case inl h => rw [h]
  case inr h =>
    have ⟨m, node, input, hm, h⟩ := h
    rw [h, hm, Option.map_some, Option.map_some, Machine.kind_advance]

theorem kinds_step (p : Progress) (s : Surroundings) (id k : String) :
    ((p.step s id).1.plan.machines.get? k).map Machine.kind =
      (p.plan.machines.get? k).map Machine.kind := by
  cases hn : p.plan.nodes.get? id
  case none   => rw [step_of_get?_eq_none hn]
  case some n =>
    rw [get?_machines_step hn]
    split
    case isTrue hk => rw [hk, kind_turn]
    case isFalse   => rfl

-- Even where a tick breaks off, no machine is turned into one of another kind.
theorem kinds_runAll (p : Progress) (s : Surroundings) (ttl : Nat) (services : Services)
    (ids : List String) (k : String) :
    ((p.runAll s ttl services ids).plan.machines.get? k).map Machine.kind =
      (p.plan.machines.get? k).map Machine.kind := by
  induction ids generalizing p services
  case nil            => rfl
  case cons id ids hi =>
    cases hm : (p.step s id).2
    case none   => rw [runAll_of_eq_none hm, hi, kinds_step]
    case some m =>
      rw [runAll_of_changed hm]
      dsimp only
      split
      case isTrue  => rw [hi, kinds_step]
      case isFalse => exact kinds_step p s id k

end Progress

namespace Plan

-- What every tick of a compiled plan can rely on.
structure Intact (p : Plan) : Prop where
  causal : p.Causal
  typed  : p.WellTyped
  kinds  : ∀ id, (p.machines.get? id).map Machine.kind = p.machineKind? id

-- The plan that ticks leave behind.
def after (p : Plan) : List Moment → Plan
  | []           => p
  | m :: moments => (p.tickAt m).plan.after moments

-- The machine has made one observation of the first value that is routed to its node, at the time
-- of the tick, and the node has passed on what came of it.
inductive Observes (now : Instant) (before after : Plan) (id : String) (n : PlanNode)
    (kind : MachineKind) : Prop
  | intro {m : Machine} {input : Bool} (machine : before.machines.get? id = some m)
      (same : m.kind = kind)
      (told : (((after.inputs id).get? kind.port).getD []).head? = some (.bool input))
      (moved : after.machines.get? id =
        some (m.advance n.node input (.ofFloat now.toFloat)).1)
      (result : n.state = .completed (.single "result"
        (.bool (m.advance n.node input (.ofFloat now.toFloat)).2)))

variable {p q : Plan} {id : String} {n : PlanNode} {s : Surroundings} {kind : MachineKind}

theorem Intact.tickAt (h : p.Intact) (m : Moment) : (p.tickAt m).plan.Intact where
  causal   := h.causal.congr (blank_tickAt p m)
  typed    := (sound_tickAt h.typed m).left.typed
  kinds id := by
    have hk := Progress.kinds_runAll { plan := p.reset } m.surroundings m.ttl m.services p.order id
    rw [machineKind?_of_blank_eq (blank_tickAt p m), ←h.kinds]
    exact hk

theorem Intact.after (h : p.Intact) (moments : List Moment) : (p.after moments).Intact := by
  induction moments generalizing p
  case nil               => exact h
  case cons m moments hi => exact hi (h.tickAt m)

-- Whatever a run has been through, the next tick finds an intact plan.
theorem Intact.exists_of_mem_run {moments : List Moment} {t : Ticked} (h : p.Intact)
    (ht : t ∈ p.run moments) : ∃ (q : Plan) (m : Moment), q.blank = p.blank ∧ q.Intact ∧
      t = q.tickAt m :=
  have ⟨q, m, ⟨hb, hq⟩, he⟩ := Plan.exists_of_mem_run
    (motive := fun q => q.blank = p.blank ∧ q.Intact) ⟨rfl, h⟩
    (fun q m hq => ⟨(blank_tickAt q m).trans hq.left, hq.right.tickAt m⟩) ht
  ⟨q, m, hb, hq, he⟩

theorem blank_after (p : Plan) (moments : List Moment) : (p.after moments).blank = p.blank := by
  induction moments generalizing p
  case nil               => rfl
  case cons m moments hi => exact (hi _).trans (blank_tickAt p m)

theorem machineKind?_eq (hn : p.nodes.get? id = some n) :
    p.machineKind? id = n.kind.machineKind? := by
  rw [machineKind?, hn, Option.bind_some]

theorem observes_tick (h : p.Intact) (hn : (p.tick s).plan.nodes.get? id = some n)
    (hk : n.kind.machineKind? = some kind) (hc : (p.tick s).plan.isCompleted id) :
    Observes s.now p (p.tick s).plan id n kind := by
  obtain ⟨_, output, hn', hs⟩ := isCompleted_iff.mp hc
  cases hn.symm.trans hn'
  have ⟨indicators, ht, _, hm⟩ := exists_turn_of_tick h.causal hn
  obtain ⟨_, hr, hm'⟩ := Progress.run_of_turn (ht.symm.trans hs)
  have hkind := h.kinds id
  rw [←machineKind?_of_blank_eq (blank_tick h.causal s), machineKind?_eq hn, hk] at hkind
  obtain ⟨m, hmachine, hkind⟩ := Option.map_eq_some_iff.mp hkind
  simp only [atTurn, hmachine] at hr hm'
  obtain ⟨input, htold, hmoved, hout⟩ := NodeView.exists_advance_of_run hk hr
  exact ⟨hmachine, hkind, htold, hm.trans <| hm'.trans hmoved, hs.trans <| congrArg _ hout⟩

-- Unless its node is one that has a machine and completes, there is nothing to move.
theorem get?_machines_tick (h : p.Intact)
    (hn : ¬((p.tick s).plan.isTemporal id ∧ (p.tick s).plan.isCompleted id)) :
    (p.tick s).plan.machines.get? id = p.machines.get? id := by
  cases hg : (p.tick s).plan.nodes.get? id
  case none   =>
    refine (settling_tick h.causal s).machines id fun hm => ?_
    rw [←order_eq_of_blank_eq (blank_tick h.causal s)] at hm
    have ⟨n, hn⟩ := ((h.causal.congr (blank_tick h.causal s)).mem id).mp hm
    cases hg.symm.trans hn
  case some n =>
    have ⟨indicators, ht, _, hm⟩ := exists_turn_of_tick h.causal hg
    rw [hm]
    by_cases hc : (p.tick s).plan.isCompleted id
    case pos =>
      have hk : n.kind.machineKind? = none := by
        simpa [isTemporal, machineKind?_eq hg, hc] using hn
      exact Progress.turn_machine_of_not_temporal hk
    case neg =>
      refine Progress.turn_machine_of_not_completed fun output ho => hc ?_
      exact isCompleted_iff.mpr ⟨n, output, hg, ht.trans ho⟩

end Plan

theorem Graph.intact_of_compile {g : Graph} {setup : Setup} {services : Services}
    {strategy symbol : String} {p : Plan}
    (hc : (g.compile setup services strategy symbol).1 = .ok p) : p.Intact where
  causal := causal_of_compile hc
  typed  := have ⟨_, _, hw, hi⟩ := exists_implements_of_compile hc
            hi.wellTyped <| wellFormed_hydrate_iff.mpr hw
  kinds  := kinds_of_compile hc

end SignalFlow
