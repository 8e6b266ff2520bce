import SignalFlow.Proofs.Execution.Persistence
import SignalFlow.Proofs.Graph.Draining

/-!
The store has no say in what a plan does. Whatever it answers, and whether it can be reached or not,
the same graphs compile, to plans that differ in nothing but the states of their machines, and each
tick comes to the same. The one thing that a tick takes notice of is a write that never ends.
-/

namespace SignalFlow

-- Whether the call after so many others breaks the tick off, should it be a write.
def Services.breaksOff (services : Services) (ttl k : Nat) : Bool :=
  services.store.any fun l =>
    l.condition (l.calls + k) = .up && (StateStore.deadline? l.now ttl).isNone

-- What one tick comes to, apart from what it leaves in the store.
def Ticked.result (t : Ticked) : Option Outcome × Plan :=
  (t.outcome, t.plan)

namespace Moment

-- The same is met, apart from the stores. They may differ in all that they answer, as long as they
-- would break the tick off at the same writes.
structure Alike (m m' : Moment) : Prop where
  surroundings : m.surroundings = m'.surroundings
  breaksOff    : m.services.breaksOff m.ttl = m'.services.breaksOff m'.ttl

-- Every write comes to an end, be it in vain.
def Steady (m : Moment) : Prop :=
  ∀ l ∈ m.services.store, ∀ k, l.condition (l.calls + k) = .up →
    (StateStore.deadline? l.now m.ttl).isSome

variable {m m' : Moment}

theorem Steady.breaksOff_eq (h : m.Steady) : m.services.breaksOff m.ttl = fun _ => false := by
  funext k
  rw [Services.breaksOff]
  cases hs : m.services.store
  case none   => rfl
  case some l =>
    simp only [Option.any_some, Bool.and_eq_false_iff, decide_eq_false_iff_not,
      Option.isNone_eq_false_iff]
    exact imp_iff_not_or.mp <| h l hs k

theorem Steady.alike (h : m.Steady) (h' : m'.Steady) (hs : m.surroundings = m'.surroundings) :
    m.Alike m' :=
  ⟨hs, by rw [h.breaksOff_eq, h'.breaksOff_eq]⟩

end Moment

namespace Services

variable {services : Services} {ttl : Nat} (key : StateKey) (m : Machine)

theorem fst_storeMachine :
    (services.storeMachine key m ttl).1 = !services.breaksOff ttl 0 := by
  rw [storeMachine, breaksOff]
  cases services.store
  case none   => rfl
  case some l =>
    cases hc : l.condition l.calls <;> cases hd : StateStore.deadline? l.now ttl <;>
      simp [StoreLink.write, StateStore.put?, hc, hd]

theorem breaksOff_storeMachine (k : Nat) :
    (services.storeMachine key m ttl).2.breaksOff ttl k = services.breaksOff ttl (k + 1) := by
  rw [storeMachine]
  cases hs : services.store
  case none   => simp [breaksOff, hs]
  case some l =>
    have hc : l.calls + 1 + k = l.calls + (k + 1) := by omega
    simp [breaksOff, hs, hc]

end Services

namespace Progress

variable {s : Surroundings} {ttl ttl' : Nat} {p : Progress} {services services' : Services}
  {ids : List String}

-- Both ticks make the same writes, so the first of them that breaks the one tick off breaks off the
-- other one as well.
theorem result_runAll_congr (h : services.breaksOff ttl = services'.breaksOff ttl') :
    (p.runAll s ttl services ids).result = (p.runAll s ttl' services' ids).result := by
  induction ids generalizing p services services'
  case nil            => rfl
  case cons id ids hi =>
    cases hm : (p.step s id).2
    case none   => rw [runAll_of_eq_none hm, runAll_of_eq_none hm]; exact hi h
    case some m =>
      have later : (services.storeMachine (p.plan.stateKey id) m ttl).2.breaksOff ttl =
          (services'.storeMachine (p.plan.stateKey id) m ttl').2.breaksOff ttl' := by
        funext k
        rw [Services.breaksOff_storeMachine, Services.breaksOff_storeMachine, h]
      rw [runAll_of_changed hm, runAll_of_changed hm]
      simp only [Services.fst_storeMachine, h]
      split
      case isTrue  => exact hi later
      case isFalse => rfl

end Progress

namespace Plan

variable {p : Plan} {m m' : Moment} {moments moments' : List Moment}

theorem result_tickAt_congr (h : m.Alike m') : (p.tickAt m).result = (p.tickAt m').result := by
  rw [tickAt, h.surroundings]
  exact Progress.result_runAll_congr h.breaksOff

theorem results_run_congr (h : List.Forall₂ Moment.Alike moments moments') :
    (p.run moments).map Ticked.result = (p.run moments').map Ticked.result := by
  induction h generalizing p
  case nil          => rfl
  case cons h _ hi =>
    have hr := result_tickAt_congr (p := p) h
    have hp := congrArg Prod.snd hr
    simp only [Ticked.result] at hp
    rw [run, run, List.map_cons, List.map_cons, hr, hp, hi]

-- A tick with a steady store is one without a store, and that never breaks off.
theorem isSome_outcome_of_steady (h : m.Steady) : (p.tickAt m).outcome.isSome := by
  let bare : Moment := { m with services := {} }
  have hb : bare.Steady := fun l hl => by cases hl
  have hr := congrArg Prod.fst <| result_tickAt_congr (p := p) <| h.alike hb rfl
  simp only [Ticked.result] at hr
  rw [hr]
  exact Progress.isSome_outcome_runAll fun l hl => by cases hl

theorem isSome_outcomes_of_steady (h : ∀ m ∈ moments, m.Steady) :
    ∀ t ∈ p.run moments, t.outcome.isSome := by
  induction moments generalizing p
  case nil => simp [run]
  case cons m moments hi =>
    obtain ⟨hm, h⟩ := List.forall_mem_cons.mp h
    exact List.forall_mem_cons.mpr ⟨isSome_outcome_of_steady hm, hi h⟩

end Plan

namespace StoreLink

-- What the store has for a node is of no use for a machine of that kind.
inductive Unusable (l : StoreLink) (k : Nat) (key : StateKey) (kind : MachineKind) : Prop
  | down (failed : l.condition (l.calls + k) = .down)
  | slow (late : l.condition (l.calls + k) = .slow)
  | garbled (blob : Blob) (found : l.answer k key = some blob) (unreadable : blob.machine? = none)
  | foreign (blob : Blob) (m : Machine) (found : l.answer k key = some blob)
    (read : blob.machine? = some m) (other : m.kind ≠ kind)

theorem Unusable.recover_eq {l : StoreLink} {k : Nat} {key : StateKey} {kind : MachineKind}
    (h : l.Unusable k key kind) : Compile.recover kind (l.answer k key) = .zero kind := by
  cases h
  case down hc              => rw [answer, hc]; rfl
  case slow hc              => rw [answer, hc]; rfl
  case garbled blob hf hu   => rw [hf, Compile.recover, Option.bind_some, hu]
  case foreign blob m hf hr ho =>
    rw [hf, Compile.recover, Option.bind_some, hr]
    exact if_neg ho

end StoreLink

namespace Graph

variable {g : Graph} {setup : Setup} {services : Services} {strategy symbol : String}
  {p : Plan} {l : StoreLink}

theorem kinds_of_compile (hc : (g.compile setup services strategy symbol).1 = .ok p) (id : String) :
    (p.machines.get? id).map Machine.kind = p.machineKind? id := by
  rw [get?_machines_of_compile hc, Option.map_map]
  cases p.machineKind? id
  case none      => rfl
  case some kind => exact congrArg some <| Compile.kind_recover kind _

theorem temporalNodes_of_compile (hc : (g.compile setup services strategy symbol).1 = .ok p) :
    p.temporalNodes = p.order.filter p.isTemporal := by
  refine List.filter_congr fun id _ => ?_
  have hk := congrArg Option.isSome <| kinds_of_compile hc id
  rwa [Option.isSome_map] at hk

theorem error_of_compile {error : CompileError} (services' : Services)
    (hc : (g.compile setup services strategy symbol).1 = .error error) :
    (g.compile setup services' strategy symbol).1 = .error error := by
  simp only [compile] at hc ⊢
  split at hc
  case h_1 => exact hc
  case h_2 =>
    split at hc
    case h_1 => exact hc
    case h_2 => cases hc

-- Of all that can be told from outside, the store has a part in nothing but the states in which the
-- machines start. Where it gives no state of the right kind, a machine starts from scratch.
theorem unaffected_by_store (g : Graph) (setup : Setup) (services services' : Services)
    (strategy symbol : String) :
    let compiled := (g.compile setup services strategy symbol).1
    let compiled' := (g.compile setup services' strategy symbol).1
    (∀ error, compiled = .error error ↔ compiled' = .error error) ∧
    (∀ p, compiled = .ok p → ∃ p', compiled' = .ok p' ∧ p'.bare = p.bare ∧
      ∀ id, (p'.machines.get? id).map Machine.kind = (p.machines.get? id).map Machine.kind) ∧
    (∀ p l, compiled = .ok p → services.store = some l →
      ∀ id kind, p.machineKind? id = some kind →
        l.Unusable (p.temporalNodes.idxOf id) ⟨strategy, symbol, id⟩ kind →
        p.machines.get? id = some (.zero kind)) ∧
    (∀ (p : Plan) moments moments', List.Forall₂ Moment.Alike moments moments' →
      (p.run moments).map Ticked.result = (p.run moments').map Ticked.result) ∧
    (∀ (p : Plan) moments, (∀ m ∈ moments, m.Steady) →
      ∀ t ∈ p.run moments, t.outcome.isSome) := by
  intro compiled compiled'
  refine ⟨fun error => ⟨error_of_compile _, error_of_compile _⟩, ?_, ?_, ?_, ?_⟩
  case refine_1 =>
    intro p hc
    have ⟨p', hc', hb⟩ := exists_compile_bare hc services'
    refine ⟨p', hc', hb, fun id => ?_⟩
    have hk : p'.bare.machineKind? = p.bare.machineKind? := congrArg Plan.machineKind? hb
    have hk : p'.machineKind? = p.machineKind? := hk
    rw [kinds_of_compile hc', kinds_of_compile hc, hk]
  case refine_2 =>
    intro p l hc hs id kind hk hu
    rw [temporalNodes_of_compile hc] at hu
    rw [get?_machines_of_compile hc, hk, hs, Option.map_some, Option.bind_some, hu.recover_eq]
  case refine_3 => exact fun p moments moments' h => Plan.results_run_congr h
  case refine_4 => exact fun p moments h => Plan.isSome_outcomes_of_steady h

theorem order_alarm : alarm.wiring.order = [0, 1, 2, 3, 4] :=
  alarm.wiring.order_eq_iterate_step.trans <| by decide

-- A store that has nothing but a meaningless byte for the machine.
def garbledShelf : StoreLink where
  store := ⟨Dict.empty.insert "strategy_state:alarm:BTC:held" ([9], 3600)⟩

theorem unaffected_by_store_alarm :
    ∃ p p', (alarm.compile {} { store := garbledShelf } "alarm" "BTC").1 = .ok p ∧
      (alarm.compile {} {} "alarm" "BTC").1 = .ok p' ∧ p'.bare = p.bare ∧
      p.machines.get? "held" = some (.zero .duration) ∧
      (p.run [.noon none]).map Ticked.result =
        (p.run [{ Moment.noon none with services := Plan.emptyShelf }]).map Ticked.result := by
  obtain ⟨p, hc, hk⟩ : ∃ p, (alarm.compile {} { store := garbledShelf } "alarm" "BTC").1 = .ok p ∧
      p.machineKind? "held" = some .duration := by
    rw [compile_of_wellFormed supported_alarm wellFormed_alarm]
    simp only [Compile.skeleton, order_hydrate_stamp wellFormed_alarm, order_alarm, bind,
      Except.bind]
    exact ⟨_, rfl, by decide +kernel⟩
  obtain ⟨_, hplans, hmachines, hruns, _⟩ :=
    unaffected_by_store alarm {} { store := garbledShelf } {} "alarm" "BTC"
  obtain ⟨p', hc', hb, _⟩ := hplans p hc
  have found : (garbledShelf.store.get 0 ⟨"alarm", "BTC", "held"⟩).1 = some [9] := by decide
  have alike : (Moment.noon none).Alike { Moment.noon none with services := Plan.emptyShelf } := by
    refine Moment.Steady.alike ?_ ?_ rfl
    · exact fun l hl => by cases hl
    · exact fun l hl k _ => by cases hl; rfl
  refine ⟨p, p', hc, hc', hb, ?_, hruns p _ _ <| .cons alike .nil⟩
  exact hmachines p garbledShelf hc rfl "held" .duration hk <| .garbled [9] found rfl

-- A moment in which the store is asked to keep things for longer than it can tell.
def endless (services : Services) : Moment :=
  { Moment.noon none with ttl := 0xFFFFFFFFFFFFFFFF, services }

theorem breaksOff_alarm :
    ∃ p, (alarm.compile {} Plan.emptyShelf "alarm" "BTC").1 = .ok p ∧
      (p.tickAt (endless {})).outcome.isSome ∧
      (p.tickAt (endless Plan.emptyShelf)).outcome.isNone := by
  rw [compile_of_wellFormed supported_alarm wellFormed_alarm]
  simp only [Compile.skeleton, order_hydrate_stamp wellFormed_alarm, order_alarm, bind, Except.bind]
  exact ⟨_, rfl, by decide +kernel⟩

end Graph

end SignalFlow
