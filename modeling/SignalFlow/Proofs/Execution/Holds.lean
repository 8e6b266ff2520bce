import SignalFlow.Proofs.Execution.Observations
import SignalFlow.Proofs.Temporal.Hold
import SignalFlow.Proofs.Temporal.Stamp

/-!
What stands behind a condition that claims to have held for long enough. Its machine has been told
the truth at both ends of that time and nothing false in between, but perhaps nothing at all: a tick
that skips the node is no tick to the machine.
-/

namespace SignalFlow

-- The time of a tick as machines read it.
def Moment.time (m : Moment) : Stamp :=
  .ofFloat m.surroundings.now.toFloat

theorem NodeOutput.single_bool_inj {port : String} {a b : Bool} :
    single port (.bool a) = single port (.bool b) ↔ a = b := by
  constructor
  case mp  => exact fun h => by simpa [single] using congrArg (·.values.get? port) h
  case mpr => exact fun h => h ▸ rfl

namespace Plan

-- What the tick told a node whose condition has to hold for a while, if it came to tell it.
def told? (p : Plan) (id : String) : Option Bool :=
  if p.isCompleted id then
    (((p.inputs id).get? MachineKind.duration.port).getD []).head?.bind Value.bool?
  else none

-- What the ticks of a run told it, one after the other.
def sightings (p : Plan) (id : String) : List Moment → List (Option Bool × Stamp)
  | []           => []
  | m :: moments =>
    let after := (p.tickAt m).plan
    (after.told? id, m.time) :: after.sightings id moments

-- The node says that its condition has held for long enough.
def Claims (p : Plan) (id : String) : Prop :=
  ∃ n, p.nodes.get? id = some n ∧ n.state = .completed (.single "result" (.bool true))

-- The node waits for its condition to hold for a while, and starts over when it does not.
structure Watches (p : Plan) (id : String) (rule : Hold.Rule Stamp) : Prop where
  node   : ∃ n, p.nodes.get? id = some n ∧ n.kind = .condition .duration ∧ rule = .ofNode n.node
  resets : rule.resetOnFalse

-- The machine sees what its node is told, and the node claims what the machine makes of it. Where
-- there was nothing to tell, the node was skipped.
structure Sees (after : Plan) (id : String) (rule : Hold.Rule Stamp) (s : Hold.State Stamp)
    (now : Stamp) : Prop where
  machine : after.machines.get? id = some (.duration <| s.pass rule (after.told? id, now))
  claims  : after.Claims id ↔
    ∃ input, after.told? id = some input ∧ (s.update rule input now).2 = true
  skipped : after.told? id = none ↔ after.WasSkipped id

variable {p q : Plan} {id : String} {m : Moment} {moments : List Moment} {rule : Hold.Rule Stamp}
  {s : Hold.State Stamp} {start : Option Stamp}

theorem sightings_concat : p.sightings id (moments ++ [m]) =
    p.sightings id moments ++ [(((p.after moments).tickAt m).plan.told? id, m.time)] := by
  induction moments generalizing p
  case nil               => rfl
  case cons m moments hi => rw [List.cons_append, sightings, hi]; rfl

theorem run_concat : p.run (moments ++ [m]) = p.run moments ++ [(p.after moments).tickAt m] := by
  induction moments generalizing p
  case nil               => rfl
  case cons m moments hi => rw [List.cons_append, run, hi]; rfl

theorem map_fst_sightings :
    (p.sightings id moments).map Prod.fst = (p.run moments).map (·.plan.told? id) := by
  induction moments generalizing p
  case nil               => rfl
  case cons m moments hi => rw [sightings, List.map_cons, hi]; rfl

theorem Claims.isCompleted (h : p.Claims id) : p.isCompleted id :=
  have ⟨n, hn, hs⟩ := h
  isCompleted_iff.mpr ⟨n, _, hn, hs⟩

namespace Watches

theorem congr (h : p.Watches id rule) (hb : q.blank = p.blank) : q.Watches id rule := by
  have ⟨n, hn, hk, hr⟩ := h.node
  have ⟨n', hn', hk', hnode, _⟩ := exists_alike_of_blank_eq hb.symm hn
  exact ⟨⟨n', hn', hk'.trans hk, hnode ▸ hr⟩, h.resets⟩

theorem sees_tick (h : p.Watches id rule) (hp : p.Intact)
    (hm : p.machines.get? id = some (.duration s)) (around : Surroundings)
    (hs : (p.tick around).plan.Sound) :
    (p.tick around).plan.Sees id rule s (.ofFloat around.now.toFloat) := by
  have ⟨n, hn, hk, hr⟩ := (h.congr (blank_tick hp.causal around)).node
  by_cases hc : (p.tick around).plan.isCompleted id
  case pos =>
    have hkind : n.kind.machineKind? = some .duration := hk ▸ rfl
    cases observes_tick hp hn hkind hc
    case intro machine input hmachine same told moved result =>
      cases hm.symm.trans hmachine
      have told : (p.tick around).plan.told? id = some input := by
        rw [told?, if_pos hc, told]
        rfl
      rw [hr]
      constructor
      case machine => rw [told, moved]; rfl
      case claims  =>
        simp only [Claims, hn, told, Option.some.injEq, exists_eq_left', result,
          NodeState.completed.injEq, NodeOutput.single_bool_inj]
        rfl
      case skipped =>
        exact iff_of_false (by simp [told]) fun hskipped => hskipped.not_isCompleted hc
  case neg =>
    have told : (p.tick around).plan.told? id = none := if_neg hc
    constructor
    case machine => rw [told, get?_machines_tick hp fun h => hc h.right, hm]; rfl
    case claims  => exact iff_of_false (fun hclaims => hc hclaims.isCompleted) (by simp [told])
    case skipped =>
      refine iff_of_true told ?_
      cases ended_tick hp.causal hn
      case blocked hstate _ _ _    => exact ⟨n, _, hn, hstate⟩
      case ran result hstate _     =>
        cases result
        case ok output   => exact absurd (isCompleted_iff.mpr ⟨n, output, hn, hstate⟩) hc
        case error error =>
          -- A condition that gets its turn does not fail.
          have hfails := hs.states id n hn
          rw [hstate, hk] at hfails
          cases hfails

theorem sees_tickAt (h : p.Watches id rule) (hp : p.Intact)
    (hm : p.machines.get? id = some (.duration s)) (ho : (p.tickAt m).outcome.isSome) :
    (p.tickAt m).plan.Sees id rule s m.time := by
  have ⟨o, ho⟩ := Option.isSome_iff_exists.mp ho
  have ht := h.sees_tick hp hm m.surroundings
  rw [tick_eq_of_tickAt ho] at ht
  exact ht (sound_tickAt hp.typed m).left

-- Through a run, the machine keeps track of since when the condition holds.
theorem tracks_after (h : p.Watches id rule) (hp : p.Intact)
    (hm : p.machines.get? id = some (.duration s)) (ht : Hold.Tracks start s)
    (ho : ∀ t ∈ p.run moments, t.outcome.isSome) :
    (∀ t ∈ p.run moments, t.plan.told? id = none ↔ t.plan.WasSkipped id) ∧
    ∃ s', (p.after moments).machines.get? id = some (.duration s') ∧
      Hold.Tracks ((p.sightings id moments).foldl Hold.resume start) s' := by
  induction moments generalizing p s start
  case nil               => exact ⟨nofun, s, hm, ht⟩
  case cons m moments hi =>
    have ⟨hom, ho⟩ := List.forall_mem_cons.mp ho
    have hsees := h.sees_tickAt hp hm hom
    have ht : Hold.Tracks (Hold.resume start ((p.tickAt m).plan.told? id, m.time)) _ :=
      ht.pass h.resets <| Stamp.sub_zero_ofFloat _
    have ⟨hskipped, hs⟩ := hi (h.congr (blank_tickAt p m)) (hp.tickAt m) hsees.machine ht ho
    exact ⟨List.forall_mem_cons.mpr ⟨hsees.skipped, hskipped⟩, hs⟩

end Watches

-- What is behind a claim in the last tick of a run. The hold began long enough ago, and nothing
-- false was told since. A tick that told nothing skipped the node, and without such ticks the hold
-- was seen all the time.
structure Warranted (p : Plan) (id : String) (rule : Hold.Rule Stamp) (moments : List Moment)
    (m : Moment) : Prop where
  claims  : ((p.after moments).tickAt m).plan.Claims id ↔
    ((p.after moments).tickAt m).plan.told? id = some true ∧
      ∃ first, Hold.BeganAt (p.sightings id (moments ++ [m])) first ∧
        rule.duration ≤ Hold.span first m.time
  skipped : ∀ t ∈ p.run (moments ++ [m]), t.plan.told? id = none ↔ t.plan.WasSkipped id
  seen    : (∀ t ∈ p.run (moments ++ [m]), ¬t.plan.WasSkipped id) →
    ((p.after moments).tickAt m).plan.Claims id →
      ∃ first, Hold.Unbroken (p.sightings id (moments ++ [m])) first ∧
        rule.duration ≤ Hold.span first m.time

theorem Watches.claims_iff (h : p.Watches id rule) (hp : p.Intact)
    (hz : p.machines.get? id = some (.zero .duration))
    (ho : ∀ t ∈ p.run (moments ++ [m]), t.outcome.isSome) :
    ((p.after moments).tickAt m).plan.Claims id ↔
      ((p.after moments).tickAt m).plan.told? id = some true ∧
        ∃ first, Hold.BeganAt (p.sightings id (moments ++ [m])) first ∧
          rule.duration ≤ Hold.span first m.time := by
  rw [run_concat, List.forall_mem_append] at ho
  have ⟨_, s, hm, ht⟩ := h.tracks_after hp hz .idle ho.left
  have hsees := (h.congr (blank_after p moments)).sees_tickAt (hp.after moments) hm <|
    ho.right _ (.head _)
  have fires input : (s.update rule input m.time).2 = true ↔ _ :=
    ht.fires_iff <| Stamp.sub_self_ofFloat m.surroundings.now.toFloat
  rw [hsees.claims, sightings_concat]
  constructor
  case mp  =>
    intro ⟨input, htold, hfires⟩
    obtain ⟨rfl, hd⟩ := (fires input).mp hfires
    exact ⟨htold, htold ▸ Hold.exists_beganAt_concat_iff.mpr hd⟩
  case mpr =>
    intro ⟨htold, hbegan⟩
    rw [htold] at hbegan
    exact ⟨true, htold, (fires true).mpr ⟨rfl, Hold.exists_beganAt_concat_iff.mp hbegan⟩⟩

theorem Watches.warranted (h : p.Watches id rule) (hp : p.Intact)
    (hz : p.machines.get? id = some (.zero .duration))
    (ho : ∀ t ∈ p.run (moments ++ [m]), t.outcome.isSome) : p.Warranted id rule moments m := by
  have claims := h.claims_iff hp hz ho
  have skipped := (h.tracks_after hp hz .idle ho).left
  refine ⟨claims, skipped, fun hn hclaims => ?_⟩
  have ⟨_, first, hbegan, hd⟩ := claims.mp hclaims
  refine ⟨first, hbegan.unbroken fun tick htick hnone => ?_, hd⟩
  have hm := List.mem_map_of_mem (f := Prod.fst) htick
  rw [map_fst_sightings] at hm
  have ⟨t, ht, htold⟩ := List.mem_map.mp hm
  exact hn t ht <| (skipped t ht).mp <| htold.trans hnone

end Plan

namespace Graph

-- The alarm for those who wait for a minute before they buy.
def patience : Graph where
  name  := "patience"
  nodes := alarm.nodes.map fun n => if n.id = "held" then { n with parameters := ∅ } else n
  edges := alarm.edges

theorem wellFormed_patience : patience.WellFormed := by
  apply wellFormed_of_rank fun id => ["price", "above", "held", "buy", "note"].idxOf id
  case nonempty   => decide
  case resolved   => unfold Resolved; decide
  case ascend     => decide
  case structural => decide
  case nodes      => decide +kernel
  case edges      => decide

theorem supported_patience : patience.Supported :=
  fun _ hv => by cases hv

theorem order_patience : patience.wiring.order = [0, 1, 2, 3, 4] :=
  patience.wiring.order_eq_iterate_step.trans <| by decide

end Graph

namespace Plan

-- The price is high, half a minute later it is not known, and after a minute it is high again.
def outage : List Moment :=
  [.noon none,
    { blackout with surroundings := { blackout.surroundings with now := ⟨1700000030, 0⟩ } }]

def recovery : Moment :=
  { Moment.noon none with
    surroundings := { (Moment.noon none).surroundings with now := ⟨1700000060, 0⟩ } }

theorem exists_compile_patience :
    ∃ p, (Graph.patience.compile {} {} "patience" "BTC").1 = .ok p ∧
      p.Watches "held" ⟨60, true⟩ ∧ p.machines.get? "held" = some (.zero .duration) ∧
      (∀ t ∈ p.run (outage ++ [recovery]), t.outcome.isSome) ∧
      p.sightings "held" (outage ++ [recovery]) =
        [(some true, 1700000000), (none, 1700000030), (some true, 1700000060)] := by
  have watches {p : Plan} (h : (p.nodes.get? "held").map
      (fun n => (n.kind, Hold.Rule.ofNode n.node)) = some (.condition .duration, ⟨60, true⟩)) :
      p.Watches "held" ⟨60, true⟩ := by
    obtain ⟨n, hn, he⟩ := Option.map_eq_some_iff.mp h
    have ⟨hk, hr⟩ := Prod.mk.inj he
    exact ⟨⟨n, hn, hk, hr.symm⟩, rfl⟩
  rw [Graph.compile_of_wellFormed Graph.supported_patience Graph.wellFormed_patience]
  simp only [Compile.skeleton, Graph.order_hydrate_stamp Graph.wellFormed_patience,
    Graph.order_patience, bind, Except.bind]
  exact ⟨_, rfl, watches (by decide +kernel), by decide +kernel⟩

variable {p : Plan} {g : Graph} {setup : Setup} {services : Services} {strategy symbol id : String}
  {rule : Hold.Rule Stamp} {moments : List Moment} {m : Moment}

-- A hold that a compiled plan claims is one that it has not seen end. Where it was out of sight in
-- between, the claim says more than what has been seen.
theorem warranted_of_compile (hc : (g.compile setup services strategy symbol).1 = .ok p)
    (h : p.Watches id rule) (hz : p.machines.get? id = some (.zero .duration))
    (ho : ∀ t ∈ p.run (moments ++ [m]), t.outcome.isSome) : p.Warranted id rule moments m :=
  h.warranted (Graph.intact_of_compile hc) hz ho

theorem warranted_patience :
    ∃ p, (Graph.patience.compile {} {} "patience" "BTC").1 = .ok p ∧
      p.Watches "held" ⟨60, true⟩ ∧ p.Warranted "held" ⟨60, true⟩ outage recovery := by
  have ⟨p, hc, hw, hz, ho, _⟩ := exists_compile_patience
  exact ⟨p, hc, hw, warranted_of_compile hc hw hz ho⟩

-- The claim of a minute that was seen at its ends only.
theorem exists_unseen_hold :
    ∃ p, (Graph.patience.compile {} {} "patience" "BTC").1 = .ok p ∧
      p.Watches "held" ⟨60, true⟩ ∧ p.machines.get? "held" = some (.zero .duration) ∧
      ((outage ++ [recovery]).map Moment.time).Pairwise (· ≤ ·) ∧
      ((p.after outage).tickAt recovery).plan.Claims "held" ∧
      ¬∃ first, Hold.Unbroken (p.sightings "held" (outage ++ [recovery])) first ∧
        60 ≤ Hold.span first recovery.time := by
  have ⟨p, hc, hw, hz, ho, hs⟩ := exists_compile_patience
  have hseen : p.sightings "held" (outage ++ [recovery]) =
      [(some true, 1700000000)] ++ [(none, 1700000030)] ++ [(some true, 1700000060)] := hs
  have hend : ((p.after outage).tickAt recovery).plan.told? "held" = some true := by
    have ⟨_, he⟩ := List.append_inj' (sightings_concat.symm.trans hseen) rfl
    exact congrArg Prod.fst <| List.singleton_inj.mp he
  refine ⟨p, hc, hw, hz, by decide +kernel, ?_, ?_⟩
  · refine (hw.claims_iff (Graph.intact_of_compile hc) hz ho).mpr ⟨hend, 1700000000, ?_, ?_⟩
    · rw [hs, ←Hold.since_eq_some_iff]
      rfl
    · decide +kernel
  · intro ⟨first, hu, hd⟩
    rw [hseen, Hold.unbroken_concat, Hold.unbroken_concat] at hu
    cases hu
    case inl hu =>
      have ⟨_, he⟩ := Prod.mk.inj hu
      rw [←he] at hd
      exact absurd hd (by decide +kernel)
    case inr hu =>
      -- The tick in between has not seen anything.
      have ⟨hu, _⟩ := hu
      cases hu
      case inl hu => cases (Prod.mk.inj hu).left
      case inr hu => cases hu.right

end Plan

end SignalFlow
