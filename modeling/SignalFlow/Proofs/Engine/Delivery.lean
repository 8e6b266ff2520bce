import SignalFlow.Proofs.Engine.Careers
import SignalFlow.Proofs.Engine.Liveness
import SignalFlow.Proofs.Engine.Rest
import SignalFlow.Proofs.Engine.Schedules

/-!
What becomes of the updates that an engine is told. The loop takes them in order, and sooner or
later it is through with all that have reached it. But what sessions emit in the meantime goes
through the same bus, and may push out updates that nobody has seen yet.
-/

namespace SignalFlow

namespace World

variable {w : World} {steps : List (Deed × World)}

section Alarm

-- A session runs that gives two signals if the price rises, and two updates wait for the loop. The
-- first one is such a rise.
structure Poised (x : Scene) (room : Nat) (v : IndicatorUpdate) : Prop where
  consistent : x.engine.Consistent
  lively     : x.engine.Lively
  roster     : x.engine.roster = [(Engine.sessionId 1, "alarm", "BTC")]
  stands     : x.engine.bus.Stands listener room [.indicatorUpdated .rise, .indicatorUpdated v] 2
  published  : x.engine.bus.published = 2
  emits      : ∀ bus, ∃ a b, (Engine.update { x.engine with bus } .rise).2.bus =
    (bus.publish (.signalGenerated a)).publish (.signalGenerated b)

theorem exists_poised (capacity : Nat) (room : 2 ≤ (max 1 capacity).nextPowerOfTwo)
    (v : IndicatorUpdate) :
    ∃ x, Leads Step (new { config := { eventCapacity := capacity } } {} .epoch) [.rise, v] []
      (ofScene x) ∧ Poised x (max 1 capacity).nextPowerOfTwo v := by
  obtain ⟨plan, compiled, signals⟩ := Graph.exists_plan_alarm capacity
  let x : Scene := (new { config := { eventCapacity := capacity } } {} .epoch).toScene
  let s : Session :=
    .new (Engine.sessionId 1) "alarm" Graph.alarm (plan "BTC") { eventCapacity := capacity }
  have symbol : s.symbol = "BTC" := (compiled "BTC").right
  have consistent : x.engine.Consistent := ⟨.nil, nofun, nofun⟩
  obtain ⟨x₁, starts, hx⟩ := exists_schedule consistent nofun (.start "alarm" Graph.alarm "BTC")
  have engine : x₁.engine = { x.engine with services := {}, sessions := [s], started := 1 } :=
    hx.trans (Engine.opens?_of_compile (e := x.engine) (compiled "BTC").left).right
  let twice : Bus Event :=
    (x₁.engine.bus.publish <| .indicatorUpdated .rise).publish <| .indicatorUpdated v
  have tells : Leads Step (ofScene x₁) _ _ (ofScene { x₁ with engine.bus := twice }) :=
    .head (.tell <| .indicatorUpdated .rise) <| .head (.tell <| .indicatorUpdated v) <| .refl _
  have leads : Leads Step (ofScene x) _ _ (ofScene { x₁ with engine.bus := twice }) :=
    .inner (.call _) Deed.inner_silent <| (starts.mono fun _ _ _ => .works).trans tells
  refine ⟨_, leads, ?_⟩
  have empty : x₁.engine.bus.Stands listener (max 1 capacity).nextPowerOfTwo [] 0 :=
    engine ▸ stands_new { config := { eventCapacity := capacity } } {} .epoch
  have first := empty.publish_of_lt (by omega) (.indicatorUpdated .rise)
  have consistent₁ : x₁.engine.Consistent := hx ▸ consistent.call _
  have lively₁ : x₁.engine.Lively := hx ▸ consistent.lively_call nofun
  constructor
  case consistent => exact consistent₁.congr <| consistent₁.keeps_of_eq rfl rfl
  case lively     => exact lively₁
  case roster     => rw [engine, Engine.roster, List.map_singleton, Session.deployment, symbol]; rfl
  case stands     => exact first.publish_of_lt (by omega) _
  case published  =>
    rw [first.published_publish, empty.published_publish, engine]
    rfl
  case emits      =>
    intro bus
    obtain ⟨o, ho, hl⟩ := Option.map_eq_some_iff.mp signals
    obtain ⟨a, b, hab⟩ := List.length_eq_two.mp hl
    have targets : Engine.targets { x₁.engine with bus } .rise = [s] := by
      rw [engine]
      exact List.filter_cons_of_pos <| by simp [symbol, IndicatorUpdate.rise]; rfl
    have emits : ((plan "BTC").execute { eventCapacity := capacity } {} .epoch
        IndicatorUpdate.rise.snapshot).signals = [a, b] := by
      rw [Ticked.signals, ho]
      exact hab
    have published := Engine.bus_update_of_targets targets
    rw [engine] at published ⊢
    exact ⟨_, _, published.trans <| congrArg (Engine.publishSignals bus s) emits⟩

-- The loop is through with the first update, and the signals are behind the second one.
theorem Poised.exists_leads {x : Scene} {room : Nat} {v : IndicatorUpdate} (h : Poised x room v)
    (hr : 2 ≤ room) :
    ∃ (x' : Scene) (bus : Bus Event) (a b : SignalNotice),
      Leads Works (ofScene x) [] [.rise] (ofScene x') ∧
      x'.engine.Consistent ∧ x'.engine.Lively ∧ x'.engine.roster = x.engine.roster ∧
      bus.Stands listener room [.indicatorUpdated v] 1 ∧ bus.published = 2 ∧
      x'.engine.bus = (bus.publish (.signalGenerated a)).publish (.signalGenerated b) := by
  obtain ⟨bus, next, stands, published⟩ := h.stands.next hr
  have consistent : Engine.Consistent { x.engine with bus } :=
    h.consistent.congr <| h.consistent.keeps_of_eq rfl rfl
  obtain ⟨x', handles, hx⟩ := exists_leads_handled (x := { x with engine.bus := bus }) consistent
    h.lively .rise
  obtain ⟨a, b, emits⟩ := h.emits bus
  have keeps := consistent.keeps_update .rise
  have lively := consistent.lively_call (c := .update .rise) h.lively
  exact ⟨x', bus, a, b, .head (Works.take rfl next) handles, hx ▸ consistent.congr keeps,
    hx ▸ lively, hx ▸ keeps.roster, stands, published.trans h.published,
    (congrArg Engine.bus hx).trans emits⟩

-- The signals that wait are passed one after the other.
theorem exists_leads_passed {x : Scene} {room : Nat} {l : List SignalNotice}
    (hb : x.engine.bus.Stands listener room (l.map .signalGenerated) l.length)
    (hr : l.length ≤ room) :
    ∃ bus, Leads Works (ofScene x) [] [] (ofScene { x with engine.bus := bus }) ∧
      (ofScene { x with engine.bus := bus }).AtRest ∧
      bus.published = x.engine.bus.published := by
  induction l generalizing x
  case nil         =>
    exact ⟨x.engine.bus, .refl _, atRest_of_idle rfl rfl hb.next?_eq_none, rfl⟩
  case cons a l hi =>
    obtain ⟨bus, passes, stands, published⟩ := hb.next hr
    obtain ⟨bus', leads, rest, still⟩ := hi (x := { x with engine.bus := bus }) stands <|
      Nat.le_of_succ_le hr
    exact ⟨bus', .head (Works.pass rfl passes) leads, rest, still.trans published⟩

-- Nobody runs for the update that waits, and the signals behind it are passed.
theorem exists_leads_idle {x : Scene} {room : Nat} {v : IndicatorUpdate} {l : List SignalNotice}
    (h : x.engine.Consistent) (hl : x.engine.Lively) (ht : x.engine.targets v = [])
    (hb : x.engine.bus.Stands listener room (.indicatorUpdated v :: l.map .signalGenerated)
      (l.length + 1))
    (hr : l.length < room) :
    ∃ x', Leads Works (ofScene x) [] [v] (ofScene x') ∧ (ofScene x').AtRest ∧
      x'.engine.bus.published = x.engine.bus.published := by
  obtain ⟨bus, takes, stands, published⟩ := hb.next hr
  obtain ⟨x', idles, hx⟩ := exists_leads_handled (x := { x with engine.bus := bus })
    (h.congr <| h.keeps_of_eq rfl rfl) hl v
  have targets : Engine.targets { x.engine with bus } v = [] := ht
  rw [Engine.update_eq, targets] at hx
  have same : x'.engine.bus = bus := congrArg Engine.bus hx
  obtain ⟨bus', passes, rest, still⟩ := exists_leads_passed (same ▸ stands) (Nat.le_of_lt hr)
  exact ⟨_, .head (Works.take rfl takes) <| idles.trans passes, rest,
    still.trans <| same ▸ published⟩

end Alarm

-- The loop handles updates in the order in which they are told, and none of them twice. An engine
-- that nothing more comes to comes to rest, and if never more events have been before the loop than
-- there is room for, be they updates or signals, then it has handled all of them.
theorem handled_in_order (setup : Setup) (services : Services) (clock : Instant)
    (h : Path Step (new setup services clock) steps) :
    let w := (new setup services clock).last steps
    (handled steps ++ (w.underway ++ w.waiting)).Sublist (told steps) ∧ w.Halts ∧
    ((∀ step ∈ steps, step.2.backlog ≤ (max 1 setup.config.eventCapacity).nextPowerOfTwo) →
      told steps = handled steps ++ (w.underway ++ w.waiting) ∧
        (w.AtRest → told steps = handled steps)) := by
  intro w
  have ⟨listens, _, order, all⟩ := (listens_new setup services clock).path h
  have first : (new setup services clock).underway ++ (new setup services clock).waiting = [] := rfl
  rw [first, List.nil_append] at order all
  refine ⟨order, listens.halts, fun room => ⟨(all room).symm, fun rest => ?_⟩⟩
  have sound := (sound_new setup services clock).last h
  have underway : w.underway = [] := by
    have hj := sound.jobs_eq_nil rest
    simpa [World.underway, jobs] using (List.append_eq_nil_iff.mp hj).left
  have waiting : w.waiting = [] := by
    rw [World.waiting, Bus.pending_eq, sound.backlog_eq_zero rest]
    simp [Bus.newest]
  have total : told steps = handled steps ++ (w.underway ++ w.waiting) := (all room).symm
  simpa [underway, waiting] using total

-- An update on a symbol that no session runs for.
def quiet : IndicatorUpdate where
  symbol := "ETH"

theorem handled_in_order_rise : ∃ steps later a b,
    let w := (new {} {} .epoch).last steps
    Path Step (new {} {} .epoch) (steps ++ later) ∧
    w.engine.roster = [(Engine.sessionId 1, "alarm", "BTC")] ∧
    told steps = [.rise, quiet] ∧ handled steps = [.rise] ∧
    w.engine.bus.pending listener =
      [.indicatorUpdated quiet, .signalGenerated a, .signalGenerated b] ∧
    (∀ step ∈ steps ++ later, step.2.backlog ≤ 1024) ∧
    told (steps ++ later) = [.rise, quiet] ∧ handled (steps ++ later) = [.rise, quiet] := by
  have room : (max 1 1024).nextPowerOfTwo = 1024 := by decide +kernel
  obtain ⟨x, tells, poised⟩ := exists_poised 1024 (by omega) quiet
  rw [room] at poised
  obtain ⟨x₁, bus, a, b, handles, consistent, lively, roster, stands, published, emits⟩ :=
    poised.exists_leads (by decide)
  rw [poised.roster] at roster
  have one := stands.publish_of_lt (by decide) (.signalGenerated a)
  have both : x₁.engine.bus.Stands listener 1024
      [.indicatorUpdated quiet, .signalGenerated a, .signalGenerated b] 3 :=
    emits ▸ one.publish_of_lt (by decide) _
  have four : x₁.engine.bus.published = 4 := by
    rw [emits, one.published_publish, stands.published_publish, published]
  have targets : x₁.engine.targets quiet = [] := by
    refine List.filter_eq_nil_iff.mpr fun s hs => ?_
    have hr : (s.id, s.deployment) ∈ x₁.engine.roster := List.mem_map_of_mem hs
    rw [roster, List.mem_singleton, Session.deployment, Prod.mk.injEq, Prod.mk.injEq] at hr
    simp [hr, quiet]
  obtain ⟨x₂, idles, rest, still⟩ :=
    exists_leads_idle (l := [a, b]) consistent lively targets both (by simp)
  obtain ⟨steps, path, htold, hhandled, hlast⟩ :=
    (tells.trans <| handles.mono fun _ _ _ => .works).exists_path
  obtain ⟨later, path', htold', _, hlast'⟩ :=
    (idles.mono fun _ _ _ => .works : Leads Step _ _ _ _).exists_path
  have whole : Path Step (new {} {} .epoch) (steps ++ later) := path.append <| hlast ▸ path'
  have ends : (new {} {} .epoch).last (steps ++ later) = ofScene x₂ :=
    last_append.trans <| hlast ▸ hlast'
  have few (step) (hs : step ∈ steps ++ later) : step.2.backlog ≤ 1024 := by
    have most := whole.backlog_le.right step hs
    rw [ends] at most
    exact most.trans <| still.trans_le <| four.trans_le <| by decide
  have all : told (steps ++ later) = [.rise, quiet] := by
    rw [told, List.filterMap_append, ←told, ←told, htold, htold']
    rfl
  have order := handled_in_order {} {} .epoch whole
  have handled := (order.right.right fun step hs => (few step hs).trans room.ge).right <|
    ends ▸ rest
  exact ⟨steps, later, a, b, whole, hlast ▸ roster, htold, hhandled, hlast ▸ both.pending, few, all,
    handled ▸ all⟩

-- A bus with room for two events.
def cramped : Config where
  eventCapacity := 2

-- At no time more updates are told but not handled than the bus has room for, and still the loop
-- never sees the second one.
theorem lost_alarm : ∃ steps, Path Step (new { config := cramped } {} .epoch) steps ∧
    (∀ done, done <+: steps →
      (told done).length ≤ (handled done).length + cramped.eventCapacity) ∧
    ((new { config := cramped } {} .epoch).last steps).AtRest ∧
    told steps = [.rise, .rise] ∧ handled steps = [.rise] := by
  have room : (max 1 2).nextPowerOfTwo = 2 := by decide +kernel
  obtain ⟨x, tells, poised⟩ := exists_poised 2 room.ge .rise
  rw [room] at poised
  obtain ⟨x₁, bus, a, b, handles, _, _, _, stands, _, emits⟩ := poised.exists_leads (Nat.le_refl _)
  have full : x₁.engine.bus.Stands listener 2 [.signalGenerated a, .signalGenerated b] 3 :=
    emits ▸ (stands.publish _).publish _
  obtain ⟨b₁, lags, stands₁⟩ := full.lagged (by decide)
  obtain ⟨bus', passes, rest, _⟩ :=
    exists_leads_passed (x := { x₁ with engine.bus := b₁ }) (l := [a, b]) stands₁ (Nat.le_refl _)
  have drains : Leads Works (ofScene x₁) [] [] _ := .head (Works.lag rfl lags) passes
  have leads := tells.trans <| (handles.trans drains).mono fun _ _ _ => .works
  obtain ⟨steps, path, htold, hhandled, last⟩ := leads.exists_path
  refine ⟨steps, path, fun done hd => ?_, last ▸ rest, htold, hhandled⟩
  have fewer : (told done).length ≤ (told steps).length := (hd.sublist.filterMap _).length_le
  rw [htold] at fewer
  exact fewer.trans <| Nat.le_add_left ..

end World

end SignalFlow
