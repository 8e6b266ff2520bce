import Mathlib.Logic.Relation
import SignalFlow.Proofs.Engine.Sessions
import SignalFlow.Proofs.Engine.Tasks

/-!
A call that nobody comes in between of. If tasks go on one after the other, and each of them until
it is through, an engine comes to what it comes to if it is simply called.
-/

namespace SignalFlow

namespace Scene

variable {x : Scene} {s : Session} {id : String}

theorem session?_of_engine (h : x.engine.session? id = some s) : x.session? id = some s := by
  have hf : x.engine.sessions.find? (·.id = id) = some s := h
  rw [session?, sessions, List.find?_append, hf]
  rfl

theorem engine_put_of_absent (h : ∀ t ∈ x.engine.sessions, t.id ≠ s.id) :
    (x.put s).engine = x.engine := by
  have hm : x.engine.sessions.map (fun t => if t.id = s.id then s else t) = x.engine.sessions :=
    (List.map_congr_left fun t ht => if_neg <| h t ht).trans <| List.map_id _
  rw [put, Engine.replaceSession, hm]

theorem session?_put_self {old : Session} (h : x.session? s.id = some old) :
    (x.put s).session? s.id = some s := by
  rw [session?_put, h, Option.map_some, if_pos (session?_some h).right]

end Scene

-- Storing does nothing to the feed.
theorem Services.surroundings_storeMachine {services services' : Services} {key : StateKey}
    {m : Machine} {ttl : Nat} {written : Bool}
    (h : services.storeMachine key m ttl = (written, services')) (config : Config) (now : Instant)
    (snapshot : Snapshot) :
    services'.surroundings config now snapshot = services.surroundings config now snapshot := by
  rw [storeMachine] at h
  split at h <;> cases h <;> rfl

namespace Handling

-- A step of an update that has all sessions for itself.
def Next (a b : Scene × Handling) : Prop :=
  ∃ d, a.2.Moves (· ∉ a.2.held) a.1 d b.1 b.2

def Goes : Scene × Handling → Scene × Handling → Prop :=
  Relation.ReflTransGen Next

variable {x : Scene} {u : IndicatorUpdate} {id : String} {now : Instant} {r : List Errand}
  {s : Session}

theorem next_errand {errand : Errand} {d : Deed} {x' : Scene} {errand? : Option Errand}
    (h : errand.Moves (· ∉ errand.held ++ r.flatMap Errand.held) u.snapshot x d x' errand?) :
    Next (x, .running u (errand :: r)) (x', .running u (errand?.toList ++ r)) :=
  ⟨d, .errand (l := []) h⟩

-- Where an errand comes to that has its tick before it: the tick is there to be recorded, or it
-- broke off and nothing remains of the errand.
def Ticks (x : Scene) (u : IndicatorUpdate) (id : String) (now : Instant) (r : List Errand)
    (t : Ticked) (first : Scene × Handling) : Prop :=
  match t.outcome with
  | some o => Goes first (x.serve t.services, .running u (.ticking id now ⟨t.plan, o⟩ [] :: r))
  | none   => ∀ s, x.session? id = some s →
    Goes first ((x.serve t.services).put { s with plan := t.plan }, .running u r)

theorem Ticks.head {t : Ticked} {a b : Scene × Handling} (hn : Next a b)
    (h : Ticks x u id now r t b) : Ticks x u id now r t a := by
  rw [Ticks] at h ⊢
  split
  case h_1 o ho => rw [ho] at h; exact .head hn h
  case h_2 ho   => rw [ho] at h; exact fun s hs => .head hn (h s hs)

theorem ticks_runAll (p : Progress) (ids : List String) :
    Ticks x u id now r
      (p.runAll (x.surroundings now u.snapshot) x.engine.setup.config.stateTtl x.engine.services
        ids)
      (x, .running u (.ticking id now p ids :: r)) := by
  induction ids generalizing p x
  case nil             => exact .refl
  case cons node ids hi =>
    cases hp : p.step (x.surroundings now u.snapshot) node
    case mk p' m? =>
      cases m?
      case none   =>
        simp only [Progress.runAll, hp]
        exact (hi p').head <| next_errand <| .run hp
      case some m =>
        cases hw : x.engine.services.storeMachine (p.plan.stateKey node) m
          x.engine.setup.config.stateTtl
        case mk written services =>
          simp only [Progress.runAll, hp, hw]
          cases written
          case true  =>
            have h := (hi (x := x.serve services) p').head <| next_errand (r := r) <| .store hp hw
            have feed : (x.serve services).surroundings now u.snapshot =
                x.surroundings now u.snapshot := Services.surroundings_storeMachine hw ..
            rwa [feed] at h
          case false =>
            exact fun s hs => .single <| next_errand <| .breakOff hp hw hs

theorem goes_publish (signals : List Signal)
    (hs : ∃ t, x.session? s.id = some t ∧ t.strategy = s.strategy) :
    Goes (x, .running u (.publishing s.id signals :: r))
      ({ x with engine.bus := Engine.publishSignals x.engine.bus s signals }, .running u r) := by
  induction signals generalizing x
  case nil => exact .single <| next_errand .release
  case cons signal signals hi =>
    have ⟨t, ht, hst⟩ := hs
    have hp : Next (x, .running u (.publishing s.id (signal :: signals) :: r)) _ :=
      next_errand <| .publish ht
    rw [hst] at hp
    exact .head hp <| hi (x := x.publish _) hs

theorem goes_errand {l : List Session} (hs : x.session? s.id = some s) (active : s.active = true) :
    ∃ x', Goes (x, .running u <| (s :: l).map (.due ·.id)) (x', .running u <| l.map (.due ·.id)) ∧
      x'.engine = (x.engine.runSession u.snapshot s).2 ∧
      ∀ id, s.id ≠ id → x'.session? id = x.session? id := by
  have lock : s.id ∉ (Errand.due s.id).held ++ (l.map (Errand.due ·.id)).flatMap Errand.held := by
    simp [Errand.held]
  have begins := next_errand (u := u) <| .begin lock hs active
  have ticks := (ticks_runAll (u := u) (r := l.map (.due ·.id)) { plan := s.plan.reset }
    s.plan.order).head begins
  have run : (x.engine.runSession u.snapshot s).2 =
      let t := s.plan.execute x.engine.setup.config x.engine.services x.engine.clock u.snapshot
      let ran := { s with plan := t.plan }
      Engine.replaceSession
        { x.engine with
          services := t.services
          bus      := Engine.publishSignals x.engine.bus s t.signals }
        (t.outcome.elim ran fun o => ran.recordOutcome o x.engine.clock) := rfl
  rw [Plan.execute, Plan.tickAt, Services.moment] at run
  rw [Ticks, Scene.surroundings] at ticks
  generalize Progress.runAll .. = t at ticks run
  cases ho : t.outcome
  case none   =>
    simp only [Ticked.signals, ho] at ticks run
    exact ⟨_, ticks s hs, run.symm, fun id hi => Scene.session?_put_of_ne hi⟩
  case some o =>
    simp only [Ticked.signals, ho] at ticks run
    have records : Next (x.serve t.services,
        .running u (.ticking s.id x.engine.clock ⟨t.plan, o⟩ [] :: l.map (.due ·.id))) _ :=
      next_errand <| .record hs
    have hc := ({ s with plan := t.plan } : Session).core_recordOutcome o x.engine.clock
    simp only [Session.core, Prod.mk.injEq] at hc
    obtain ⟨hid, hstrategy, _⟩ := hc
    have recorded := Scene.session?_put_self (x := x.serve t.services) <| hid ▸ hs
    have publishes := goes_publish (u := u) (r := l.map (.due ·.id)) o.signals
      ⟨_, hid ▸ recorded, hstrategy⟩
    refine ⟨_, ticks.trans <| .head records publishes, run.symm, fun id hi => ?_⟩
    exact Scene.session?_put_of_ne (x := x.serve t.services) (hid.trans_ne hi)

-- The sessions of an update one after the other.
theorem goes_runTargets {l : List Session} (hn : (l.map Session.id).Nodup)
    (hl : ∀ s ∈ l, x.session? s.id = some s ∧ s.active = true) :
    ∃ x', Goes (x, .running u <| l.map (.due ·.id)) (x', .running u []) ∧
      x'.engine = (x.engine.runTargets u.snapshot l).2 := by
  induction l generalizing x
  case nil         => exact ⟨x, .refl, rfl⟩
  case cons s l hi =>
    have ⟨hs, hn⟩ := List.nodup_cons.mp hn
    have ⟨session, active⟩ := hl s List.mem_cons_self
    have ⟨x', first, engine, others⟩ := goes_errand (u := u) (l := l) session active
    have ⟨x'', rest, hx⟩ := hi (x := x') hn fun t ht => by
      have hne : s.id ≠ t.id := fun h => hs <| h ▸ List.mem_map_of_mem ht
      rw [others t.id hne]
      exact hl t <| List.mem_cons_of_mem _ ht
    exact ⟨x'', first.trans rest, by rw [hx, engine, Engine.runTargets]⟩

theorem goes_collect (present : List String) (found l : List Session)
    (hn : ((found ++ l).map Session.id).Nodup)
    (hl : ∀ s ∈ l, s ∈ x.engine.sessions ∧ s.symbol = u.symbol) :
    Goes (x, .collecting u present <| found.map Session.id)
      (x, .collecting u present <| (found ++ l).map Session.id) := by
  induction l generalizing found
  case nil         => rw [List.append_nil]; exact .refl
  case cons s l hi =>
    have ⟨live, symbol⟩ := hl s List.mem_cons_self
    have new : s.id ∉ found.map Session.id := by
      intro hs
      rw [List.map_append, List.map_cons] at hn
      exact List.disjoint_of_nodup_append hn hs List.mem_cons_self
    rw [List.append_cons] at hn ⊢
    have rest := hi _ hn fun t ht => hl t <| List.mem_cons_of_mem _ ht
    have first : Next (x, .collecting u present (found.map Session.id))
        (x, .collecting u present ((found ++ [s]).map Session.id)) := by
      rw [List.map_append]
      exact ⟨_, .collect live symbol new⟩
    exact .head first rest

-- An update all by itself does what it does if the engine is called with it.
theorem goes_update (h : x.engine.Consistent) (hl : x.engine.Lively) (u : IndicatorUpdate) :
    ∃ x', Goes (x, .first x u) (x', .running u []) ∧ x'.engine = (x.engine.update u).2 := by
  have targets (s : Session) : s ∈ x.engine.targets u ↔
      s ∈ x.engine.sessions ∧ s.symbol = u.symbol := by
    rw [hl.targets_eq, List.mem_filter, decide_eq_true_iff]
  have collects := goes_collect (x.engine.sessions.map Session.id) [] (x.engine.targets u)
    h.nodup_targets fun s hs => (targets s).mp hs
  have spawns : Next (x, .collecting u (x.engine.sessions.map Session.id)
      ((x.engine.targets u).map Session.id)) (x, .running u _) :=
    ⟨_, .spawn fun s hs symbol _ => List.mem_map_of_mem <| (targets s).mpr ⟨hs, symbol⟩⟩
  have ⟨x', runs, hx⟩ := goes_runTargets (x := x) (u := u) h.nodup_targets fun s hs =>
    have ⟨live, _⟩ := (targets s).mp hs
    ⟨Scene.session?_of_engine <| h.session?_eq_some_iff.mpr ⟨live, rfl⟩, hl s live⟩
  rw [List.map_map] at spawns
  exact ⟨x', collects.trans <| .head spawns runs, Engine.update_eq ▸ hx⟩

end Handling

namespace World

theorem last_append {w : World} {steps later : List (Deed × World)} :
    w.last (steps ++ later) = (w.last steps).last later :=
  List.foldl_append

theorem Path.append {kind : World → Deed → World → Prop} {w : World}
    {steps later : List (Deed × World)} (h : Path kind w steps)
    (h' : Path kind (w.last steps) later) : Path kind w (steps ++ later) := by
  induction h
  case nil          => exact h'
  case cons hs _ hi => exact .cons hs <| hi h'

-- Steps of some kind lead from one world to another, with the updates that are told and those that
-- are handled on the way.
inductive Leads (kind : World → Deed → World → Prop) :
    World → List IndicatorUpdate → List IndicatorUpdate → World → Prop
  | refl (w : World) : Leads kind w [] [] w
  | head {w w' w'' : World} {d : Deed} {t h : List IndicatorUpdate} (step : kind w d w')
    (rest : Leads kind w' t h w'') :
    Leads kind w (d.told?.toList ++ t) (d.handled?.toList ++ h) w''

section Leads

variable {kind kind' : World → Deed → World → Prop} {w w' w'' : World} {d : Deed}
  {t t' h h' : List IndicatorUpdate}

theorem Leads.inner (hs : kind w d w') (hd : d.Inner) (hl : Leads kind w' t h w'') :
    Leads kind w t h w'' := by
  have := Leads.head hs hl
  rwa [hd.told, hd.handled] at this

theorem Leads.trans (hl : Leads kind w t h w') (hl' : Leads kind w' t' h' w'') :
    Leads kind w (t ++ t') (h ++ h') w'' := by
  induction hl
  case refl         => exact hl'
  case head hs _ hi =>
    rw [List.append_assoc, List.append_assoc]
    exact .head hs <| hi hl'

theorem Leads.mono (hl : Leads kind w t h w') (hk : ∀ w d w', kind w d w' → kind' w d w') :
    Leads kind' w t h w' := by
  induction hl
  case refl         => exact .refl _
  case head hs _ hi => exact .head (hk _ _ _ hs) hi

theorem Leads.exists_path (hl : Leads kind w t h w') :
    ∃ steps, Path kind w steps ∧ told steps = t ∧ handled steps = h ∧ w.last steps = w' := by
  induction hl
  case refl                  => exact ⟨[], .nil, rfl, rfl, rfl⟩
  case head d t h hs _ hi    =>
    have ⟨steps, path, ht, hh, last⟩ := hi
    refine ⟨(d, _) :: steps, .cons hs path, ?_, ?_, last⟩
    · rw [told, List.filterMap_cons, ←ht]
      cases d.told? <;> rfl
    · rw [handled, List.filterMap_cons, ←hh]
      cases d.handled? <;> rfl

end Leads

-- Worlds in which an update has its place go on with it.
theorem leads_of_goes (place : Scene × Handling → World) {a b : Scene × Handling}
    (works : ∀ a b d, a.2.Moves (· ∉ a.2.held) a.1 d b.1 b.2 → (place a).Works d (place b))
    (hg : Handling.Goes a b) : Leads Works (place a) [] [] (place b) := by
  induction hg using Relation.ReflTransGen.head_induction_on
  case refl              => exact .refl _
  case head a c hn _ hi =>
    have ⟨d, hd⟩ := hn
    exact .inner (works a c d hd) hd.tells.left.inner hi

-- Nothing is under way.
def ofScene (x : Scene) : World :=
  { toScene := x }

theorem works_task {x x' : Scene} {t : Task} {t? : Option Task} {d : Deed}
    (h : t.Moves (· ∉ t.held) x d x' t?) :
    ({ toScene := x, tasks := [t] } : World).Works d { toScene := x', tasks := t?.toList } := by
  have free : ({ toScene := x, tasks := [t] } : World).Free = (· ∉ t.held) := by
    funext id
    simp [Free, jobs]
  have := Works.task (w := { toScene := x, tasks := [t] }) (l := []) (r := []) rfl (free ▸ h)
  rwa [List.append_nil] at this

theorem works_handle {x x' : Scene} {h h' : Handling} {d : Deed}
    (hm : h.Moves (· ∉ h.held) x d x' h') :
    ({ toScene := x, loop := some h } : World).Works d { toScene := x', loop := some h' } := by
  have free : ({ toScene := x, loop := some h } : World).Free = (· ∉ h.held) := by
    funext id
    simp [Free, jobs, Task.held]
  exact .handle rfl (free ▸ hm)

-- A task that is alone goes on.
theorem Leads.task {x x' : Scene} {t : Task} {t? : Option Task} {d : Deed} {w : World}
    (hm : t.Moves (· ∉ t.held) x d x' t?)
    (hl : Leads Works { toScene := x', tasks := t?.toList } [] [] w) :
    Leads Works { toScene := x, tasks := [t] } [] [] w :=
  .inner (works_task hm) hm.tells.inner hl

theorem exists_schedule {x : Scene} (h : x.engine.Consistent) (hl : x.engine.Lively)
    (c : EngineCall) :
    ∃ x', Leads Works ((ofScene x).receive c) [] [] (ofScene x') ∧
      x'.engine = x.engine.call c := by
  cases c
  case start strategy graph symbol =>
    cases hc : graph.compile x.engine.setup x.engine.services strategy symbol
    case mk compiled services =>
      cases compiled
      case error error =>
        refine ⟨x.serve services, .task (.refuse hc) <| .refl _, ?_⟩
        simp only [Engine.call, Engine.start, hc]
        rfl
      case ok plan =>
        refine ⟨_, .task (.compile hc) <| .task .deploy <| .refl _, ?_⟩
        simp only [Engine.call, Engine.start, hc]
        rfl
  case stop id =>
    cases hs : x.engine.session? id
    case none =>
      refine ⟨x, .task (.reject hs) <| .refl _, ?_⟩
      simp only [Engine.call, Engine.stop, hs]
    case some s =>
      obtain ⟨live, hi⟩ := Engine.session?_some hs
      obtain ⟨t, ht⟩ := Scene.exists_session? (x := x.remove s) <|
        List.mem_append_right _ <| List.mem_append_right _ <| List.mem_singleton.mpr rfl
      have hid : t.id = id := hi ▸ (Scene.session?_some ht).right
      refine ⟨_, .task (.remove hs) <| .task (.deactivate List.not_mem_nil <| hi ▸ ht) <|
        .refl _, ?_⟩
      have absent : ∀ r ∈ (x.remove s).engine.sessions, r.id ≠ t.id := fun r hr => by
        simpa [hid, hi] using (List.mem_filter.mp hr).right
      simp only [Engine.call, Engine.stop, hs]
      refine (Scene.engine_put_of_absent (s := { t with active := false }) absent).trans ?_
      rw [Scene.remove, hi]
  case reload id graph =>
    cases hs : x.engine.session? id
    case none =>
      refine ⟨x, .task (.miss hs) <| .refl _, ?_⟩
      simp only [Engine.call, Engine.reload, hs]
    case some s =>
      have session := Scene.session?_of_engine hs
      cases hc : graph.compile x.engine.setup x.engine.services s.strategy s.symbol
      case mk compiled services =>
        cases compiled
        case error error =>
          refine ⟨_, .task (.capture hs) <| .task (.seize List.not_mem_nil) <|
            .task (.keep session hc) <| .refl _, ?_⟩
          simp only [Engine.call, Engine.reload, hs, hc]
          rfl
        case ok plan =>
          refine ⟨_, .task (.capture hs) <| .task (.seize List.not_mem_nil) <|
            .task (.replace session hc) <| .refl _, ?_⟩
          simp only [Engine.call, Engine.reload, hs, hc]
          rfl
  case update u =>
    obtain ⟨x', goes, hx⟩ := Handling.goes_update h hl u
    have leads := leads_of_goes (fun a => { toScene := a.1, tasks := [.update a.2] })
      (fun _ _ _ hm => works_task <| .update hm) goes
    exact ⟨x', leads.trans <| .task .join <| .refl _, hx⟩
  case meanwhile services clock => exact ⟨_, .refl _, rfl⟩

-- Whatever an engine is called with, one call after the other, is one of the ways in which tasks
-- can go on.
theorem exists_leads_after {x : Scene} (h : x.engine.Consistent) (hl : x.engine.Lively)
    (calls : List EngineCall) :
    ∃ x', Leads Step (ofScene x) [] [] (ofScene x') ∧ x'.engine = x.engine.after calls := by
  induction calls generalizing x
  case nil              => exact ⟨x, .refl _, rfl⟩
  case cons c calls hi =>
    have ⟨x', leads, hx⟩ := exists_schedule h hl c
    have ⟨x'', rest, hx'⟩ := hi (hx ▸ h.call c) (hx ▸ h.lively_call hl)
    have first : Leads Step _ [] [] _ := leads.mono fun _ _ _ => .works
    exact ⟨x'', .inner (.call c) Deed.inner_silent <| first.trans rest, hx'.trans <| hx ▸ rfl⟩

-- The loop by itself is through with an update in the end.
theorem exists_leads_handled {x : Scene} (h : x.engine.Consistent) (hl : x.engine.Lively)
    (u : IndicatorUpdate) :
    ∃ x', Leads Works { toScene := x, loop := some (.first x u) } [] [u] (ofScene x') ∧
      x'.engine = (x.engine.update u).2 := by
  have ⟨x', goes, hx⟩ := Handling.goes_update h hl u
  have leads := leads_of_goes (fun a => { toScene := a.1, loop := some a.2 })
    (fun _ _ _ => works_handle) goes
  exact ⟨x', leads.trans <| .head (Works.finish rfl) <| .refl _, hx⟩

end World

end SignalFlow
