import SignalFlow.Proofs.Engine.Names

/-!
Nobody waits for ever. Whoever has a lock can go on, and if nobody has one, everybody can: so an
engine comes to rest only when all calls are through and the loop has nothing before it.
-/

namespace SignalFlow

variable {free : String → Prop} {x : Scene}

theorem Scene.exists_session?_of_mem_ids {id : String} (h : id ∈ x.ids) :
    ∃ s, x.session? id = some s :=
  have ⟨_, hs, hi⟩ := List.mem_map.mp h
  hi ▸ exists_session? hs

theorem Errand.exists_moves {snapshot : Snapshot} {errand : Errand} (known : errand.id ∈ x.ids)
    (lock : errand.held ≠ [] ∨ ∀ id, free id) :
    ∃ d x' errand?, errand.Moves free snapshot x d x' errand? := by
  have ⟨s, hs⟩ := Scene.exists_session?_of_mem_ids known
  cases errand
  case due id =>
    have lock : free id := lock.elim (absurd rfl) (· id)
    cases ha : s.active
    case false => exact ⟨_, _, _, .lapse lock hs ha⟩
    case true  => exact ⟨_, _, _, .begin lock hs ha⟩
  case publishing id signals =>
    cases signals
    case nil  => exact ⟨_, _, _, .release⟩
    case cons => exact ⟨_, _, _, .publish hs⟩
  case ticking id now p rest =>
    cases rest
    case nil            => exact ⟨_, _, _, .record hs⟩
    case cons node rest =>
      cases hp : p.step (x.surroundings now snapshot) node
      case mk p' m? =>
        cases m?
        case none   => exact ⟨_, _, _, .run hp⟩
        case some m =>
          cases hw : x.engine.services.storeMachine (p.plan.stateKey node) m
            x.engine.setup.config.stateTtl
          case mk written services =>
            cases written
            case true  => exact ⟨_, _, _, .store hp hw⟩
            case false => exact ⟨_, _, _, .breakOff hp hw hs⟩

theorem Handling.exists_moves {h : Handling} (known : ∀ id ∈ h.ids, id ∈ x.ids)
    (lock : h.held ≠ [] ∨ ∀ id, free id) :
    (∃ d x' h', h.Moves free x d x' h') ∨ ∃ u, h = .running u [] := by
  cases h
  case collecting u present found =>
    by_cases all : ∀ s ∈ x.engine.sessions, s.symbol = u.symbol → s.id ∈ present → s.id ∈ found
    case pos => exact .inl ⟨_, _, _, .spawn all⟩
    case neg =>
      simp only [not_forall] at all
      have ⟨s, live, symbol, _, new⟩ := all
      exact .inl ⟨_, _, _, .collect live symbol new⟩
  case running u errands =>
    cases errands
    case nil                  => exact .inr ⟨u, rfl⟩
    case cons errand errands =>
      have goes (e) (he : e ∈ errand :: errands) (lock : e.held ≠ [] ∨ ∀ id, free id) :
          ∃ d x' h', (running u (errand :: errands)).Moves free x d x' h' := by
        have ⟨l, r, hl⟩ := List.append_of_mem he
        have ⟨d, x', e?, hm⟩ : ∃ d x' e?, e.Moves free u.snapshot x d x' e? :=
          e.exists_moves (known e.id <| List.mem_map_of_mem he) lock
        exact hl ▸ ⟨d, x', _, .errand hm⟩
      refine .inl ?_
      cases lock
      case inr lock => exact goes errand List.mem_cons_self (.inr lock)
      case inl lock =>
        have ⟨id, hid⟩ := List.exists_mem_of_ne_nil _ lock
        have ⟨e, he, hid⟩ := List.mem_flatMap.mp hid
        exact goes e he <| .inl <| List.ne_nil_of_mem hid

theorem Task.exists_moves {t : Task} (known : ∀ id ∈ t.ids, id ∈ x.ids)
    (lock : t.held ≠ [] ∨ ∀ id, free id) : ∃ d x' t?, t.Moves free x d x' t? := by
  have any (id) (hid : t.held = []) : free id := lock.elim (absurd hid) (· id)
  cases t
  case update h =>
    cases h.exists_moves known lock
    case inl hm => have ⟨_, _, _, hm⟩ := hm; exact ⟨_, _, _, .update hm⟩
    case inr hu => have ⟨u, hu⟩ := hu; exact hu ▸ ⟨_, _, _, .join⟩
  case start strategy graph symbol =>
    cases hc : graph.compile x.engine.setup x.engine.services strategy symbol
    case mk compiled services =>
      cases compiled
      case error => exact ⟨_, _, _, .refuse hc⟩
      case ok    => exact ⟨_, _, _, .compile hc⟩
  case deploying => exact ⟨_, _, _, .deploy⟩
  case stop id =>
    cases hs : x.engine.session? id
    case none => exact ⟨_, _, _, .reject hs⟩
    case some => exact ⟨_, _, _, .remove hs⟩
  case stopping id =>
    have ⟨s, hs⟩ := Scene.exists_session?_of_mem_ids <| known id <| List.mem_singleton.mpr rfl
    exact ⟨_, _, _, .deactivate (any id rfl) hs⟩
  case reload id graph =>
    cases hs : x.engine.session? id
    case none => exact ⟨_, _, _, .miss hs⟩
    case some => exact ⟨_, _, _, .capture hs⟩
  case awaiting id graph => exact ⟨_, _, _, .seize (any id rfl)⟩
  case reloading id graph =>
    have ⟨s, hs⟩ := Scene.exists_session?_of_mem_ids <| known id <| List.mem_singleton.mpr rfl
    cases hc : graph.compile x.engine.setup x.engine.services s.strategy s.symbol
    case mk compiled services =>
      cases compiled
      case error => exact ⟨_, _, _, .keep hs hc⟩
      case ok    => exact ⟨_, _, _, .replace hs hc⟩

namespace World

variable {w : World}

-- Nothing goes on any more by itself.
def AtRest (w : World) : Prop :=
  ∀ d w', ¬w.Works d w'

theorem atRest_of_idle (ht : w.tasks = []) (hl : w.loop = none)
    (hn : w.engine.bus.next? listener = none) : w.AtRest := by
  intro d w' hw
  cases hw
  case task h _           => simp [ht] at h
  case take | pass | lag  => simp_all
  case handle | finish    => simp_all

theorem works_of_job {t : Task} (ht : t ∈ w.jobs) (known : ∀ id ∈ t.ids, id ∈ w.ids)
    (lock : t.held ≠ [] ∨ ∀ id, w.Free id) : ∃ d w', w.Works d w' := by
  cases List.mem_append.mp ht
  case inr ht =>
    have ⟨l, r, hl⟩ := List.append_of_mem ht
    have ⟨_, _, _, hm⟩ := t.exists_moves known lock
    exact ⟨_, _, .task hl hm⟩
  case inl ht =>
    simp only [Option.mem_toList, Option.map_eq_some_iff] at ht
    have ⟨h, hb, ht⟩ := ht
    cases ht
    cases h.exists_moves known lock
    case inl hm => have ⟨_, _, _, hm⟩ := hm; exact ⟨_, _, .handle hb hm⟩
    case inr hu => have ⟨u, hu⟩ := hu; exact ⟨_, _, .finish (hu ▸ hb)⟩

theorem Sound.jobs_eq_nil (h : w.Sound) (hr : w.AtRest) : w.jobs = [] := by
  by_contra hj
  have ⟨t, ht⟩ := List.exists_mem_of_ne_nil _ hj
  have stuck (t) (ht : t ∈ w.jobs) : ¬(t.held ≠ [] ∨ ∀ id, w.Free id) := by
    intro lock
    have ⟨d, w', hw⟩ := works_of_job ht (h.known t ht) lock
    exact hr d w' hw
  refine stuck t ht <| .inr fun id hi => ?_
  have ⟨t', ht', hi⟩ := List.mem_flatMap.mp hi
  exact stuck t' ht' <| .inl <| List.ne_nil_of_mem hi

theorem Sound.backlog_eq_zero (h : w.Sound) (hr : w.AtRest) :
    w.engine.bus.backlog listener = 0 := by
  have hj := h.jobs_eq_nil hr
  have idle : w.loop = none := by simpa [jobs] using (List.append_eq_nil_iff.mp hj).left
  by_contra hb
  obtain ⟨receipt, bus, next⟩ := Bus.exists_next? <| Nat.pos_of_ne_zero hb
  cases receipt
  case lagged count => exact hr _ _ <| .lag idle next
  case event event  =>
    cases event
    case indicatorUpdated u      => exact hr _ _ <| .take idle next
    case signalGenerated notice => exact hr _ _ <| .pass idle next

end World

end SignalFlow
