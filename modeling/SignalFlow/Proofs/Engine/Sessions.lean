import SignalFlow.Proofs.Engine.Deployments
import SignalFlow.Proofs.Execution.Storage

/-!
The live engine as so many plans that are run on their own. Whatever it is called with, each session
comes to what its plan would come to if nothing else were there: it goes through its own reloads and
through a tick for every update on its symbol, one after the other.
-/

namespace SignalFlow

-- The signals of a tick; there are none if it broke off.
def Ticked.signals (t : Ticked) : List Signal :=
  (t.outcome.map Outcome.signals).getD []

-- What a session goes through.
inductive Turn where
  | reload (graph : Graph) (plan : Plan)
  | tick (services : Services) (clock : Instant) (snapshot : Snapshot)

-- The same plan, or the same data at the same time; the stores may differ.
inductive Turn.Alike (config : Config) : Turn → Turn → Prop
  | reload (graph : Graph) (plan : Plan) : Alike config (.reload graph plan) (.reload graph plan)
  | tick {services services' : Services} (clock : Instant) (snapshot : Snapshot)
    (moments : (services.moment config clock snapshot).Alike
      (services'.moment config clock snapshot)) :
    Alike config (.tick services clock snapshot) (.tick services' clock snapshot)

theorem Turn.Alike.refl (config : Config) (turn : Turn) : turn.Alike config turn := by
  cases turn
  case reload => exact .reload ..
  case tick   => exact .tick _ _ ⟨rfl, rfl⟩

namespace Session

variable {s : Session} {config : Config} {turn turn' : Turn} {turns turns' : List Turn}

-- The signals that the session emits in a turn, and the session after it.
def take (s : Session) (config : Config) : Turn → List Signal × Session
  | .reload graph plan             => ([], s.replacePlan graph plan)
  | .tick services clock snapshot =>
    let ran := s.run config services clock snapshot
    (ran.1.signals, ran.2)

-- The session after some turns, in which it is on its own.
def lone (s : Session) (config : Config) (turns : List Turn) : Session :=
  turns.foldl (fun s turn => (s.take config turn).2) s

-- What stays of a session as long as it is live.
def nature (s : Session) : String × String × String × Bool :=
  (s.id, s.strategy, s.symbol, s.active)

theorem nature_take : (s.take config turn).2.nature = s.nature := by
  cases turn
  case reload => rfl
  case tick services clock snapshot =>
    have hc := s.core_run config services clock snapshot
    simp only [core, Prod.mk.injEq] at hc
    simp only [take, nature, hc]

theorem take_congr (h : turn.Alike config turn') : s.take config turn = s.take config turn' := by
  cases h
  case reload                 => rfl
  case tick clock snapshot h =>
    have hr := Plan.result_tickAt_congr (p := s.plan) h
    simp only [Ticked.result, Prod.mk.injEq] at hr
    simp only [take, run, Ticked.signals, Plan.execute, hr]

theorem lone_congr (h : List.Forall₂ (Turn.Alike config) turns turns') :
    s.lone config turns = s.lone config turns' := by
  induction h generalizing s
  case nil          => rfl
  case cons h _ hi =>
    simp only [lone, List.foldl_cons, take_congr h]
    exact hi

theorem lone_append : s.lone config (turns ++ turns') = (s.lone config turns).lone config turns' :=
  List.foldl_append

theorem nature_lone : (s.lone config turns).nature = s.nature :=
  List.foldlRecOn (motive := fun t : Session => t.nature = s.nature) _ _ rfl
    fun _ h _ _ => nature_take.trans h

end Session

namespace Engine

-- Runs sessions one after the other, and gives all signals that they emit.
def runTargets (e : Engine) (snapshot : Snapshot) : List Session → List Signal × Engine
  | []     => ([], e)
  | s :: l =>
    let ran  := e.runSession snapshot s
    let rest := ran.2.runTargets snapshot l
    (ran.1 ++ rest.1, rest.2)

-- What a session meets in an update, after those that have their turn before it.
def tickIn (e : Engine) (snapshot : Snapshot) (l : List Session) (id : String) : Turn :=
  .tick (e.runTargets snapshot <| l.takeWhile (·.id ≠ id)).2.services e.clock snapshot

-- What a call puts a session through.
def turn? (e : Engine) (s : Session) : EngineCall → Option Turn
  | .reload id graph =>
    if id = s.id then
      match graph.compile e.setup e.services s.strategy s.symbol with
      | (.ok plan, _) => some (.reload graph plan)
      | (.error _, _) => none
    else none
  | .update u =>
    if s.symbol = u.symbol then some (e.tickIn u.snapshot (e.targets u) s.id) else none
  | _ => none

-- What a session has come to after a call, if the call does not stop it.
def through (e : Engine) (c : EngineCall) (s : Session) : Session :=
  s.lone e.setup.config (e.turn? s c).toList

-- The session that a call opens. It opens none unless it is a start, and one that succeeds.
def opens? (e : Engine) : EngineCall → Option Session
  | .start strategy graph symbol =>
    match graph.compile e.setup e.services strategy symbol with
    | (.ok plan, _) =>
      some <| .new (sessionId (e.started + 1)) strategy graph plan e.setup.config
    | (.error _, _) => none
  | _ => none

def turns (e : Engine) (s : Session) : List EngineCall → List Turn
  | []         => []
  | c :: calls => (e.turn? s c).toList ++ (e.call c).turns s calls

variable {e : Engine} {u : IndicatorUpdate} {snapshot : Snapshot} {s : Session} {l : List Session}
  {c : EngineCall}

theorem update_eq : e.update u = e.runTargets u.snapshot (e.targets u) := by
  have h (signals : List Signal) (l : List Session) (e : Engine) :
      l.foldl (fun state s =>
        let ran := state.2.runSession u.snapshot s
        (state.1 ++ ran.1, ran.2)) (signals, e) =
      (signals ++ (e.runTargets u.snapshot l).1, (e.runTargets u.snapshot l).2) := by
    induction l generalizing signals e
    case nil          => simp [runTargets]
    case cons s l hi => simp [runTargets, hi]
  exact h [] (e.targets u) e

theorem bus_update_of_targets (h : e.targets u = [s]) : (e.update u).2.bus =
    publishSignals e.bus s (s.plan.execute e.setup.config e.services e.clock u.snapshot).signals := by
  rw [update_eq, h]
  rfl

-- Of two lists of turns the second begins where the first has led.
theorem turns_concat (calls : List EngineCall) :
    e.turns s (calls ++ [c]) = e.turns s calls ++ ((e.after calls).turn? s c).toList := by
  induction calls generalizing e
  case nil              => simp [turns, after]
  case cons c₀ calls hi => rw [List.cons_append, turns, hi, turns, List.append_assoc]; rfl

theorem setup_clock_runTargets :
    (e.runTargets snapshot l).2.setup = e.setup ∧ (e.runTargets snapshot l).2.clock = e.clock := by
  induction l generalizing e
  case nil          => exact ⟨rfl, rfl⟩
  case cons s l hi => exact hi (e := (e.runSession snapshot s).2)

theorem sessions_runSession : (e.runSession snapshot s).2.sessions = e.sessions.map fun t =>
    if t.id = s.id then (s.take e.setup.config (.tick e.services e.clock snapshot)).2 else t := by
  have hc := s.core_run e.setup.config e.services e.clock snapshot
  simp only [Session.core, Prod.mk.injEq] at hc
  simp only [runSession, replaceSession, hc, Session.take]

theorem tickIn_cons_self : e.tickIn snapshot (s :: l) s.id = .tick e.services e.clock snapshot := by
  rw [tickIn, List.takeWhile_cons_of_neg (by simp)]
  rfl

theorem tickIn_cons_of_ne {id : String} (h : s.id ≠ id) :
    e.tickIn snapshot (s :: l) id = (e.runSession snapshot s).2.tickIn snapshot l id := by
  rw [tickIn, List.takeWhile_cons_of_pos (by simpa using h)]
  rfl

-- Every session that has its turn is replaced by what the turn makes of it; the others stay.
theorem sessions_runTargets (hn : (l.map Session.id).Nodup) :
    (e.runTargets snapshot l).2.sessions = e.sessions.map fun t =>
      (l.find? (·.id = t.id)).elim t fun s =>
        (s.take e.setup.config <| e.tickIn snapshot l s.id).2 := by
  induction l generalizing e
  case nil          => simp [runTargets]
  case cons s l hi =>
    have ⟨hs, hn⟩ := List.nodup_cons.mp hn
    rw [runTargets, hi hn, sessions_runSession, List.map_map]
    apply List.map_congr_left
    intro t _
    rw [Function.comp_apply]
    by_cases ht : s.id = t.id
    case pos =>
      -- The session has had its turn, and nobody after it has its id.
      have hid : (s.take e.setup.config <| .tick e.services e.clock snapshot).2.id = s.id :=
        congrArg Prod.fst Session.nature_take
      have hl : l.find? (·.id = s.id) = none := by
        simpa [List.find?_eq_none] using hs
      rw [if_pos ht.symm, hid, hl, List.find?_cons_of_pos (by simpa using ht), Option.elim_some,
        tickIn_cons_self]
      rfl
    case neg =>
      rw [if_neg (Ne.symm ht), List.find?_cons_of_neg (by simpa using ht)]
      cases hf : l.find? (·.id = t.id)
      case none   => rfl
      case some r =>
        have hr : r.id = t.id := by simpa using List.find?_some hf
        rw [Option.elim_some, Option.elim_some, tickIn_cons_of_ne (hr ▸ ht)]
        rfl

theorem signals_runTargets (hn : (l.map Session.id).Nodup) :
    (e.runTargets snapshot l).1 = l.flatMap fun s =>
      (s.take e.setup.config <| e.tickIn snapshot l s.id).1 := by
  induction l generalizing e
  case nil          => rfl
  case cons s l hi =>
    have ⟨hs, hn⟩ := List.nodup_cons.mp hn
    have hl : l.flatMap (fun t => (t.take e.setup.config <| e.tickIn snapshot (s :: l) t.id).1) =
        l.flatMap fun t => (t.take e.setup.config <|
          (e.runSession snapshot s).2.tickIn snapshot l t.id).1 := by
      refine List.flatMap_congr fun t ht => ?_
      rw [tickIn_cons_of_ne fun h => hs <| h ▸ List.mem_map_of_mem ht]
    rw [runTargets, hi hn, List.flatMap_cons, tickIn_cons_self, hl]
    rfl

theorem Consistent.nodup_ids (h : e.Consistent) : (e.sessions.map Session.id).Nodup := by
  have hd := h.distinct
  rwa [roster, List.map_map] at hd

theorem Consistent.nodup_targets (h : e.Consistent) : ((e.targets u).map Session.id).Nodup :=
  h.nodup_ids.sublist <| List.filter_sublist.map _

theorem Consistent.eq_of_id_eq (h : e.Consistent) {t : Session} (hs : s ∈ e.sessions)
    (ht : t ∈ e.sessions) (hid : s.id = t.id) : s = t :=
  List.inj_on_of_nodup_map h.nodup_ids hs ht hid

-- All sessions of an engine are active: those that are stopped are taken off.
def Lively (e : Engine) : Prop :=
  ∀ s ∈ e.sessions, s.active

theorem Lively.targets_eq (h : e.Lively) :
    e.targets u = e.sessions.filter (·.symbol = u.symbol) := by
  refine List.filter_congr fun s hs => ?_
  rw [h s hs, Bool.and_true]
  rfl

theorem Consistent.find?_targets (h : e.Consistent) (hl : e.Lively) (hs : s ∈ e.sessions) :
    (e.targets u).find? (·.id = s.id) = if s.symbol = u.symbol then some s else none := by
  rw [hl.targets_eq]
  split
  case isTrue hu =>
    have hm : s ∈ e.sessions.filter (·.symbol = u.symbol) := List.mem_filter.mpr ⟨hs, by simpa⟩
    have ⟨t, ht⟩ := Option.isSome_iff_exists.mp <|
      List.find?_isSome (p := fun t : Session => t.id = s.id) |>.mpr ⟨s, hm, by simp⟩
    have hid : t.id = s.id := by simpa using List.find?_some ht
    rw [ht, h.eq_of_id_eq (List.mem_of_mem_filter <| List.mem_of_find?_eq_some ht) hs hid]
  case isFalse hu =>
    refine List.find?_eq_none.mpr fun t ht hid => hu ?_
    have ⟨ht, hu⟩ := List.mem_filter.mp ht
    have he := h.eq_of_id_eq ht hs <| by simpa using hid
    exact he ▸ by simpa using hu

theorem setup_call : (e.call c).setup = e.setup := by
  cases c
  case start strategy graph symbol => simp only [call, start]; split <;> rfl
  case stop id                     => rw [call, stop]; split <;> rfl
  case reload id graph             =>
    rw [call, reload]
    split
    case h_1 => rfl
    case h_2 => split <;> rfl
  case update u                    => rw [call, update_eq]; exact setup_clock_runTargets.left
  case meanwhile                   => rfl

theorem setup_after (calls : List EngineCall) : (e.after calls).setup = e.setup :=
  List.foldlRecOn (motive := fun e' : Engine => e'.setup = e.setup) _ _ rfl
    fun _ h _ _ => setup_call.trans h

theorem after_concat (calls : List EngineCall) :
    e.after (calls ++ [c]) = (e.after calls).call c :=
  List.foldl_append

theorem turn?_congr {t : Session} (h : s.nature = t.nature) : e.turn? s c = e.turn? t c := by
  simp only [Session.nature, Prod.mk.injEq] at h
  cases c
  case reload | update           => simp only [turn?, h]
  case start | stop | meanwhile => rfl

theorem stop_eq_ok_iff {id : String} :
    (e.stop id).1 = .ok s ↔ ∃ t, e.session? id = some t ∧ s = { t with active := false } := by
  rw [stop]
  cases e.session? id
  case none   => simp
  case some t => simp [eq_comm]

theorem reload_eq_ok_iff {id : String} {graph : Graph} :
    (e.reload id graph).1 = .ok () ↔ ∃ s, e.session? id = some s ∧
      ∃ p, (graph.compile e.setup e.services s.strategy s.symbol).1 = .ok p := by
  rw [reload]
  cases e.session? id
  case none   => simp
  case some s =>
    cases hc : graph.compile e.setup e.services s.strategy s.symbol
    case mk compiled services => cases compiled <;> simp [hc]

theorem isSome_turn?_reload {id : String} {graph : Graph} :
    (e.turn? s (.reload id graph)).isSome ↔ s.id = id ∧
      ∃ p, (graph.compile e.setup e.services s.strategy s.symbol).1 = .ok p := by
  cases hc : graph.compile e.setup e.services s.strategy s.symbol
  case mk compiled services => cases compiled <;> simp [turn?, hc, @eq_comm _ id]

-- Whoever is on the table is found there.
theorem Consistent.session?_eq_some_iff (h : e.Consistent) {id : String} :
    e.session? id = some s ↔ s ∈ e.sessions ∧ s.id = id := by
  constructor
  case mp  => exact session?_some
  case mpr =>
    rintro ⟨hs, rfl⟩
    cases ht : e.session? s.id
    case none   => simpa using List.find?_eq_none.mp ht s hs
    case some t =>
      have ⟨hm, hi⟩ := session?_some ht
      rw [h.eq_of_id_eq hm hs hi]

-- A session that is opened is new, and so is its plan.
theorem exists_of_opens? (h : e.opens? c = some s) : ∃ strategy graph symbol plan,
    c = .start strategy graph symbol ∧
    (graph.compile e.setup e.services strategy symbol).1 = .ok plan ∧
    s = .new (sessionId (e.started + 1)) strategy graph plan e.setup.config := by
  cases c
  case start strategy graph symbol =>
    rw [opens?] at h
    split at h
    case h_1 plan _ hc => exact ⟨_, _, _, plan, rfl, congrArg Prod.fst hc, (Option.some.inj h).symm⟩
    case h_2           => cases h
  case stop | reload | update | meanwhile => cases h

theorem start_eq_ok_iff {strategy symbol id : String} {graph : Graph} :
    (e.start strategy graph symbol).1 = .ok id ↔
      ∃ s, e.opens? (.start strategy graph symbol) = some s ∧ s.id = id := by
  cases hc : graph.compile e.setup e.services strategy symbol
  case mk compiled services => cases compiled <;> simp [start, opens?, hc, Session.new]

theorem sessions_start {strategy symbol : String} {graph : Graph} :
    (e.start strategy graph symbol).2.sessions =
      e.sessions ++ (e.opens? (.start strategy graph symbol)).toList := by
  cases hc : graph.compile e.setup e.services strategy symbol
  case mk compiled services => cases compiled <;> simp [start, opens?, hc]

theorem sessions_stop {id : String} :
    (e.stop id).2.sessions = e.sessions.filter (·.id ≠ id) := by
  rw [stop]
  split
  case h_2    => rfl
  case h_1 hn =>
    refine (List.filter_eq_self.mpr fun s hs => ?_).symm
    simpa using List.find?_eq_none.mp hn s hs

theorem nature_through : (e.through c s).nature = s.nature :=
  Session.nature_lone

theorem through_reload {graph : Graph} {plan : Plan}
    (h : (graph.compile e.setup e.services s.strategy s.symbol).1 = .ok plan) :
    e.through (.reload s.id graph) s = s.replacePlan graph plan := by
  cases hc : graph.compile e.setup e.services s.strategy s.symbol
  case mk compiled services =>
    cases (congrArg Prod.fst hc).symm.trans h
    simp [through, turn?, hc, Session.lone, Session.take]

-- A call that does nothing to a session leaves it as it is.
theorem map_through_of_turn?_eq_none (h : ∀ s ∈ e.sessions, e.turn? s c = none) :
    e.sessions.map (e.through c) = e.sessions := by
  refine (List.map_congr_left fun s hs => ?_).trans <| List.map_id _
  rw [through, h s hs]
  rfl

theorem Consistent.sessions_reload (h : e.Consistent) {id : String} {graph : Graph} :
    (e.reload id graph).2.sessions = e.sessions.map (e.through (.reload id graph)) := by
  rw [reload]
  split
  case h_1 hn =>
    refine (map_through_of_turn?_eq_none fun s hs => ?_).symm
    have hi : id ≠ s.id := fun hi => by simpa [hi] using List.find?_eq_none.mp hn s hs
    rw [turn?, if_neg hi]
  case h_2 t ht =>
    obtain ⟨hm, rfl⟩ := session?_some ht
    split
    case h_1 hc =>
      have idle (s) (hs : s ∈ e.sessions) : e.turn? s (.reload t.id graph) = none := by
        rw [turn?]
        split
        case isFalse   => rfl
        case isTrue hi => rw [←h.eq_of_id_eq hm hs hi, hc]
      exact (map_through_of_turn?_eq_none idle).symm
    case h_2 plan services hc =>
      refine List.map_congr_left fun s hs => ?_
      rw [through, turn?]
      by_cases hi : s.id = t.id
      case pos =>
        cases h.eq_of_id_eq hs hm hi
        rw [if_pos rfl, hc]
        exact if_pos rfl
      case neg =>
        rw [if_neg <| Ne.symm hi]
        exact if_neg hi

theorem Consistent.sessions_update (h : e.Consistent) (hl : e.Lively) :
    (e.update u).2.sessions = e.sessions.map (e.through (.update u)) := by
  rw [update_eq, sessions_runTargets h.nodup_targets]
  refine List.map_congr_left fun s hs => ?_
  rw [h.find?_targets hl hs, through, turn?]
  split <;> rfl

-- Who is on the table after a call: the sessions that the call has not stopped, each of which has gone
-- through it, and the one that it opens.
theorem Consistent.mem_call_iff (h : e.Consistent) (hl : e.Lively) :
    s ∈ (e.call c).sessions ↔
      (∃ t ∈ e.sessions, c ≠ .stop t.id ∧ e.through c t = s) ∨ e.opens? c = some s := by
  cases c
  case start =>
    simp [Engine.call, sessions_start, through, turn?, Session.lone]
  case stop id =>
    simp [Engine.call, sessions_stop, through, turn?, opens?, Session.lone, @eq_comm _ id]
  case reload id graph =>
    simp [Engine.call, h.sessions_reload, opens?]
  case update u =>
    simp [Engine.call, h.sessions_update hl, opens?]
  case meanwhile =>
    simp [Engine.call, through, turn?, opens?, Session.lone]

theorem Consistent.lively_call (h : e.Consistent) (hl : e.Lively) : (e.call c).Lively := by
  intro s hs
  cases (h.mem_call_iff hl).mp hs
  case inl hs =>
    obtain ⟨t, ht, -, rfl⟩ := hs
    have hn := nature_through (e := e) (c := c) (s := t)
    simp only [Session.nature, Prod.mk.injEq] at hn
    exact hn.right.right.right.trans <| hl t ht
  case inr hs =>
    have ⟨_, _, _, _, _, _, hs⟩ := exists_of_opens? hs
    exact hs ▸ rfl

end Engine

end SignalFlow
