import SignalFlow.Proofs.Engine.Books
import SignalFlow.Proofs.Engine.Sessions

/-!
Sessions from the start to the stop. Over all calls that an engine gets, a session is on the table
from the call that opens it up to the one that stops it, and goes through its own turns meanwhile.
Once it is stopped it never comes back.
-/

namespace SignalFlow

-- A price that is over most thresholds.
def IndicatorUpdate.rise : IndicatorUpdate where
  symbol := "BTC"
  fields := Dict.empty.insert "price" (.num <| .int 120 <| by decide)

-- The alarm is compiled to a plan that keeps no states, and that emits two signals if the price rises.
theorem Graph.exists_plan_alarm (capacity : Nat) :
    let config : Config := { eventCapacity := capacity }
    ∃ plan : String → Plan,
      (∀ symbol, alarm.compile { config } {} "alarm" symbol = (.ok (plan symbol), {}) ∧
        (plan symbol).symbol = symbol) ∧
      ((plan "BTC").execute config {} .epoch IndicatorUpdate.rise.snapshot).outcome.map
        (·.signals.length) = some 2 := by
  intro config
  have compiled (symbol) := compile_of_wellFormed supported_alarm wellFormed_alarm config {} "alarm"
    symbol
  simp only [Compile.skeleton, order_hydrate_stamp wellFormed_alarm, order_alarm, bind,
    Except.bind] at compiled
  -- The room on the bus has no part in a tick.
  have room (p : Plan) : p.execute config {} .epoch IndicatorUpdate.rise.snapshot =
      p.execute {} {} .epoch IndicatorUpdate.rise.snapshot := rfl
  refine ⟨_, fun symbol => ⟨compiled symbol, rfl⟩, ?_⟩
  rw [room]
  clear room
  decide +kernel

-- What a tick that gives some signals writes into the books.
theorem Session.books_take {s : Session} {config : Config} {services : Services} {clock : Instant}
    {snapshot : Snapshot} {n : Nat}
    (h : (s.plan.execute config services clock snapshot).outcome.map (·.signals.length) = some n) :
    let ran := (s.take config (.tick services clock snapshot)).2
    (ran.symbol, ran.executions, ran.signalsEmitted, ran.revision) =
      (s.symbol, s.executions + 1, s.signalsEmitted + n, s.revision) := by
  obtain ⟨o, ho, hn⟩ := Option.map_eq_some_iff.mp h
  simp [take, run, ho, recordOutcome_eq, hn]

namespace Engine

variable {e : Engine} {s t first : Session} {c : EngineCall} {calls before rest : List EngineCall}
  {id : String}

-- What a session has come to after some calls that do not stop it.
def course (e : Engine) (s : Session) (calls : List EngineCall) : Session :=
  s.lone e.setup.config (e.turns s calls)

theorem nature_course : (e.course s calls).nature = s.nature :=
  Session.nature_lone

theorem course_concat :
    e.course s (calls ++ [c]) = (e.after calls).through c (e.course s calls) := by
  rw [course, turns_concat, Session.lone_append, through, setup_after, turn?_congr nature_course]
  rfl

theorem id_course : (e.course s calls).id = s.id :=
  congrArg Prod.fst nature_course

theorem turns_congr (h : s.nature = t.nature) (calls : List EngineCall) :
    e.turns s calls = e.turns t calls := by
  induction calls generalizing e
  case nil             => rfl
  case cons c calls hi => rw [turns, turns, turn?_congr h, hi]

theorem course_cons : e.course s (c :: calls) = (e.call c).course (e.through c s) calls := by
  rw [course, turns, Session.lone_append, course, setup_call, turns_congr nature_through]
  rfl

theorem after_append : e.after (before ++ rest) = (e.after before).after rest :=
  List.foldl_append

-- One of the calls has opened a session and none has stopped it since, and from then on it has been
-- through its own turns and nothing else. With other stores these turns lead to the same.
inductive Career (e : Engine) (calls : List EngineCall) (s : Session) : Prop
  | since (before : List EngineCall) (c : EngineCall) (rest : List EngineCall) {first : Session}
    (calls : calls = before ++ c :: rest)
    (opened : (e.after before).opens? c = some first)
    (stays : .stop first.id ∉ rest)
    (alone : ∀ turns,
      List.Forall₂ (Turn.Alike e.setup.config) (((e.after before).call c).turns first rest) turns →
        s = first.lone e.setup.config turns)

-- The turns with the stores of the engine itself are enough.
theorem career_iff : e.Career calls s ↔ ∃ before c rest first, calls = before ++ c :: rest ∧
    (e.after before).opens? c = some first ∧ .stop first.id ∉ rest ∧
    s = ((e.after before).call c).course first rest := by
  have setup (before c) : ((e.after before).call c).setup = e.setup :=
    setup_call.trans <| setup_after before
  constructor
  case mp  =>
    rintro ⟨before, c, rest, calls, opened, stays, alone⟩
    refine ⟨before, c, rest, _, calls, opened, stays, ?_⟩
    rw [course, setup]
    exact alone _ <| List.forall₂_same.mpr fun _ _ => .refl ..
  case mpr =>
    rintro ⟨before, c, rest, first, calls, opened, stays, rfl⟩
    refine .since before c rest calls opened stays fun turns h => ?_
    rw [course, setup, Session.lone_congr h]

-- A session whose career goes on has gone through the last call; if none has, the call has opened it.
theorem career_concat_iff :
    e.Career (calls ++ [c]) s ↔
      (∃ t, e.Career calls t ∧ c ≠ .stop t.id ∧ (e.after calls).through c t = s) ∨
        (e.after calls).opens? c = some s := by
  simp only [career_iff]
  have stays {id rest} : .stop id ∉ rest ++ [c] ↔ .stop id ∉ rest ∧ c ≠ .stop id := by
    simp [@eq_comm _ c]
  constructor
  case mp =>
    rintro ⟨before, c', rest, first, hc, opened, hs, rfl⟩
    cases rest using List.reverseRecOn
    case nil =>
      have ⟨hb, hl⟩ := List.append_inj' hc rfl
      cases hb
      cases hl
      exact .inr opened
    case append_singleton rest _ _ =>
      rw [←List.cons_append, ←List.append_assoc] at hc
      have ⟨hb, hl⟩ := List.append_inj' hc rfl
      cases hb
      cases hl
      have ⟨hs, hn⟩ := stays.mp hs
      refine .inl ⟨_, ⟨before, c', rest, first, rfl, opened, hs, rfl⟩, ?ne, ?through⟩
      case ne      => rwa [id_course]
      case through => rw [course_concat, after_append]; rfl
  case mpr =>
    rintro (⟨_, ⟨before, c', rest, first, rfl, opened, hs, rfl⟩, hn, rfl⟩ | opened)
    case inl =>
      rw [id_course] at hn
      refine ⟨before, c', rest ++ [c], first, by simp, opened, stays.mpr ⟨hs, hn⟩, ?_⟩
      rw [course_concat, after_append]
      rfl
    case inr => exact ⟨calls, c, [], s, rfl, opened, List.not_mem_nil, rfl⟩

theorem not_career_nil : ¬e.Career [] s := by
  rintro ⟨before, _, _, calls, _⟩
  cases before <;> cases calls

theorem Consistent.lively_after (h : e.Consistent) (hl : e.Lively) (calls : List EngineCall) :
    (e.after calls).Lively := by
  induction calls using List.reverseRecOn
  case nil                       => exact hl
  case append_singleton calls c hi => exact after_concat calls ▸ (h.after calls).lively_call hi

-- The sessions on the table are those whose career has not come to its end.
theorem Consistent.mem_after_iff (h : e.Consistent) (he : e.sessions = []) (calls : List EngineCall) :
    s ∈ (e.after calls).sessions ↔ e.Career calls s := by
  have hl : e.Lively := fun s hs => by cases he ▸ hs
  induction calls using List.reverseRecOn generalizing s
  case nil =>
    have empty : (e.after []).sessions = [] := he
    simp [empty, not_career_nil]
  case append_singleton calls c hi =>
    rw [after_concat, (h.after calls).mem_call_iff (h.lively_after hl calls), career_concat_iff]
    simp only [hi]

theorem Consistent.started_le_call (h : e.Consistent) : e.started ≤ (e.call c).started := by
  cases h.change c
  case kept _ hk            => exact hk.started.ge
  case started _ _ _ _ _ hn => exact hn ▸ Nat.le_succ _
  case stopped _ _ _ hn     => exact hn.ge

-- The id was given to a session that is not on the table any more.
structure Retired (e : Engine) (id : String) : Prop where
  given  : ∃ n, n ≤ e.started ∧ id = sessionId n
  absent : ∀ s ∈ e.sessions, s.id ≠ id

theorem Retired.session?_eq_none (h : e.Retired id) : e.session? id = none :=
  List.find?_eq_none.mpr fun s hs => by simpa using h.absent s hs

-- No id is given twice.
theorem Consistent.retired_call (h : e.Consistent) (hl : e.Lively) (hr : e.Retired id) :
    (e.call c).Retired id := by
  obtain ⟨n, hn, hid⟩ := hr.given
  constructor
  case given  => exact ⟨n, hn.trans h.started_le_call, hid⟩
  case absent =>
    intro s hs
    cases (h.mem_call_iff hl).mp hs
    case inl hs =>
      obtain ⟨t, ht, -, rfl⟩ := hs
      exact (congrArg Prod.fst nature_through).trans_ne <| hr.absent t ht
    case inr hs =>
      obtain ⟨_, _, _, _, _, _, rfl⟩ := exists_of_opens? hs
      intro hs
      have := sessionId_inj <| hs.trans hid
      omega

theorem Consistent.retired_after (h : e.Consistent) (hl : e.Lively) (hr : e.Retired id)
    (calls : List EngineCall) : (e.after calls).Retired id := by
  induction calls generalizing e
  case nil             => exact hr
  case cons c calls hi => exact hi (h.call c) (h.lively_call hl) (h.retired_call hl hr)

theorem Consistent.retired_stop (h : e.Consistent) (hs : (e.stop id).1 = .ok s) :
    (e.call (.stop id)).Retired id := by
  obtain ⟨t, ht, -⟩ := stop_eq_ok_iff.mp hs
  obtain ⟨hm, rfl⟩ := session?_some ht
  constructor
  case given =>
    obtain ⟨n, hn, hid⟩ := h.numbered _ <| List.mem_map_of_mem hm
    exact ⟨n, hn.trans h.started_le_call, hid⟩
  case absent =>
    intro s hs
    rw [Engine.call, sessions_stop] at hs
    simpa using (List.mem_filter.mp hs).right

theorem opens?_of_compile {strategy symbol : String} {graph : Graph} {plan : Plan}
    {services : Services}
    (hc : graph.compile e.setup e.services strategy symbol = (.ok plan, services)) :
    let s := Session.new (sessionId (e.started + 1)) strategy graph plan e.setup.config
    e.opens? (.start strategy graph symbol) = some s ∧ e.call (.start strategy graph symbol) =
      { e with services, sessions := e.sessions ++ [s], started := e.started + 1 } := by
  simp [opens?, call, start, hc]

-- What a session comes to if it is the only one on the symbol of an update and then is reloaded.
theorem exists_course_reload {u : IndicatorUpdate} (hs : e.setup = {}) (ht : e.targets u = [s])
    (hu : s.symbol = u.symbol) : ∃ plan, e.course s [.update u, .reload s.id Graph.alarm] =
      (s.take {} (.tick e.services e.clock u.snapshot)).2.replacePlan Graph.alarm plan := by
  have hr : e.through (.update u) s = (s.take {} (.tick e.services e.clock u.snapshot)).2 := by
    rw [through, turn?, if_pos hu, ht, tickIn_cons_self, hs]
    rfl
  have hi : (e.through (.update u) s).id = s.id := congrArg Prod.fst nature_through
  have hs : (e.call (.update u)).setup = {} := setup_call.trans hs
  obtain ⟨plan, hc⟩ := Graph.exists_compile Graph.supported_alarm Graph.wellFormed_alarm
    (e.call (.update u)).services (e.through (.update u) s).strategy (e.through (.update u) s).symbol
  rw [←hs] at hc
  refine ⟨plan, ?_⟩
  rw [course_cons, course_cons, ←hr, ←hi, through_reload hc]
  rfl

-- The books of such a session, by the signals of its tick.
theorem books_course_reload {u : IndicatorUpdate} {n : Nat} (hs : e.setup = {})
    (ht : e.targets u = [s]) (hu : s.symbol = u.symbol)
    (hn : (s.plan.execute {} e.services e.clock u.snapshot).outcome.map (·.signals.length) =
      some n) :
    let t := e.course s [.update u, .reload s.id Graph.alarm]
    (t.symbol, t.executions, t.signalsEmitted, t.revision) =
      (s.symbol, s.executions + 1, s.signalsEmitted + n, s.revision + 1) := by
  obtain ⟨plan, course⟩ := exists_course_reload hs ht hu
  have books := s.books_take hn
  simp only [Prod.mk.injEq] at books
  simp only [course, Session.replacePlan, books]

theorem course_idle {u : IndicatorUpdate} {graph : Graph} (hu : s.symbol ≠ u.symbol)
    (hi : id ≠ s.id) : e.course s [.update u, .reload id graph] = s := by
  simp [course, turns, turn?, hu, hi, Session.lone]

-- What an engine makes of the sessions that are deployed on it.
structure RunsAlone (e : Engine) (calls : List EngineCall) : Prop where
  -- on the table are those whose career has not come to its end, each of them once
  live : ∀ s, s ∈ (e.after calls).sessions ↔ e.Career calls s
  once : ((e.after calls).sessions.map Session.id).Nodup
  -- a start tells the id of the session that it opens
  started : ∀ strategy graph symbol id,
    ((e.after calls).start strategy graph symbol).1 = .ok id ↔
      ∃ first, (e.after calls).opens? (.start strategy graph symbol) = some first ∧ first.id = id
  -- under this id the session is found as long as nobody stops it
  kept : ∀ before c rest first, calls = before ++ c :: rest →
    (e.after before).opens? c = some first → .stop first.id ∉ rest →
      (e.after calls).session? first.id = some (((e.after before).call c).course first rest)
  -- a reload succeeds exactly if it is a turn for somebody
  reloaded : ∀ id graph, ((e.after calls).reload id graph).1 = .ok () ↔
    ∃ t, e.Career calls t ∧ ((e.after calls).turn? t (.reload id graph)).isSome
  -- a stop hands out what the session has come to
  stopped : ∀ id s, ((e.after calls).stop id).1 = .ok s ↔
    ∃ t, e.Career calls t ∧ t.id = id ∧ s = { t with active := false }
  -- from then on nobody is found under this id, whatever is started
  gone : ∀ id s, ((e.after calls).stop id).1 = .ok s →
    ∀ more, (e.after (calls ++ .stop id :: more)).session? id = none
  -- an update gives the signals of the sessions on its symbol, and no others
  signals : ∀ u : IndicatorUpdate, ((e.after calls).update u).1.Perm <|
    ((e.after calls).sessions.filter (·.symbol = u.symbol)).flatMap fun s =>
      (s.take e.setup.config <|
        (e.after calls).tickIn u.snapshot ((e.after calls).targets u) s.id).1

-- Each session of an engine comes to what its plan comes to on its own, from the start of the session
-- up to its stop.
theorem sessions_run_alone (setup : Setup) (services : Services) (clock : Instant)
    (calls : List EngineCall) : (new setup services clock).RunsAlone calls := by
  generalize hn : new setup services clock = e
  have he : e.sessions = [] := hn ▸ rfl
  have h : e.Consistent := hn ▸ consistent_new setup services clock
  have hc : (e.after calls).Consistent := h.after calls
  have hl : (e.after calls).Lively := h.lively_after (fun s hs => by cases he ▸ hs) calls
  have live (s) : s ∈ (e.after calls).sessions ↔ e.Career calls s := h.mem_after_iff he calls
  constructor
  case live    => exact live
  case once    => exact hc.nodup_ids
  case started => exact fun _ _ _ _ => start_eq_ok_iff
  case kept    =>
    intro before c rest first hcalls opened stays
    refine hc.session?_eq_some_iff.mpr ⟨(live _).mpr ?_, id_course⟩
    exact career_iff.mpr ⟨before, c, rest, first, hcalls, opened, stays, rfl⟩
  case reloaded =>
    intro id graph
    simp only [reload_eq_ok_iff, isSome_turn?_reload, hc.session?_eq_some_iff, live, and_assoc]
  case stopped =>
    intro id s
    simp only [stop_eq_ok_iff, hc.session?_eq_some_iff, live, and_assoc]
  case gone =>
    intro id s hs more
    have hr := (hc.call (.stop id)).retired_after (hc.lively_call hl) (hc.retired_stop hs) more
    rw [after_append]
    exact hr.session?_eq_none
  case signals =>
    intro u
    rw [update_eq, signals_runTargets hc.nodup_targets, hl.targets_eq, setup_after]

theorem sessions_run_alone_alarms :
    let e := (new {} {} .epoch).after [.start "alarm" Graph.alarm "BTC",
      .start "alarm" Graph.alarm "ETH", .update .rise, .reload (sessionId 1) Graph.alarm]
    ∃ s t, e.session? (sessionId 1) = some s ∧ e.session? (sessionId 2) = some t ∧
      (s.symbol, s.executions, s.signalsEmitted, s.revision) = ("BTC", 1, 2, 1) ∧
      (t.symbol, t.executions, t.signalsEmitted, t.revision) = ("ETH", 0, 0, 0) ∧
      (e.stop (sessionId 1)).1 = .ok { s with active := false } ∧
      ∀ more, (e.after (.stop (sessionId 1) :: more)).session? (sessionId 1) = none := by
  intro e
  have alone : (new {} {} .epoch).RunsAlone _ := sessions_run_alone {} {} .epoch [
    .start "alarm" Graph.alarm "BTC", .start "alarm" Graph.alarm "ETH", .update .rise,
    .reload (sessionId 1) Graph.alarm]
  obtain ⟨plan, compiled, signals⟩ := Graph.exists_plan_alarm 1024
  let s : Session := .new (sessionId 1) "alarm" Graph.alarm (plan "BTC") {}
  let t : Session := .new (sessionId 2) "alarm" Graph.alarm (plan "ETH") {}
  let e₁ : Engine := { new {} {} .epoch with sessions := [s], started := 1 }
  let e₂ : Engine := { new {} {} .epoch with sessions := [s, t], started := 2 }
  have btc : s.symbol = "BTC" := (compiled "BTC").right
  have eth : t.symbol = "ETH" := (compiled "ETH").right
  obtain ⟨opens₁, starts₁⟩ := opens?_of_compile (e := new {} {} .epoch) (compiled "BTC").left
  obtain ⟨opens₂, starts₂⟩ := opens?_of_compile (e := e₁) (compiled "ETH").left
  have after₁ : ((new {} {} .epoch).after []).call (.start "alarm" Graph.alarm "BTC") = e₁ := starts₁
  have after₂ : e₁.call (.start "alarm" Graph.alarm "ETH") = e₂ := starts₂
  have after : (new {} {} .epoch).after [.start "alarm" Graph.alarm "BTC"] = e₁ := after₁
  -- The first session has its turns, the second one has none.
  have targets : e₂.targets .rise = [s] := by
    rw [Engine.targets, List.filter_cons_of_pos ?own, List.filter_cons_of_neg ?other]
    case own   => rw [btc]; rfl
    case other => simp [eth, IndicatorUpdate.rise]
    rfl
  have books := books_course_reload rfl targets btc signals
  have idle : e₂.course t [.update .rise, .reload (sessionId 1) Graph.alarm] = t :=
    course_idle (by simp [eth, IndicatorUpdate.rise]) fun h => by cases sessionId_inj h
  have kept := alone.kept [] _ _ s rfl opens₁ <| by simp
  have kept' := alone.kept [_] _ _ t rfl (after.symm ▸ opens₂) <| by simp
  rw [after₁, course_cons, after₂] at kept
  rw [after, after₂, idle] at kept'
  have live := (alone.live _).mp (session?_some kept).left
  have stopped := (alone.stopped (sessionId 1) _).mpr ⟨_, live, id_course, rfl⟩
  have gone := alone.gone (sessionId 1) _ stopped
  rw [btc] at books
  exact ⟨_, t, kept, kept', books, by rw [eth]; rfl, stopped, fun more => after_append ▸ gone more⟩

end Engine

end SignalFlow
