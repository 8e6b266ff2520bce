import SignalFlow.Proofs.Engine.Names

/-!
A session that was stopped stays stopped, whoever has got hold of it before. Updates and reloads
that still wait for its lock get it in the end, but an update then sees that the session is not
active any more, and a reload leaves it so.
-/

namespace SignalFlow

-- What a session shows of the ticks that it has been through.
def Session.tally (s : Session) :
    Nat × Nat × Nat × Option Instant × List SessionError × List Signal :=
  (s.executions, s.signalsEmitted, s.errorCount, s.lastExecution, s.recentErrors, s.signalHistory)

namespace Scene

variable {x x' : Scene} {s : Session} {id : String} {d : Deed}

def tally (x : Scene) (id : String) :
    Option (Nat × Nat × Nat × Option Instant × List SessionError × List Signal) :=
  (x.session? id).map Session.tally

-- The session is off the table for good, and inactive.
structure Off (x : Scene) (id : String) : Prop where
  numbered : ∃ n, n ≤ x.engine.started ∧ id = Engine.sessionId n
  gone     : ∀ s ∈ x.engine.sessions, s.id ≠ id
  idle     : ∀ s ∈ x.offstage, s.id = id → s.active = false

-- A step that leaves a session alone which is off.
structure Passes (id : String) (x : Scene) (d : Deed) (x' : Scene) : Prop where
  deed  : ¬d.Concerns id
  off   : x'.Off id
  tally : x'.tally id = x.tally id

theorem Off.inactive (h : x.Off id) (hs : x.session? id = some s) : s.active = false := by
  have ⟨hm, hi⟩ := session?_some hs
  cases List.mem_append.mp hm
  case inl hm => exact absurd hi <| h.gone s hm
  case inr hm => exact h.idle s hm hi

theorem Off.put (h : x.Off id) (hs : s.id = id → s.active = false) : (x.put s).Off id := by
  refine ⟨h.numbered, fun t ht => ?_, fun t ht hi => ?_⟩
  case refine_1 =>
    have ⟨old, ho, he⟩ := List.mem_map.mp ht
    split at he
    case isTrue hi => exact he ▸ hi ▸ h.gone old ho
    case isFalse   => exact he ▸ h.gone old ho
  case refine_2 =>
    have ⟨old, ho, he⟩ := List.mem_map.mp ht
    split at he
    case isTrue  => exact he ▸ hs (he ▸ hi)
    case isFalse => exact he ▸ h.idle old ho (he ▸ hi)

-- Sessions are as they were.
theorem Passes.same (h : x.Off id) (hd : ¬d.Concerns id)
    (table : x'.engine.sessions = x.engine.sessions) (offstage : x'.offstage = x.offstage)
    (started : x'.engine.started = x.engine.started) : x.Passes id d x' := by
  refine ⟨hd, ⟨started ▸ h.numbered, table ▸ h.gone, offstage ▸ h.idle⟩, ?_⟩
  simp only [Scene.tally, session?, sessions, table, offstage]

theorem Off.find?_table (h : x.Off id) {l : List Session} (hl : l.Sublist x.engine.sessions) :
    l.find? (·.id = id) = none :=
  List.find?_eq_none.mpr fun s hs => by simpa using h.gone s (hl.subset hs)

-- Another session was put on the table or taken off it.
theorem Passes.add (h : x.Off id) (hd : ¬d.Concerns id) (hs : s.id ≠ id) :
    x.Passes id d (x.add s) := by
  have ⟨n, hn, hi⟩ := h.numbered
  refine ⟨hd, ⟨⟨n, Nat.le_succ_of_le hn, hi⟩, fun t ht => ?_, h.idle⟩, ?_⟩
  case refine_1 => exact (List.mem_append.mp ht).elim (h.gone t) (List.mem_singleton.mp · ▸ hs)
  case refine_2 => simp [Scene.tally, session?, sessions, Scene.add, hs]

theorem Passes.remove (h : x.Off id) (hd : ¬d.Concerns id) (hs : s.id ≠ id) :
    x.Passes id d (x.remove s) := by
  refine ⟨hd, ⟨h.numbered, fun t ht => h.gone t <| List.mem_of_mem_filter ht, fun t ht => ?_⟩, ?_⟩
  case refine_1 =>
    exact (List.mem_append.mp ht).elim (h.idle t) (List.mem_singleton.mp · ▸ (absurd · hs))
  case refine_2 =>
    simp [Scene.tally, session?, sessions, Scene.remove, hs, List.find?_append,
      h.find?_table (.refl _), h.find?_table List.filter_sublist]

-- Another session was changed.
theorem Passes.put (h : x.Passes id d x') (hs : s.id ≠ id) : x.Passes id d (x'.put s) :=
  ⟨h.deed, h.off.put (absurd · hs), (congrArg _ <| session?_put_of_ne hs).trans h.tally⟩

end Scene

variable {free : String → Prop} {x x' : Scene} {id : String} {d : Deed}

theorem Errand.Moves.passes {snapshot : Snapshot} {errand : Errand} {errand? : Option Errand}
    (h : errand.Moves free snapshot x d x' errand?) (hx : x.Off id) (he : id ∉ errand.held) :
    x.Passes id d x' ∧ ∀ next ∈ errand?, id ∉ next.held := by
  cases h
  case lapse                           => exact ⟨.same hx (·) rfl rfl rfl, nofun⟩
  case begin id' s lock session active =>
    have hi : id' ≠ id := by
      rintro rfl
      rw [hx.inactive session] at active
      nomatch active
    exact ⟨.same hx hi rfl rfl rfl, by simpa [held] using hi.symm⟩
  -- The lock of the session is not with the errand, so that all the rest is about another one.
  all_goals simp only [held, List.mem_singleton] at he
  case run | store | publish => exact ⟨.same hx (Ne.symm he) rfl rfl rfl, by simpa [held] using he⟩
  case release                => exact ⟨.same hx (·) rfl rfl rfl, nofun⟩
  case breakOff session       =>
    have hi := (Scene.session?_some session).right
    exact ⟨.put (.same hx (Ne.symm he) rfl rfl rfl) (hi ▸ Ne.symm he), nofun⟩
  case record id' now p s session =>
    have hi : ({ s with plan := p.plan }.recordOutcome p.outcome x.engine.clock).id = id' :=
      (congrArg Prod.fst <| Session.core_recordOutcome ..).trans (Scene.session?_some session).right
    exact ⟨.put (.same hx (Ne.symm he) rfl rfl rfl) (hi ▸ Ne.symm he), by simpa [held] using he⟩

theorem Handling.Moves.passes {h h' : Handling} (hm : h.Moves free x d x' h') (hx : x.Off id)
    (hh : id ∉ h.held) : x.Passes id d x' ∧ id ∉ h'.held := by
  cases hm
  case collect   => exact ⟨.same hx (·) rfl rfl rfl, List.not_mem_nil⟩
  case spawn     => exact ⟨.same hx (·) rfl rfl rfl, by simp [held, Errand.held]⟩
  case errand hm =>
    simp only [held, List.flatMap_append, List.flatMap_cons, List.mem_append, not_or] at hh ⊢
    obtain ⟨hp, hn⟩ := hm.passes hx hh.right.left
    refine ⟨hp, ⟨hh.left, ?_⟩, hh.right.right⟩
    simpa using hn

-- The sessions that a task is going to change.
def Task.touched : Task → List String
  | .update h    => h.held
  | .stopping id => [id]
  | _            => []

theorem Task.mem_of_mem_touched {t : Task} (h : id ∈ t.touched) :
    id ∈ t.held ∨ id ∈ t.stops ∧ id ∈ t.ids := by
  cases t
  case update   => exact .inl h
  case stopping => exact .inr ⟨h, h⟩
  all_goals nomatch h

theorem Task.Moves.passes {t : Task} {t? : Option Task} (hm : t.Moves free x d x' t?)
    (hx : x.Off id) (ht : id ∉ t.touched) : x.Passes id d x' ∧ ∀ next ∈ t?, id ∉ next.touched := by
  cases hm
  case update hm =>
    have ⟨hp, hn⟩ := hm.passes hx ht
    exact ⟨hp, by simpa [touched] using hn⟩
  case join | refuse | reject | miss | keep => exact ⟨.same hx (·) rfl rfl rfl, nofun⟩
  case compile | capture | seize =>
    exact ⟨.same hx (·) rfl rfl rfl, by simp [touched]⟩
  case deploy strategy graph plan =>
    have ⟨n, hn, hi⟩ := hx.numbered
    refine ⟨.add hx (·) fun he => ?_, nofun⟩
    have := Engine.sessionId_inj <| he.trans hi
    omega
  case remove id' s live =>
    have ⟨hs, hi⟩ := Engine.session?_some live
    have hn : id' ≠ id := hi ▸ hx.gone s hs
    exact ⟨.remove hx (·) (hi ▸ hn), by simpa [touched] using hn.symm⟩
  case deactivate id' s lock session =>
    have hn : id' ≠ id := Ne.symm <| by simpa [touched] using ht
    exact ⟨.put (.same hx hn rfl rfl rfl) <| (Scene.session?_some session).right ▸ hn, nofun⟩
  case replace id' graph s plan services session compiled =>
    have hi := (Scene.session?_some session).right
    have served : x.Passes id .silent (x.serve services) := .same hx (·) rfl rfl rfl
    by_cases hn : s.id = id
    case neg => exact ⟨served.put hn, nofun⟩
    case pos =>
      have hs : x.session? id = some s := by rw [←hn, hi, session]
      refine ⟨⟨(·), served.off.put fun _ => Scene.Off.inactive (s := s) hx hs, ?_⟩, nofun⟩
      have hs' : (x.serve services).session? id = some s := hs
      rw [Scene.tally, Scene.session?_put, hs', Scene.tally, hs]
      simp [Session.replacePlan, Session.tally]

theorem Task.Moves.eq_of_stopped {t : Task} {t? : Option Task}
    (hm : t.Moves free x (.stopped id) x' t?) : t = .stopping id ∧ t? = none ∧ free id ∧
      ∃ s, x.session? id = some s ∧ x' = x.put { s with active := false } := by
  cases hm
  case deactivate s lock session => exact ⟨rfl, rfl, lock, s, session, rfl⟩
  case update hm                 =>
    cases hm
    case errand hm => nomatch hm

namespace World

variable {w w' : World}

-- The session was stopped, and nobody is about to change it.
structure Stopped (w : World) (id : String) : Prop where
  off     : w.Off id
  touched : ∀ t ∈ w.jobs, id ∉ t.touched

theorem Stopped.change (h : w.Stopped id) (hc : w.Change d w') :
    w.Passes id d w'.toScene ∧ w'.Stopped id := by
  cases hc
  case other table offstage started _ jobs deed =>
    have hp : w.Passes id d w'.toScene := .same h.off (deed id) table offstage started
    refine ⟨hp, hp.off, fun t ht hi => ?_⟩
    cases jobs t ht
    case inl ht => exact h.touched t ht hi
    case inr ht =>
      have ht := Task.mem_of_mem_touched hi
      simp_all
  case job l r t t? before moves after =>
    have ht : t ∈ w.jobs := before ▸ by simp
    have ⟨hp, hn⟩ := moves.passes h.off (h.touched t ht)
    refine ⟨hp, hp.off, fun t' ht' => ?_⟩
    cases mem_or_of_mem before after ht'
    case inl ht' => exact h.touched t' ht'
    case inr ht' => exact hn t' ht'

-- The lock is free, so that no update is at the session any more, and whoever stops it is the only
-- one who does.
theorem Sound.stopped (h : w.Sound) (hc : w.Change (.stopped id) w') : w'.Stopped id := by
  cases hc
  case other deed => exact absurd rfl (deed id)
  case job l r t t? before moves after =>
    have ⟨ht, hn, lock, s, session, he⟩ := moves.eq_of_stopped
    cases ht
    cases hn
    have hs : s.id = id := (Scene.session?_some session).right
    have stops : id ∈ w.jobs.flatMap Task.stops :=
      List.mem_flatMap.mpr ⟨.stopping id, before ▸ by simp, List.mem_singleton.mpr rfl⟩
    have others : id ∉ (l ++ r).flatMap Task.stops := by
      have hp := @List.perm_middle _ id (l.flatMap Task.stops) (r.flatMap Task.stops)
      have hd := (List.nodup_append.mp h.apart).right.left
      rw [before, List.flatMap_append, List.flatMap_cons] at hd
      rw [List.flatMap_append]
      exact (List.nodup_cons.mp <| hp.nodup_iff.mp hd).left
    have numbered := h.numbered id <| h.mem_ids_of_mem_stops stops
    refine ⟨he ▸ ⟨numbered, fun t ht hi => ?_, fun t ht hi => ?_⟩, fun t ht hi => ?_⟩
    case refine_1 =>
      have live : t.id ∈ w.names.1 :=
        congrArg (·.1) (Scene.names_put (x := w.toScene)) ▸ List.mem_map_of_mem ht
      exact List.disjoint_of_nodup_append h.apart live (hi ▸ stops)
    case refine_2 =>
      have ⟨old, ho, ht⟩ := List.mem_map.mp ht
      split at ht
      case isTrue     => exact ht ▸ rfl
      case isFalse hn => exact absurd (ht ▸ hi.trans hs.symm) hn
    case refine_3 =>
      have ht : t ∈ l ++ r := by simpa [after] using ht
      have hj : t ∈ w.jobs := by
        rw [before]
        grind
      cases Task.mem_of_mem_touched hi
      case inl hi => exact lock <| List.mem_flatMap.mpr ⟨t, hj, hi⟩
      case inr hi => exact others <| List.mem_flatMap.mpr ⟨t, ht, hi.left⟩

theorem Stopped.path (h : w.Stopped id) {steps : List (Deed × World)} (hp : Path Step w steps) :
    ∀ step ∈ steps, ¬step.1.Concerns id ∧ step.2.tally id = w.tally id := by
  induction hp
  case nil                         => exact List.forall_mem_nil _
  case cons w w' d later hs _ hi =>
    have ⟨passes, stopped⟩ := h.change hs.change
    refine List.forall_mem_cons.mpr ⟨⟨passes.deed, passes.tally⟩, fun step hm => ?_⟩
    exact (hi stopped step hm).imp_right (·.trans passes.tally)

theorem Sound.path (h : w.Sound) {before after : List (Deed × World)}
    (hp : Path Step w (before ++ (d, w') :: after)) :
    ∃ w₀ : World, w₀.Sound ∧ w₀.Step d w' ∧ Path Step w' after := by
  induction before generalizing w
  case nil            => cases hp with | cons hs hp => exact ⟨w, h, hs, hp⟩
  case cons _ _ hi => cases hp with | cons hs hp => exact hi (h.change hs.change) hp

-- Whatever happens after a session was stopped, no tick of it is run and none of its machines is
-- stored, its counters and histories stay, no signal is published under its name, and nobody stops
-- it once more.
theorem stopped_for_good (setup : Setup) (services : Services) (clock : Instant) {id : String}
    {before after : List (Deed × World)} {w : World}
    (h : Path Step (new setup services clock) (before ++ (.stopped id, w) :: after)) :
    ∀ step ∈ after, ¬step.1.Concerns id ∧ step.2.tally id = w.tally id :=
  have ⟨_, sound, step, rest⟩ := (sound_new setup services clock).path h
  (sound.stopped step.change).path rest

-- An update has got hold of the session when it is stopped, and comes too late.
theorem stopped_for_good_vigil : ∃ (before after : List (Deed × World)) (w : World),
    Path Step (new {} {} .epoch) (before ++ (.stopped (Engine.sessionId 1), w) :: after) ∧
    after.length = 2 ∧
    ∀ step ∈ after, ¬step.1.Concerns (Engine.sessionId 1) ∧
      step.2.tally (Engine.sessionId 1) = w.tally (Engine.sessionId 1) := by
  obtain ⟨p, hc⟩ := Graph.exists_compile_vigil
  have symbol : p.symbol = "BTC" := congrArg StateKey.symbol (Graph.stateKey_of_compile hc "")
  cases hv : Graph.vigil.compile {} {} "vigil" "BTC"
  case mk compiled services =>
    rw [hv] at hc
    cases hc
    let s : Session := .new (Engine.sessionId 1) "vigil" Graph.vigil p {}
    let stopped : Session := { s with active := false }
    let x : Scene := ((new {} {} .epoch).serve services).add s
    let u : IndicatorUpdate := { symbol := "BTC" }
    have live : x.engine.session? s.id = some s := List.find?_cons_of_pos (by simp)
    have session : (x.remove s).session? s.id = some s := by
      simp [Scene.session?, Scene.sessions, Scene.remove, x, Scene.add, Scene.serve, new,
        Engine.new]
    have late : ((x.remove s).put stopped).session? s.id = some stopped := by
      rw [Scene.session?_put, session]
      simp [stopped]
    have collects {free : String → Prop} :
        Handling.Moves free x (.first x u) .silent x (.collecting u [s.id] [s.id]) :=
      .collect (List.mem_singleton.mpr rfl) symbol List.not_mem_nil
    have spawns {free : String → Prop} :
        Handling.Moves free x (.collecting u [s.id] [s.id]) .silent x (.running u [.due s.id]) :=
      .spawn fun t ht _ _ =>
        List.mem_singleton.mpr <| congrArg Session.id <| List.mem_singleton.mp ht
    have lapses {free : String → Prop} (lock : free s.id) :
        Handling.Moves free ((x.remove s).put stopped) (.running u [.due s.id]) .silent
          ((x.remove s).put stopped) (.running u []) :=
      .errand (l := []) (r := []) <| .lapse lock late rfl
    have path : Path Step (new {} {} .epoch)
        ([_, _, _, _, _, _, _, _] ++ (.stopped s.id, _) :: [_, _]) :=
      .cons (.call <| .start "vigil" Graph.vigil "BTC") <|
      .cons (.works <| .task (l := []) (r := []) rfl <| .compile hv) <|
      .cons (.works <| .task (l := []) (r := []) rfl .deploy) <|
      .cons (.call <| .update u) <|
      .cons (.works <| .task (l := []) (r := []) rfl <| .update collects) <|
      .cons (.works <| .task (l := []) (r := []) rfl <| .update spawns) <|
      .cons (.call <| .stop s.id) <|
      .cons (.works <| .task (l := [_]) (r := []) rfl <| .remove live) <|
      .cons (.works <| .task (l := [_]) (r := []) rfl <| .deactivate List.not_mem_nil session) <|
      .cons (.works <| .task (l := []) (r := []) rfl <|
        .update <| lapses List.not_mem_nil) <|
      .cons (.works <| .task (l := []) (r := []) rfl .join) .nil
    exact ⟨_, _, _, path, rfl, stopped_for_good {} {} .epoch path⟩

end World

end SignalFlow
