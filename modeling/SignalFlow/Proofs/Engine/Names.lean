import SignalFlow.Proofs.Engine.Tasks

/-!
Which sessions there are while tasks come and go. A session that was taken off the table never comes
back: its name is not given to another one, and it is stopped by the task that took it off alone.
-/

namespace SignalFlow

namespace Scene

variable {x : Scene} {s : Session}

-- The sessions on the table and off it, by their ids, and how many were ever started.
def names (x : Scene) : List String × List String × Nat :=
  (x.engine.sessions.map Session.id, x.offstage.map Session.id, x.engine.started)

def ids (x : Scene) : List String :=
  x.sessions.map Session.id

theorem ids_eq : x.ids = x.names.1 ++ x.names.2.1 :=
  List.map_append

theorem ids_put {l : List Session} :
    (l.map fun old => if old.id = s.id then s else old).map Session.id = l.map Session.id := by
  rw [List.map_map]
  refine List.map_congr_left fun old _ => ?_
  rw [Function.comp_apply]
  split
  case isTrue hi => exact hi.symm
  case isFalse   => rfl

theorem names_put : (x.put s).names = x.names :=
  congrArg₂ (·, ·, x.engine.started) ids_put ids_put

theorem names_add :
    (x.add s).names = (x.names.1 ++ [s.id], x.names.2.1, x.engine.started + 1) := by
  simp [names, add]

theorem names_remove :
    (x.remove s).names =
      (x.names.1.filter (· ≠ s.id), x.names.2.1 ++ [s.id], x.engine.started) := by
  simp [names, remove, List.filter_map, Function.comp_def]

end Scene

section Errand

variable {free : String → Prop} {snapshot : Snapshot} {x x' : Scene} {errand : Errand} {d : Deed}
  {errand? : Option Errand}

-- The session that the errand is about.
def Errand.id : Errand → String
  | .due id | .ticking id _ _ _ | .publishing id _ => id

theorem Errand.Moves.names (h : errand.Moves free snapshot x d x' errand?) :
    x'.names = x.names := by
  cases h
  case breakOff | record => exact Scene.names_put
  all_goals rfl

theorem Errand.Moves.id (h : errand.Moves free snapshot x d x' errand?) :
    ∀ next ∈ errand?, next.id = errand.id := by
  cases h
  case lapse | breakOff | release                => nofun
  case begin | run | store | record | publish => simp [Errand.id]

end Errand

namespace Handling

variable {free : String → Prop} {x x' : Scene} {h h' : Handling} {d : Deed}

-- The sessions that the update has got hold of.
def ids : Handling → List String
  | .collecting _ _ found => found
  | .running _ errands    => errands.map Errand.id

theorem Moves.names (hm : h.Moves free x d x' h') : x'.names = x.names := by
  cases hm
  case collect | spawn => rfl
  case errand hm       => exact hm.names

theorem Moves.ids (hm : h.Moves free x d x' h') :
    ∀ id ∈ h'.ids, id ∈ h.ids ∨ id ∈ x.ids := by
  cases hm
  case collect s live _ _ =>
    intro id hi
    cases List.mem_append.mp hi
    case inl hi => exact .inl hi
    case inr hi =>
      cases List.mem_singleton.mp hi
      exact .inr <| List.mem_map_of_mem <| List.mem_append_left _ live
  case spawn found _ =>
    intro id hi
    simp [Handling.ids, Errand.id] at hi ⊢
    exact .inl hi
  case errand u l r errand errand? hm =>
    intro id hi
    have hid := hm.id
    simp only [Handling.ids, List.map_append, List.map_cons, List.mem_append, List.mem_cons] at hi ⊢
    grind

end Handling

namespace Task

variable {free : String → Prop} {x x' : Scene} {t : Task} {d : Deed} {t? : Option Task}

-- The sessions that the task has got hold of.
def ids : Task → List String
  | .update h                                          => h.ids
  | .stopping id | .awaiting id _ | .reloading id _ => [id]
  | _                                                  => []

-- The sessions that the task is about to stop.
def stops : Task → List String
  | .stopping id => [id]
  | _            => []

-- What a move does to the table, and what it gets hold of.
inductive Reshapes (x : Scene) (t : Task) (x' : Scene) : Option Task → Prop
  | kept {t? : Option Task} (names : x'.names = x.names)
    (stops : (t?.toList.flatMap stops).Sublist t.stops)
    (ids : ∀ next ∈ t?, ∀ id ∈ next.ids, id ∈ t.ids ∨ id ∈ x.ids) :
    Reshapes x t x' t?
  | deployed (names : x'.names = (x.names.1 ++ [Engine.sessionId (x.engine.started + 1)],
      x.names.2.1, x.engine.started + 1)) : Reshapes x t x' none
  | removed {id : String} (live : id ∈ x.names.1)
    (names : x'.names = (x.names.1.filter (· ≠ id), x.names.2.1 ++ [id], x.engine.started)) :
    Reshapes x t x' (some <| .stopping id)

section Reshapes

variable {id : String}

theorem Reshapes.mem_ids (h : Reshapes x t x' t?) (hi : id ∈ x.ids) : id ∈ x'.ids := by
  rw [Scene.ids_eq] at hi ⊢
  cases h
  case kept names _ _       => rwa [names]
  case deployed names       => rw [names]; grind
  case removed _ _ names => rw [names]; grind

theorem Reshapes.mem_ids_or (h : Reshapes x t x' t?) (hi : id ∈ x'.ids) :
    id ∈ x.ids ∨
      id = Engine.sessionId (x.engine.started + 1) ∧ x'.engine.started = x.engine.started + 1 := by
  rw [Scene.ids_eq] at hi ⊢
  cases h
  case kept names _ _          => exact .inl <| names ▸ hi
  case removed live names   => rw [names] at hi; grind
  case deployed names          =>
    have started : x'.engine.started = x.engine.started + 1 := congrArg (·.2.2) names
    rw [names] at hi
    grind

theorem Reshapes.started_le (h : Reshapes x t x' t?) : x.names.2.2 ≤ x'.names.2.2 := by
  cases h
  case kept names _ _       => rw [names]
  case deployed names       => rw [names]; exact Nat.le_succ _
  case removed _ _ names => rw [names]; exact Nat.le_refl _

theorem Reshapes.known (h : Reshapes x t x' t?) {next : Task} (hn : next ∈ t?)
    (hi : id ∈ next.ids) : id ∈ t.ids ∨ id ∈ x.ids := by
  cases h
  case kept ids            => exact ids next hn id hi
  case deployed            => nomatch hn
  case removed id' live _ =>
    cases hn
    rw [List.mem_singleton.mp hi, Scene.ids_eq]
    exact .inr <| List.mem_append_left _ live

end Reshapes

theorem Moves.reshapes (hm : t.Moves free x d x' t?) : Reshapes x t x' t? := by
  cases hm
  case update hm                                     =>
    exact .kept hm.names (by simp [stops]) (by simpa [ids] using hm.ids)
  case deploy                                        => exact .deployed Scene.names_add
  case remove live                                   =>
    have ⟨hs, hi⟩ := Engine.session?_some live
    exact hi ▸ .removed (List.mem_map_of_mem hs) Scene.names_remove
  case capture live                                  =>
    have ⟨hs, hi⟩ := Engine.session?_some live
    refine .kept rfl (by simp [stops]) fun _ he _ hid => .inr ?_
    cases he
    rw [List.mem_singleton.mp hid, ←hi]
    exact List.mem_map_of_mem <| List.mem_append_left _ hs
  case deactivate | replace                          =>
    exact .kept Scene.names_put (by simp) (by simp)
  case compile | seize                               =>
    exact .kept rfl (by simp [stops]) (by simp [ids])
  case join | refuse | reject | miss | keep          => exact .kept rfl (by simp) (by simp)

end Task

namespace World

variable {w w' : World} {d : Deed}

-- What a step does to sessions, it does as that of a job. Otherwise a call may come in or the loop
-- take an update, and nobody has got hold of anything.
inductive Change (w : World) (d : Deed) (w' : World) : Prop
  | job {l r : List Task} {t : Task} {t? : Option Task} (before : w.jobs = l ++ t :: r)
    (moves : t.Moves w.Free w.toScene d w'.toScene t?) (after : w'.jobs = l ++ t?.toList ++ r)
  | other (table : w'.engine.sessions = w.engine.sessions) (offstage : w'.offstage = w.offstage)
    (started : w'.engine.started = w.engine.started)
    (stops : w'.jobs.flatMap Task.stops = w.jobs.flatMap Task.stops)
    (jobs : ∀ t ∈ w'.jobs, t ∈ w.jobs ∨ t.ids = [] ∧ t.held = []) (deed : ∀ id, ¬d.Concerns id)

theorem Step.change (h : w.Step d w') : w.Change d w' := by
  have same (h : w'.jobs = w.jobs) : ∀ t ∈ w'.jobs, t ∈ w.jobs ∨ t.ids = [] ∧ t.held = [] :=
    h ▸ fun _ ht => .inl ht
  cases h
  case works hw =>
    cases hw
    case task l r t x t? ht hm =>
      have before : w.jobs = (w.loop.map .update).toList ++ l ++ t :: r := by simp [jobs, ht]
      exact .job before hm <| by simp [jobs]
    case handle h h' x hb hm =>
      have before : w.jobs = [] ++ .update h :: w.tasks := by simp [jobs, hb]
      exact .job before (.update hm) <| by simp [jobs]
    case take hi hn =>
      refine .other rfl rfl rfl (by simp [jobs, hi, Task.stops]) ?_ fun _ => (·)
      simp +contextual [jobs, hi, Task.ids, Task.held, Handling.first, Handling.ids, Handling.held]
    case finish u hb =>
      refine .other rfl rfl rfl (by simp [jobs, hb, Task.stops]) ?_ fun _ => (·)
      simp +contextual [jobs, hb]
    case pass | lag => exact .other rfl rfl rfl rfl (same rfl) fun _ => (·)
  case call c =>
    cases c
    case meanwhile => exact .other rfl rfl rfl rfl (same rfl) fun _ => (·)
    all_goals
      refine .other rfl rfl rfl (by simp [jobs, receive, Task.stops]) ?_ fun _ => (·)
      simp [jobs, receive, Task.ids, Task.held, Handling.first, Handling.ids, Handling.held]
      grind
  case tell | aside => exact .other rfl rfl rfl rfl (same rfl) fun _ => (·)

theorem mem_or_of_mem {l r : List Task} {t t' : Task} {t? : Option Task}
    (before : w.jobs = l ++ t :: r) (after : w'.jobs = l ++ t?.toList ++ r) (ht : t' ∈ w'.jobs) :
    t' ∈ w.jobs ∨ t' ∈ t? := by
  simp only [before, after, List.mem_append, List.mem_cons, Option.mem_toList] at ht ⊢
  grind

-- What holds of a world at any time. Sessions that were taken off the table keep their names, and
-- nobody else stops them.
structure Sound (w : World) : Prop where
  numbered : ∀ id ∈ w.ids, ∃ n, n ≤ w.engine.started ∧ id = Engine.sessionId n
  apart    : (w.names.1 ++ w.jobs.flatMap Task.stops).Nodup
  known    : ∀ t ∈ w.jobs, ∀ id ∈ t.ids, id ∈ w.ids

theorem sound_new (setup : Setup) (services : Services) (clock : Instant) :
    (new setup services clock).Sound :=
  ⟨nofun, .nil, nofun⟩

-- The number of a new session is not that of another one.
theorem Sound.fresh (h : w.Sound) : Engine.sessionId (w.engine.started + 1) ∉ w.ids := by
  intro hi
  have ⟨n, hn, he⟩ := h.numbered _ hi
  have := Engine.sessionId_inj he
  omega

theorem Sound.mem_ids_of_mem_stops (h : w.Sound) {id : String}
    (hi : id ∈ w.jobs.flatMap Task.stops) : id ∈ w.ids := by
  have ⟨t, ht, hi⟩ := List.mem_flatMap.mp hi
  refine h.known t ht id ?_
  cases t
  case stopping => exact hi
  all_goals nomatch hi

-- Whatever is taken off the table is stopped by the task that took it off, and by no other one.
theorem Sound.apart_change (h : w.Sound) {l r : List Task} {t : Task} {t? : Option Task}
    (before : w.jobs = l ++ t :: r) (shape : t.Reshapes w.toScene w'.toScene t?)
    (after : w'.jobs = l ++ t?.toList ++ r) :
    (w'.names.1 ++ w'.jobs.flatMap Task.stops).Nodup := by
  have apart := h.apart
  have others : (w.names.1 ++ (l ++ r).flatMap Task.stops).Nodup := by
    refine apart.sublist <| .append (.refl _) ?_
    simp only [before, List.flatMap_append, List.flatMap_cons]
    exact .append (.refl _) <| List.sublist_append_right ..
  cases shape
  case kept names stops ids =>
    refine names ▸ after ▸ apart.sublist ?_
    simp only [before, List.flatMap_append, List.flatMap_cons, List.append_assoc]
    exact .append (.refl _) <| .append (.refl _) <| .append stops (.refl _)
  case deployed names =>
    have fresh : Engine.sessionId (w.engine.started + 1) ∉
        w.names.1 ++ (l ++ r).flatMap Task.stops := by
      intro hi
      refine h.fresh ?_
      cases List.mem_append.mp hi
      case inl hi => exact w.ids_eq ▸ List.mem_append_left _ hi
      case inr hi =>
        refine h.mem_ids_of_mem_stops <| before ▸ ?_
        simp only [List.flatMap_append, List.flatMap_cons, List.mem_append] at hi ⊢
        exact hi.imp_right .inr
    rw [names, after, List.append_assoc]
    simpa using List.perm_middle.nodup_iff.mpr <| List.nodup_cons.mpr ⟨fresh, others⟩
  case removed id live names =>
    have hid : id ∉ w.names.1.filter (· ≠ id) ++ (l ++ r).flatMap Task.stops := by
      simpa using List.disjoint_of_nodup_append others live
    have hn := List.nodup_cons.mpr ⟨hid, others.sublist <| .append List.filter_sublist (.refl _)⟩
    have hp := @List.perm_middle _ id (w.names.1.filter (· ≠ id) ++ l.flatMap Task.stops)
      (r.flatMap Task.stops)
    rw [names, after]
    simpa [Task.stops] using hp.nodup_iff.mpr <| by simpa using hn

theorem Sound.change (h : w.Sound) (hc : w.Change d w') : w'.Sound := by
  cases hc
  case other table offstage started stops jobs _ =>
    have names : w'.names = w.names := by simp only [Scene.names, table, offstage, started]
    have ids : w'.ids = w.ids := by rw [Scene.ids_eq, names, Scene.ids_eq]
    refine ⟨ids ▸ started ▸ h.numbered, names ▸ stops ▸ h.apart, ids ▸ fun t ht id hi => ?_⟩
    cases jobs t ht
    case inl ht => exact h.known t ht id hi
    case inr ht => rw [ht.left] at hi; nomatch hi
  case job l r t t? before moves after =>
    have shape := moves.reshapes
    refine ⟨fun id hi => ?_, h.apart_change before shape after, fun t' ht' id hi => ?_⟩
    case refine_1 =>
      cases shape.mem_ids_or hi
      case inl hi =>
        have ⟨n, hn, hi⟩ := h.numbered id hi
        exact ⟨n, hn.trans shape.started_le, hi⟩
      case inr hi => exact ⟨_, hi.right.ge, hi.left⟩
    case refine_2 =>
      refine shape.mem_ids ?_
      cases mem_or_of_mem before after ht'
      case inl ht' => exact h.known t' ht' id hi
      case inr ht' =>
        have ht : t ∈ w.jobs := before ▸ by simp
        exact (shape.known ht' hi).elim (h.known t ht id) (·)

theorem Sound.last (h : w.Sound) {steps : List (Deed × World)}
    (hp : Path Step w steps) : (w.last steps).Sound := by
  induction hp
  case nil          => exact h
  case cons hs _ hi => exact hi (h.change hs.change)

end World

end SignalFlow
