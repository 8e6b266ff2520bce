import SignalFlow.Proofs.Engine.Tasks

/-!
What the loop of an engine hears. Updates that are told to the engine and signals that its own
sessions emit go through one bus, and the loop takes them from there one after the other. It loses
nothing as long as no more of them wait than the bus has room for.
-/

namespace SignalFlow

namespace World

variable {w w' : World} {d : Deed} {steps : List (Deed × World)}

-- The update that the loop is in, and those that wait for it.
def underway (w : World) : List IndicatorUpdate :=
  (w.loop.map Handling.update).toList

def waiting (w : World) : List IndicatorUpdate :=
  (w.engine.bus.pending listener).filterMap Event.update?

-- How many events are before the loop, updates and signals together.
def backlog (w : World) : Nat :=
  w.engine.bus.backlog listener

def room (w : World) : Nat :=
  w.engine.bus.capacity

structure Listens (w : World) : Prop where
  regular    : w.engine.bus.Regular
  subscribed : w.engine.bus.Subscribed listener

theorem stands_new (setup : Setup) (services : Services) (clock : Instant) :
    (new setup services clock).engine.bus.Stands listener
      (max 1 setup.config.eventCapacity).nextPowerOfTwo [] 0 :=
  (Bus.regular_new _).stands_subscribe listener

theorem listens_new (setup : Setup) (services : Services) (clock : Instant) :
    (new setup services clock).Listens :=
  have h := stands_new setup services clock
  ⟨h.regular, h.subscribed⟩

-- A step in which the loop loses nothing, and one in which it may.
structure Hears (w : World) (d : Deed) (w' : World) : Prop where
  listens : w'.Listens
  room    : w'.room = w.room
  order   : (d.handled?.toList ++ (w'.underway ++ w'.waiting)).Sublist
    (w.underway ++ w.waiting ++ d.told?.toList)
  all     : w'.backlog ≤ w.room → d.handled?.toList ++ (w'.underway ++ w'.waiting) =
    w.underway ++ w.waiting ++ d.told?.toList

theorem Listens.publish (h : w.Listens) (event : Event)
    (bus : w'.engine.bus = w.engine.bus.publish event) :
    w'.Listens ∧ w'.room = w.room ∧
      w'.waiting.Sublist (w.waiting ++ event.update?.toList) ∧
      (w'.backlog ≤ w.room → w'.waiting = w.waiting ++ event.update?.toList) := by
  have last : [event].filterMap Event.update? = event.update?.toList := by
    cases event <;> rfl
  have capacity : w'.room = w.room := by
    rw [room, room, bus, Bus.publish_of_subscribed h.subscribed]
  refine ⟨⟨bus ▸ h.regular.publish, bus ▸ Bus.subscribed_publish h.subscribed⟩, capacity, ?_,
    fun hr => ?_⟩
  case refine_1 =>
    rw [waiting, waiting, bus, ←last, ←List.filterMap_append]
    exact (Bus.pending_publish_suffix h.regular h.subscribed).sublist.filterMap _
  case refine_2 =>
    rw [backlog, bus] at hr
    rw [waiting, waiting, bus, Bus.pending_publish h.regular h.subscribed hr, List.filterMap_append,
      last]

theorem Hears.of_eq (h : w'.Listens) (hc : w'.room = w.room)
    (he : d.handled?.toList ++ (w'.underway ++ w'.waiting) =
      w.underway ++ w.waiting ++ d.told?.toList) : w.Hears d w' :=
  ⟨h, hc, he ▸ .refl _, fun _ => he⟩

-- The loop gets something from the bus.
theorem Hears.of_next? {receipt : Bus.Receipt Event} (h : w.Listens)
    (hn : w.engine.bus.next? listener = some (receipt, w'.engine.bus))
    (he : d.handled?.toList ++ (w'.underway ++ w'.waiting) =
      w.underway ++ w.waiting ++ d.told?.toList) : w.Hears d w' :=
  have hg := Bus.gives_of_next? hn
  .of_eq ⟨h.regular.gives hg, Bus.subscribed_gives hg⟩ (Bus.capacity_gives hg) he

-- Signals do not wait for anybody, but they take up room.
theorem Hears.of_tells (h : w.Listens) (ht : w.Tells d w'.toScene)
    (hu : w'.underway = w.underway) : w.Hears d w' := by
  have ⟨told, handled, event⟩ := ht.inner
  have bus := ht.bus
  cases he : d.event?
  case none =>
    rw [he, Option.elim_none] at bus
    refine .of_eq ⟨bus ▸ h.regular, bus ▸ h.subscribed⟩ (congrArg Bus.capacity bus) ?_
    simp [told, handled, hu, waiting, bus]
  case some e =>
    rw [he, Option.elim_some] at bus
    have ⟨listens, room, order, all⟩ := h.publish e bus
    rw [event e he, Option.toList_none, List.append_nil] at order all
    refine ⟨listens, room, ?_, fun hr => ?_⟩
    · simpa [told, handled, hu] using order
    · simp [told, handled, hu, all hr]

theorem Step.hears (h : w.Listens) (hs : w.Step d w') : w.Hears d w' := by
  cases hs
  case works hw =>
    cases hw
    case task hm         => exact .of_tells h hm.tells rfl
    case handle hb hm    =>
      refine .of_tells h hm.tells.left ?_
      simp [underway, hb, hm.tells.right]
    case take hi hn      =>
      have pending := Bus.pending_of_gives_event h.regular <| Bus.gives_of_next? hn
      refine .of_next? h hn ?_
      simp [underway, waiting, hi, pending, Event.update?, Deed.told?, Deed.handled?,
        Handling.first, Handling.update]
    case pass hn         =>
      have pending := Bus.pending_of_gives_event h.regular <| Bus.gives_of_next? hn
      refine .of_next? h hn ?_
      simp [underway, waiting, pending, List.filterMap_cons, Event.update?, Deed.told?,
        Deed.handled?]
    case lag hn          =>
      have pending := Bus.pending_of_gives_lagged h.regular <| Bus.gives_of_next? hn
      refine .of_next? h hn ?_
      simp [underway, waiting, pending, Deed.told?, Deed.handled?]
    case finish u hb     =>
      refine .of_eq ⟨h.regular, h.subscribed⟩ rfl ?_
      simp [underway, waiting, hb, Deed.told?, Deed.handled?, Handling.update]
  case call c =>
    have same : (w.receive c).engine.bus = w.engine.bus ∧ (w.receive c).loop = w.loop := by
      cases c <;> exact ⟨rfl, rfl⟩
    refine .of_eq ⟨same.left ▸ h.regular, same.left ▸ h.subscribed⟩
      (congrArg Bus.capacity same.left) ?_
    simp [underway, waiting, same, Deed.told?, Deed.handled?]
  case tell event =>
    have publish : ∀ w' : World, w'.engine.bus = w.engine.bus.publish event → _ :=
      fun _ => h.publish event
    obtain ⟨listens, room, order, all⟩ := publish { w with toScene := w.publish event } rfl
    refine ⟨listens, room, ?_, fun hr => ?_⟩
    · simpa [underway, Deed.told?, Deed.handled?] using order
    · simp [underway, Deed.told?, Deed.handled?, all hr]
  case aside ha =>
    refine .of_eq ⟨h.regular.aside ha, Bus.subscribed_aside ha h.subscribed⟩
      (Bus.capacity_aside ha) ?_
    simp [underway, waiting, Bus.pending_aside ha, Deed.told?, Deed.handled?]

-- What was published once was published.
theorem Step.published_le (hs : w.Step d w') :
    w.engine.bus.published ≤ w'.engine.bus.published := by
  have tells {x : Scene} (ht : w.Tells d x) : w.engine.bus.published ≤ x.engine.bus.published := by
    rw [ht.bus]
    cases d.event?
    case none   => exact Nat.le_refl _
    case some _ => exact Bus.published_le_publish
  cases hs
  case works hw =>
    cases hw
    case task hm                     => exact tells hm.tells
    case handle hm                   => exact tells hm.tells.left
    case take hn | pass hn | lag hn => exact (Bus.published_gives <| Bus.gives_of_next? hn).ge
    case finish                      => exact Nat.le_refl _
  case call c   => cases c <;> exact Nat.le_refl _
  case tell     => exact Bus.published_le_publish
  case aside ha => exact (Bus.published_aside ha).ge

-- At no time more events are before the loop than are published in the end.
theorem Path.backlog_le (hp : Path Step w steps) :
    w.engine.bus.published ≤ (w.last steps).engine.bus.published ∧
      ∀ step ∈ steps, step.2.backlog ≤ (w.last steps).engine.bus.published := by
  induction hp
  case nil => exact ⟨Nat.le_refl _, List.forall_mem_nil _⟩
  case cons hs _ hi =>
    have ⟨le, all⟩ := hi
    exact ⟨hs.published_le.trans le,
      List.forall_mem_cons.mpr ⟨Bus.backlog_le_published.trans le, all⟩⟩

theorem Listens.path (h : w.Listens) (hp : Path Step w steps) :
    let w' := w.last steps
    w'.Listens ∧ w'.room = w.room ∧
    (handled steps ++ (w'.underway ++ w'.waiting)).Sublist (w.underway ++ w.waiting ++ told steps) ∧
    ((∀ step ∈ steps, step.2.backlog ≤ w.room) →
      handled steps ++ (w'.underway ++ w'.waiting) = w.underway ++ w.waiting ++ told steps) := by
  induction hp
  case nil => exact ⟨h, rfl, by simp [handled, told, last], fun _ => by simp [handled, told, last]⟩
  case cons w w' d later hs hp hi =>
    obtain ⟨listens, room, order, all⟩ := hs.hears h
    obtain ⟨listens', room', order', all'⟩ := hi listens
    have cons {f : Deed → Option IndicatorUpdate} : ((d, w') :: later).filterMap (f ·.1) =
        (f d).toList ++ later.filterMap (f ·.1) := by
      rw [List.filterMap_cons]
      cases f d <;> rfl
    have hl : w.last ((d, w') :: later) = w'.last later := rfl
    rw [handled, told, cons, cons, hl]
    refine ⟨listens', room'.trans room, ?_, fun hr => ?_⟩
    case refine_1 =>
      have first := order'.append_left d.handled?.toList
      have rest := order.append_right (told later)
      simp only [List.append_assoc] at first rest ⊢
      exact first.trans rest
    case refine_2 =>
      obtain ⟨hw, hr⟩ := List.forall_mem_cons.mp hr
      rw [List.append_assoc, ←handled, all' <| room ▸ hr, ←List.append_assoc, all hw]
      simp [told]

end World

end SignalFlow
