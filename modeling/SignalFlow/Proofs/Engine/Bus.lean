import SignalFlow.Engine.Bus
import SignalFlow.Proofs.Dict

/-!
A bus as one of its subscribers sees it, who takes one event after the other. Events come in the
order in which they were published, and none is lost as long as no more of them wait than the bus
has room for.
-/

namespace SignalFlow

namespace Bus

variable {α : Type} {b b' : Bus α} {name other : String} {event : α} {l : List α} {m n : Nat}

theorem length_newest : (newest n l).length = min n l.length := by
  rw [newest, List.length_drop]
  omega

theorem newest_newest : newest m (newest n l) = newest (min m n) l := by
  simp only [newest, List.drop_drop, List.length_drop]
  congr 1
  omega

theorem newest_succ_concat : newest (n + 1) (l ++ [event]) = newest n l ++ [event] := by
  rw [newest, newest, List.length_append, List.length_singleton, Nat.add_sub_add_right,
    List.drop_append_of_le_length (Nat.sub_le ..)]

theorem newest_suffix (h : m ≤ n) : newest m l <:+ newest n l := by
  rw [←Nat.min_eq_left h, ←newest_newest]
  exact List.drop_suffix ..

-- What a subscriber gets that takes one event after the other.
inductive Receipt (α : Type) where
  | event (event : α)
  -- so many events have been lost
  | lagged (count : Nat)

def moveTo (b : Bus α) (name : String) (position : Nat) : Bus α :=
  { b with positions := b.positions.insert name position }

-- The next that a subscriber gets, if anything waits for it. A loss is reported on its own, and
-- then the subscriber goes on with what is left.
def next? (b : Bus α) (name : String) : Option (Receipt α × Bus α) :=
  match b.positions.get? name with
  | none          => none
  | some position =>
    match b.waiting position with
    | ⟨0, []⟩         => none
    | ⟨0, event :: _⟩ => some (.event event, b.moveTo name (position + 1))
    | ⟨lost + 1, _⟩   => some (.lagged (lost + 1), b.moveTo name (position + (lost + 1)))

-- The events that wait for a subscriber.
def pending (b : Bus α) (name : String) : List α :=
  (b.receive name).1.events

-- How many events a subscriber has not passed yet, whether they are still there or not.
def backlog (b : Bus α) (name : String) : Nat :=
  ((b.positions.get? name).map (b.published - ·)).getD 0

def Subscribed (b : Bus α) (name : String) : Prop :=
  ∃ position, b.positions.get? name = some position

-- What holds of a bus at any time.
structure Regular (b : Bus α) : Prop where
  room      : 0 < b.capacity
  kept      : b.kept.length = min b.published b.capacity
  positions : ∀ name position, b.positions.get? name = some position → position ≤ b.published

-- What a bus gives to a subscriber, told by case.
inductive Gives (b : Bus α) (name : String) : Receipt α → Bus α → Prop
  | event {position : Nat} {event : α} {rest : List α}
    (here : b.positions.get? name = some position)
    (waiting : b.waiting position = ⟨0, event :: rest⟩) :
    Gives b name (.event event) (b.moveTo name (position + 1))
  | lagged {position lost : Nat} {events : List α}
    (here : b.positions.get? name = some position)
    (waiting : b.waiting position = ⟨lost + 1, events⟩) :
    Gives b name (.lagged (lost + 1)) (b.moveTo name (position + (lost + 1)))

theorem gives_of_next? {receipt : Receipt α} (h : b.next? name = some (receipt, b')) :
    b.Gives name receipt b' := by
  rw [next?] at h
  split at h
  case h_1 => nomatch h
  case h_2 hp =>
    split at h
    case h_1    => nomatch h
    case h_2 hw => cases h; exact .event hp hw
    case h_3 hw => cases h; exact .lagged hp hw

theorem get?_moveTo {position : Nat} :
    (b.moveTo name position).positions.get? other =
      if other = name then some position else b.positions.get? other :=
  Dict.get?_insert ..

theorem backlog_eq {position : Nat} (h : b.positions.get? name = some position) :
    b.backlog name = b.published - position := by
  rw [backlog, h]
  rfl

theorem pending_eq : b.pending name = newest (b.backlog name) b.kept := by
  rw [pending, receive, backlog]
  cases b.positions.get? name
  case none   => simp [newest]
  case some _ => rfl

theorem subscribed_publish (h : b.Subscribed name) : (b.publish event).Subscribed name := by
  rw [publish]
  split <;> exact h

-- Somebody listens, so that the bus keeps the event.
theorem publish_of_subscribed (h : b.Subscribed name) :
    b.publish event = { b with
      published := b.published + 1
      kept      := newest b.capacity (b.kept ++ [event]) } := by
  obtain ⟨position, h⟩ := h
  rw [publish, if_neg]
  intro he
  rw [Dict.isEmpty, List.isEmpty_iff] at he
  rw [Dict.get?, he] at h
  cases h

theorem regular_new (capacity : Nat) : (new capacity : Bus α).Regular where
  room      := have ⟨k, hk⟩ := Nat.isPowerOfTwo_nextPowerOfTwo (max 1 capacity)
    Nat.lt_of_lt_of_eq (Nat.two_pow_pos k) hk.symm
  kept      := (Nat.zero_min _).symm
  positions := nofun

theorem Regular.publish (h : b.Regular) : (b.publish event).Regular := by
  rw [Bus.publish]
  split
  case isTrue  => exact h
  case isFalse =>
    refine ⟨h.room, ?_, fun name position hp => Nat.le_succ_of_le <| h.positions name position hp⟩
    have := h.kept
    simp only [length_newest, List.length_append, List.length_singleton]
    omega

theorem Regular.moveTo (h : b.Regular) {position : Nat} (hp : position ≤ b.published) :
    (b.moveTo name position).Regular := by
  refine ⟨h.room, h.kept, fun other position' ho => ?_⟩
  rw [get?_moveTo] at ho
  split at ho
  case isTrue  => cases ho; exact hp
  case isFalse => exact h.positions other position' ho

theorem Regular.gives (h : b.Regular) {receipt : Receipt α} (hg : b.Gives name receipt b') :
    b'.Regular := by
  cases hg
  case event position event rest hp hw =>
    have hl := congrArg (·.events.length) hw
    simp only [waiting, length_newest, List.length_cons] at hl
    exact h.moveTo (by omega)
  case lagged position lost events hp hw =>
    have hl := congrArg Waiting.lost hw
    simp only [waiting] at hl
    exact h.moveTo (by omega)

theorem subscribed_gives {receipt : Receipt α} (hg : b.Gives name receipt b') :
    b'.Subscribed name := by
  cases hg
  case event | lagged => exact ⟨_, get?_moveTo.trans <| if_pos rfl⟩

theorem capacity_gives {receipt : Receipt α} (hg : b.Gives name receipt b') :
    b'.capacity = b.capacity := by
  cases hg <;> rfl

theorem published_gives {receipt : Receipt α} (hg : b.Gives name receipt b') :
    b'.published = b.published := by
  cases hg <;> rfl

theorem published_le_publish : b.published ≤ (b.publish event).published := by
  rw [publish]
  split
  case isTrue  => exact Nat.le_refl _
  case isFalse => exact Nat.le_succ _

theorem backlog_le_published : b.backlog name ≤ b.published := by
  rw [backlog]
  cases b.positions.get? name
  case none   => exact Nat.zero_le _
  case some _ => exact Nat.sub_le ..

theorem backlog_publish (h : b.Regular) (hs : b.Subscribed name) :
    (b.publish event).backlog name = b.backlog name + 1 := by
  have ⟨position, hp⟩ := hs
  have := h.positions name position hp
  rw [publish_of_subscribed hs, backlog, backlog_eq hp]
  dsimp only
  rw [hp]
  exact Nat.succ_sub this

-- A bus that is full drops an old event for the new one.
theorem pending_publish_eq (h : b.Regular) (hs : b.Subscribed name) :
    (b.publish event).pending name =
      newest (min (b.backlog name) (b.capacity - 1)) b.kept ++ [event] := by
  have hc : b.capacity = b.capacity - 1 + 1 := (Nat.sub_add_cancel h.room).symm
  rw [pending_eq, backlog_publish h hs, publish_of_subscribed hs, newest_newest, hc,
    Nat.add_min_add_right, newest_succ_concat, Nat.add_sub_cancel]

theorem pending_publish_suffix (h : b.Regular) (hs : b.Subscribed name) :
    (b.publish event).pending name <:+ b.pending name ++ [event] := by
  rw [pending_publish_eq h hs, pending_eq]
  refine (List.suffix_append_inj_of_length_eq rfl).mpr ⟨?_, rfl⟩
  exact newest_suffix <| Nat.min_le_left ..

theorem pending_publish (h : b.Regular) (hs : b.Subscribed name)
    (hb : (b.publish event).backlog name ≤ b.capacity) :
    (b.publish event).pending name = b.pending name ++ [event] := by
  rw [backlog_publish h hs] at hb
  rw [pending_publish_eq h hs, pending_eq, Nat.min_eq_left (Nat.le_sub_one_of_lt hb)]

theorem backlog_moveTo {position : Nat} :
    (b.moveTo name position).backlog name = b.published - position :=
  backlog_eq <| get?_moveTo.trans <| if_pos rfl

theorem receive_eq {position : Nat} (h : b.positions.get? name = some position) :
    b.receive name = (b.waiting position, b.moveTo name b.published) := by
  rw [receive, h]
  rfl

theorem receive_moveTo {position : Nat} :
    (b.moveTo name position).receive name = (b.waiting position, b.moveTo name b.published) := by
  have hm : (b.positions.insert name position).insert name b.published =
      b.positions.insert name b.published := by
    apply Dict.ext_get?
    intro k
    simp only [Dict.get?_insert]
    split <;> rfl
  rw [receive_eq <| get?_moveTo.trans <| if_pos rfl]
  simp only [moveTo, hm, waiting]

theorem newest_of_cons {rest : List α} (h : newest n l = event :: rest) (hn : n ≤ l.length) :
    0 < n ∧ newest (n - 1) l = rest := by
  have hl := congrArg List.length h
  rw [length_newest, List.length_cons] at hl
  have hs : newest (n - 1) l = (newest n l).tail := by
    rw [newest, newest, List.tail_drop]
    congr 1
    omega
  exact ⟨by omega, hs.trans <| h ▸ rfl⟩

-- Whoever takes one event after the other gets what is received at once.
theorem receive_of_gives_event (h : b.Regular) (hg : b.Gives name (.event event) b') :
    b.receive name = (⟨0, event :: (b'.receive name).1.events⟩, (b'.receive name).2) ∧
      b.backlog name = b'.backlog name + 1 ∧ b.backlog name ≤ b.capacity := by
  cases hg
  case event position rest hp hw =>
    have he := congrArg Waiting.events hw
    have hl := congrArg Waiting.lost hw
    have hk := h.kept
    simp only [waiting] at he hl
    have ⟨hn, ht⟩ := newest_of_cons he (by omega)
    rw [receive_eq hp, receive_moveTo, backlog_moveTo, backlog_eq hp, hw]
    simp only [waiting, Nat.sub_add_eq, ht]
    exact ⟨trivial, by omega, by omega⟩

-- A subscriber is told of a loss when more is before it than the bus has room for.
theorem receive_of_gives_lagged (h : b.Regular) (hg : b.Gives name (.lagged n) b') :
    b.receive name = (⟨n, (b'.receive name).1.events⟩, (b'.receive name).2) ∧
      b.backlog name = b.capacity + n ∧ b'.backlog name = b.capacity := by
  cases hg
  case lagged position lost events hp hw =>
    have he := congrArg Waiting.events hw
    have hl := congrArg Waiting.lost hw
    have hk := h.kept
    simp only [waiting] at he hl
    have ht : newest (b.published - (position + (lost + 1))) b.kept = events := by
      rw [←he, newest, newest]
      congr 1
      omega
    rw [receive_eq hp, receive_moveTo, backlog_moveTo, backlog_eq hp, hw]
    simp only [waiting, ht]
    exact ⟨trivial, by omega, by omega⟩

-- Whatever a subscriber gets, less is before it then.
theorem backlog_lt_of_gives (h : b.Regular) {receipt : Receipt α} (hg : b.Gives name receipt b') :
    b'.backlog name < b.backlog name := by
  cases hg
  case event hp hw  =>
    have := (receive_of_gives_event h <| .event hp hw).right.left
    omega
  case lagged hp hw =>
    have := (receive_of_gives_lagged h <| .lagged hp hw).right
    omega

theorem pending_of_gives_event (h : b.Regular) (hg : b.Gives name (.event event) b') :
    b.pending name = event :: b'.pending name :=
  congrArg (·.1.events) (receive_of_gives_event h hg).left

theorem pending_of_gives_lagged (h : b.Regular) (hg : b.Gives name (.lagged n) b') :
    b.pending name = b'.pending name :=
  congrArg (·.1.events) (receive_of_gives_lagged h hg).left

theorem exists_next? (h : 0 < b.backlog name) :
    ∃ receipt b', b.next? name = some (receipt, b') := by
  cases hp : b.positions.get? name
  case none          => simp [backlog, hp] at h
  case some position =>
    rw [backlog_eq hp] at h
    cases hw : b.waiting position
    case mk lost events =>
      simp only [next?, hp, hw]
      cases lost
      case succ lost => exact ⟨_, _, rfl⟩
      case zero      =>
        cases events
        case cons => exact ⟨_, _, rfl⟩
        case nil  =>
          have he := congrArg (·.events.length) hw
          have hl := congrArg Waiting.lost hw
          simp only [waiting, length_newest, List.length_nil] at he hl
          omega

section Stands

-- What is before a subscriber: the events that are left, and how many there were.
structure Stands (b : Bus α) (name : String) (capacity : Nat) (events : List α) (count : Nat) :
    Prop where
  regular    : b.Regular
  subscribed : b.Subscribed name
  capacity   : b.capacity = capacity
  pending    : b.pending name = events
  backlog    : b.backlog name = count

theorem Regular.stands_subscribe (h : b.Regular) (name : String) :
    (b.subscribe name).Stands name b.capacity [] 0 := by
  have backlog : (b.moveTo name b.published).backlog name = 0 :=
    backlog_moveTo.trans <| Nat.sub_self _
  refine ⟨h.moveTo <| Nat.le_refl _, ⟨_, get?_moveTo.trans <| if_pos rfl⟩, rfl, ?_, backlog⟩
  exact pending_eq.trans <| backlog ▸ List.drop_length

theorem Stands.publish (h : b.Stands name m l n) (event : α) :
    (b.publish event).Stands name m (newest (m - 1) l ++ [event]) (n + 1) := by
  refine ⟨h.regular.publish, subscribed_publish h.subscribed, ?_, ?_, ?_⟩
  case refine_1 => rw [publish_of_subscribed h.subscribed, h.capacity]
  case refine_2 =>
    rw [pending_publish_eq h.regular h.subscribed, Nat.min_comm, ←newest_newest, ←pending_eq,
      h.capacity, h.pending]
  case refine_3 => rw [backlog_publish h.regular h.subscribed, h.backlog]

theorem Stands.published_publish (h : b.Stands name m l n) (event : α) :
    (b.publish event).published = b.published + 1 := by
  rw [publish_of_subscribed h.subscribed]

theorem Stands.publish_of_lt (h : b.Stands name m l n) (hn : n < m) (event : α) :
    (b.publish event).Stands name m (l ++ [event]) (n + 1) := by
  have hp := h.publish event
  refine ⟨hp.regular, hp.subscribed, hp.capacity, ?_, hp.backlog⟩
  rw [pending_publish h.regular h.subscribed, h.pending]
  rw [hp.backlog, h.capacity]
  exact hn

theorem Stands.next (h : b.Stands name m (event :: l) (n + 1)) (hn : n < m) :
    ∃ b', b.next? name = some (.event event, b') ∧ b'.Stands name m l n ∧
      b'.published = b.published := by
  have ⟨receipt, b', hx⟩ := exists_next? <| Nat.lt_of_lt_of_eq n.succ_pos h.backlog.symm
  have hg := gives_of_next? hx
  cases receipt
  case lagged count =>
    have := (receive_of_gives_lagged h.regular hg).right.left
    have := h.backlog
    have := h.capacity
    cases hg
    omega
  case event event' =>
    have hp := pending_of_gives_event h.regular hg
    have hb := (receive_of_gives_event h.regular hg).right.left
    rw [h.pending, List.cons.injEq] at hp
    rw [h.backlog, Nat.add_right_cancel_iff] at hb
    rw [hp.left]
    exact ⟨b', hx, ⟨h.regular.gives hg, subscribed_gives hg, (capacity_gives hg).trans h.capacity,
      hp.right.symm, hb.symm⟩, published_gives hg⟩

theorem Stands.lagged (h : b.Stands name m l n) (hn : m < n) :
    ∃ b', b.next? name = some (.lagged (n - m), b') ∧ b'.Stands name m l m := by
  have ⟨receipt, b', hx⟩ := exists_next? <| Nat.lt_of_lt_of_eq (Nat.zero_lt_of_lt hn) h.backlog.symm
  have hg := gives_of_next? hx
  cases receipt
  case event event' =>
    have := (receive_of_gives_event h.regular hg).right.right
    have := h.backlog
    have := h.capacity
    omega
  case lagged count =>
    have hp := pending_of_gives_lagged h.regular hg
    have ⟨_, hc, hb⟩ := receive_of_gives_lagged h.regular hg
    rw [h.backlog, h.capacity] at hc
    rw [hc, Nat.add_sub_cancel_left]
    exact ⟨b', hx, h.regular.gives hg, subscribed_gives hg, (capacity_gives hg).trans h.capacity,
      hp.symm.trans h.pending, hb.trans h.capacity⟩

theorem Stands.next?_eq_none (h : b.Stands name m l 0) : b.next? name = none := by
  cases hx : b.next? name
  case none       => rfl
  case some given =>
    have hg := gives_of_next? hx
    have hb := h.backlog
    cases hr : given.1
    case event  =>
      rw [hr] at hg
      have := (receive_of_gives_event h.regular hg).right.left
      omega
    case lagged =>
      rw [hr] at hg
      have := (receive_of_gives_lagged h.regular hg).right.left
      have := h.regular.room
      omega

end Stands

section Aside

-- What other subscribers do to a bus.
inductive Aside (name : String) (b : Bus α) : Bus α → Prop
  | subscribe (other : String) (ne : other ≠ name) : Aside name b (b.subscribe other)
  | unsubscribe (other : String) (ne : other ≠ name) : Aside name b (b.unsubscribe other)
  | receive {other : String} {receipt : Receipt α} {b' : Bus α} (ne : other ≠ name)
    (next : b.next? other = some (receipt, b')) : Aside name b b'

theorem Regular.aside (h : b.Regular) (ha : b.Aside name b') : b'.Regular := by
  cases ha
  case subscribe other _ => exact h.moveTo (Nat.le_refl _)
  case unsubscribe other _ =>
    refine ⟨h.room, h.kept, fun third position hp => h.positions third position ?_⟩
    rw [Bus.unsubscribe, Dict.get?_erase] at hp
    split at hp
    case isTrue  => nomatch hp
    case isFalse => exact hp
  case receive hg => exact h.gives <| gives_of_next? hg

-- Others move nobody but themselves.
theorem aside_eq (ha : b.Aside name b') :
    ∃ positions : Dict Nat, b' = { b with positions } ∧
      positions.get? name = b.positions.get? name := by
  cases ha
  case subscribe other hn =>
    exact ⟨_, rfl, by rw [Dict.get?_insert, if_neg hn.symm]⟩
  case unsubscribe other hn =>
    exact ⟨_, rfl, by rw [Dict.get?_erase, if_neg hn.symm]⟩
  case receive other receipt hn hg =>
    cases gives_of_next? hg
    case event | lagged => exact ⟨_, rfl, by rw [Dict.get?_insert, if_neg hn.symm]⟩

theorem capacity_aside (ha : b.Aside name b') : b'.capacity = b.capacity := by
  have ⟨_, he, _⟩ := aside_eq ha
  rw [he]

theorem published_aside (ha : b.Aside name b') : b'.published = b.published := by
  have ⟨_, he, _⟩ := aside_eq ha
  rw [he]

theorem backlog_aside (ha : b.Aside name b') : b'.backlog name = b.backlog name := by
  have ⟨positions, he, hp⟩ := aside_eq ha
  rw [he, backlog, backlog, ←hp]

theorem pending_aside (ha : b.Aside name b') : b'.pending name = b.pending name := by
  have ⟨positions, he, hp⟩ := aside_eq ha
  rw [pending_eq, pending_eq, backlog_aside ha, he]

theorem subscribed_aside (ha : b.Aside name b') (hs : b.Subscribed name) : b'.Subscribed name := by
  have ⟨positions, he, hp⟩ := aside_eq ha
  rwa [Subscribed, he, hp]

end Aside

end Bus

end SignalFlow
