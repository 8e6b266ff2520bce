import Mathlib.Logic.Function.Basic
import SignalFlow.Proofs.Dict
import SignalFlow.StateStore

/-!
What a link to the store does to the entries of one strategy for one symbol, as long as its calls
find the store up.
-/

namespace SignalFlow

theorem StateKey.text_inj {strategy symbol a b : String} :
    text ⟨strategy, symbol, a⟩ = text ⟨strategy, symbol, b⟩ ↔ a = b := by
  have h (node : String) : text ⟨strategy, symbol, node⟩ =
    "strategy_state:" ++ strategy ++ ":" ++ symbol ++ ":" ++ node := rfl
  rw [h, h]
  exact String.append_right_inj _

namespace StateStore

section Get

variable {s : StateStore} {now : Int} {key other : StateKey}

-- Nothing is removed from a store before its time.
theorem get_eq (h : ∀ e ∈ s.entries.get? key.text, now < e.2) :
    s.get now key = ((s.entries.get? key.text).map Prod.fst, s) := by
  rw [get]
  cases he : s.entries.get? key.text
  case none   => rfl
  case some e => exact if_pos (h e he)

-- A read changes the store only if it meets an entry whose deadline has passed.
theorem get_of_le {e : Blob × Int} (he : s.entries.get? key.text = some e) (hn : e.2 ≤ now) :
    s.get now key = (none, ⟨s.entries.erase key.text⟩) := by
  rw [get, he]
  exact if_neg <| Int.not_lt.mpr hn

theorem fst_get : (s.get now key).1 =
    ((s.entries.get? key.text).filter fun e => now < e.2).map Prod.fst := by
  rw [get]
  cases s.entries.get? key.text
  case none   => rfl
  case some e => by_cases h : now < e.2 <;> simp [Option.filter_some, h]

-- What a read removes would not have been found anyway.
theorem fst_get_get : ((s.get now key).2.get now other).1 = (s.get now other).1 := by
  by_cases live : ∀ e ∈ s.entries.get? key.text, now < e.2
  case pos => rw [get_eq live]
  case neg =>
    have ⟨e, he, hn⟩ : ∃ e, s.entries.get? key.text = some e ∧ e.2 ≤ now := by simpa using live
    rw [get_of_le he hn, fst_get, fst_get, Dict.get?_erase]
    split
    case isFalse   => rfl
    case isTrue ht => simp [ht, he, Option.filter_some, Int.not_lt.mpr hn]

end Get

theorem put?_eq_some {s t : StateStore} {now : Int} {key : StateKey} {blob : Blob} {ttl : Nat}
    (h : s.put? now key blob ttl = some t) :
    t = ⟨s.entries.insert key.text (blob, now + ttl)⟩ := by
  simp only [put?, deadline?] at h
  split at h <;> cases h
  rfl

end StateStore

namespace StoreLink

-- The entries of a strategy for a symbol, by node.
def slots (l : StoreLink) (strategy symbol : String) : String → Option (Blob × Int) :=
  fun node => l.store.entries.get? <| StateKey.text ⟨strategy, symbol, node⟩

-- The calls that lead from one link to another all found the store up.
def Reaches (l l' : StoreLink) : Prop :=
  ∀ k, l.calls ≤ k → k < l'.calls → l.condition k = .up

variable {l : StoreLink} {strategy symbol node : String}

@[simp] theorem calls_read (key : StateKey) : (l.read key).2.calls = l.calls + 1 := by
  rw [read]
  split <;> rfl

-- What a read finds that comes after so many others.
def answer (l : StoreLink) (k : Nat) (key : StateKey) : Option Blob :=
  match l.condition (l.calls + k) with
  | .up => (l.store.get l.now key).1
  | _   => none

theorem fst_read (key : StateKey) : (l.read key).1 = l.answer 0 key := by
  cases h : l.condition l.calls <;> simp only [read, answer, Nat.add_zero, h]

-- Reads have no part in what others find, apart from that they are calls as well.
theorem answer_read (key other : StateKey) (k : Nat) :
    (l.read key).2.answer k other = l.answer (k + 1) other := by
  have hc : l.calls + 1 + k = l.calls + (k + 1) := by omega
  rw [read]
  split <;> simp only [answer, hc, StateStore.fst_get_get]

-- An entry that is there, and that has not come to its end, is found if the store is up; that there
-- is none is found in any case.
theorem answer_eq {k : Nat}
    (h : l.slots strategy symbol node = none ∨ l.condition (l.calls + k) = .up ∧
      ∀ e ∈ l.slots strategy symbol node, l.now < e.2) :
    l.answer k ⟨strategy, symbol, node⟩ = (l.slots strategy symbol node).map Prod.fst := by
  have live : ∀ e ∈ l.store.entries.get? (StateKey.text ⟨strategy, symbol, node⟩), l.now < e.2 :=
    match h with
    | .inl h => fun e he => by cases h.symm.trans he
    | .inr h => h.right
  rw [answer]
  split
  case h_1 => rw [StateStore.get_eq live, slots]
  case h_2 hc =>
    have h := h.resolve_right fun h => hc h.left
    rw [h, Option.map_none]

section Write

variable (l : StoreLink) (key : StateKey) (blob : Blob) (ttl : Nat)

-- A write takes two steps: it counts as a call, and it may put the entry into the store.
theorem snd_write : ∃ store, (l.write key blob ttl).2 =
      { l with store, calls := l.calls + 1, writes := l.writes + 1 } ∧
    (store = l.store ∨ l.store.put? l.now key blob ttl = some store) := by
  rw [write]
  split
  case h_2 => exact ⟨l.store, rfl, .inl rfl⟩
  case h_1 =>
    cases hp : l.store.put? l.now key blob ttl
    case none       => exact ⟨l.store, rfl, .inl rfl⟩
    case some store => exact ⟨store, rfl, .inr rfl⟩

@[simp] theorem calls_write : (l.write key blob ttl).2.calls = l.calls + 1 := by
  have ⟨_, he, _⟩ := l.snd_write key blob ttl
  rw [he]

@[simp] theorem condition_write : (l.write key blob ttl).2.condition = l.condition := by
  have ⟨_, he, _⟩ := l.snd_write key blob ttl
  rw [he]

@[simp] theorem now_write : (l.write key blob ttl).2.now = l.now := by
  have ⟨_, he, _⟩ := l.snd_write key blob ttl
  rw [he]

variable {l key blob ttl}

theorem fst_write (h : (StateStore.deadline? l.now ttl).isSome) : (l.write key blob ttl).1 := by
  have ⟨deadline, hd⟩ := Option.isSome_iff_exists.mp h
  rw [write, StateStore.put?, hd]
  split <;> rfl

theorem slots_write (h : l.condition l.calls = .up)
    (hw : (l.write ⟨strategy, symbol, node⟩ blob ttl).1) :
    (l.write ⟨strategy, symbol, node⟩ blob ttl).2.slots strategy symbol =
      Function.update (l.slots strategy symbol) node (some (blob, l.now + ttl)) := by
  simp only [write, h] at hw ⊢
  cases hp : l.store.put? l.now ⟨strategy, symbol, node⟩ blob ttl
  case none       => rw [hp] at hw; cases hw
  case some store =>
    funext k
    rw [StateStore.put?_eq_some hp, Function.update_apply]
    simp only [slots, Dict.get?_insert, StateKey.text_inj]

-- No entry has come to its end.
def Live (l : StoreLink) : Prop :=
  ∀ text, ∀ e ∈ l.store.entries.get? text, l.now < e.2

theorem Live.write (h : l.Live) (ht : 0 < ttl) : (l.write key blob ttl).2.Live := by
  have ⟨store, he, hp⟩ := l.snd_write key blob ttl
  rw [he]
  cases hp
  case inl hp => exact hp ▸ h
  case inr hp =>
    intro text e hm
    rw [StateStore.put?_eq_some hp, Dict.get?_insert] at hm
    split at hm
    case isFalse => exact h text e hm
    case isTrue  => cases hm; dsimp only; omega

end Write

end StoreLink

end SignalFlow
