import Mathlib.Data.Set.Function
import SignalFlow.Proofs.StateStore

/-!
How far the store keeps the namespaces of strategies, symbols and nodes apart. What it should answer
is said by a ledger, in which every key is the triple that it is and nothing is ever dropped. The
store has nothing but the texts of the keys, and it drops what has expired when it is asked for it.
Still it answers like the ledger, as long as no two keys in use have the same text.
-/

namespace SignalFlow

namespace StateKey

-- The colons in the parts of a key behind which another part follows.
def colons (k : StateKey) : Nat × Nat :=
  (k.strategy.toList.count ':', k.symbol.toList.count ':')

-- What stands before a mark is known as soon as it is known how often the mark occurs in it.
theorem append_cons_inj {x : Char} {a b c d : List Char} (hc : a.count x = b.count x)
    (h : a ++ x :: c = b ++ x :: d) : a = b ∧ c = d := by
  have aux {a b c d : List Char} (hc : a.count x = b.count x)
      (h : ∃ e, b = a ++ e ∧ x :: c = e ++ x :: d) : a = b ∧ c = d := by
    have ⟨e, hb, he⟩ := h
    cases e
    case nil      =>
      rw [List.append_nil] at hb
      exact ⟨hb.symm, (List.cons.inj he).right⟩
    case cons y e =>
      cases (List.cons.inj he).left
      rw [hb, List.count_append, List.count_cons_self] at hc
      omega
  cases List.append_eq_append_iff.mp h
  case inl h => exact aux hc h
  case inr h => exact (aux hc.symm h).imp Eq.symm Eq.symm

theorem toList_append_parts (a b c d e : String) : (a ++ b ++ c ++ d ++ c ++ e).toList =
    a.toList ++ (b.toList ++ (c.toList ++ (d.toList ++ (c.toList ++ e.toList)))) := by
  simp only [String.toList_append, List.append_assoc]

theorem text_eq_iff {k l : StateKey} : k.text = l.text ↔
    k.strategy.toList ++ ':' :: (k.symbol.toList ++ ':' :: k.node.toList) =
      l.strategy.toList ++ ':' :: (l.symbol.toList ++ ':' :: l.node.toList) := by
  have parts (k : StateKey) : k.text.toList = _ := toList_append_parts _ _ _ _ _
  have colon : ":".toList = [':'] := by decide
  -- The word in front must not be taken apart when the colon is.
  generalize "strategy_state:".toList = front at parts
  rw [colon] at parts
  rw [←String.toList_inj, parts, parts, List.append_right_inj]
  rfl

theorem eq_of_text_eq {k l : StateKey} (ht : k.text = l.text) (hc : k.colons = l.colons) :
    k = l := by
  have ⟨strategy, ht⟩ := append_cons_inj (Prod.mk.inj hc).left <| text_eq_iff.mp ht
  have ⟨symbol, node⟩ := append_cons_inj (Prod.mk.inj hc).right ht
  cases k
  cases l
  rw [mk.injEq, ←String.toList_inj, ←String.toList_inj, ←String.toList_inj]
  exact ⟨strategy, symbol, node⟩

theorem injOn_text_iff {keys : Set StateKey} :
    keys.InjOn text ↔ ∀ k ∈ keys, ∀ l ∈ keys, k.text = l.text → k.colons = l.colons := by
  constructor
  case mp  => exact fun h k hk l hl ht => h hk hl ht ▸ rfl
  case mpr => exact fun h k hk l hl ht => eq_of_text_eq ht <| h k hk l hl ht

end StateKey

-- What may be asked of a store.
inductive StoreCall where
  | put (key : StateKey) (blob : Blob) (ttl : Nat)
  | get (key : StateKey)

def StoreCall.key : StoreCall → StateKey
  | .put key .. => key
  | .get key    => key

-- A call, and what the clock shows when it is made.
structure TimedCall where
  now  : Int
  call : StoreCall

-- The last entry under each key, with its deadline, whether or not that has passed.
abbrev Ledger := StateKey → Option (Blob × Int)

namespace Ledger

-- Only what gets a deadline is entered.
def after (l : Ledger) (c : TimedCall) : Ledger :=
  match c.call with
  | .put key blob ttl =>
    match StateStore.deadline? c.now ttl with
    | some deadline => Function.update l key (some (blob, deadline))
    | none          => l
  | .get _            => l

def get (l : Ledger) (now : Int) (key : StateKey) : Option Blob :=
  ((l key).filter fun e => now < e.2).map Prod.fst

end Ledger

namespace StateStore

def after (s : StateStore) (c : TimedCall) : StateStore :=
  match c.call with
  | .put key blob ttl => (s.put? c.now key blob ttl).getD s
  | .get key          => (s.get c.now key).2

-- The times of the calls and of one more, in which the clock never goes back.
def InTime (calls : List TimedCall) (now : Int) : Prop :=
  (calls.map TimedCall.now ++ [now]).Pairwise (· ≤ ·)

-- No key gets to see what is done under another one.
structure Separates (keys : Set StateKey) : Prop where
  undisturbed : ∀ k ∈ keys, ∀ l ∈ keys, k ≠ l → ∀ (s t : StateStore) now blob ttl,
    s.put? now k blob ttl = some t → ∀ later, (t.get later l).1 = (s.get later l).1
  answered : ∀ calls now, (∀ c ∈ calls, c.call.key ∈ keys) → InTime calls now → ∀ k ∈ keys,
    ((calls.foldl after empty).get now k).1 = (calls.foldl Ledger.after fun _ => none).get now k

-- For the given keys, the store has what the ledger has, apart from what has expired at all of the
-- given times.
def Mirrors (s : StateStore) (l : Ledger) (keys : Set StateKey) (times : List Int) : Prop :=
  ∀ k ∈ keys, s.entries.get? k.text = l k ∨
    s.entries.get? k.text = none ∧ ∀ e ∈ l k, ∀ t ∈ times, e.2 ≤ t

variable {s t : StateStore} {l : Ledger} {keys : Set StateKey} {times : List Int} {now : Int}
  {k : StateKey} {c : TimedCall} {calls : List TimedCall}

theorem Mirrors.get (h : s.Mirrors l keys [now]) (hk : k ∈ keys) :
    (s.get now k).1 = l.get now k := by
  rw [fst_get, Ledger.get]
  cases h k hk
  case inl h => rw [h]
  case inr h =>
    have ⟨hn, he⟩ := h
    rw [hn]
    cases hl : l k
    case none   => rfl
    case some e =>
      have hd : ¬now < e.2 := Int.not_lt.mpr <| he e hl now (.head _)
      simp [Option.filter_some, hd]

theorem Mirrors.put (h : s.Mirrors l keys times) (hi : keys.InjOn StateKey.text) (hk : k ∈ keys)
    (e : Blob × Int) :
    Mirrors ⟨s.entries.insert k.text e⟩ (Function.update l k (some e)) keys times := by
  intro k' hk'
  rw [Dict.get?_insert, Function.update_apply]
  by_cases he : k' = k
  case pos => exact .inl <| by rw [if_pos (congrArg _ he), if_pos he]
  case neg =>
    rw [if_neg <| mt (hi hk' hk) he, if_neg he]
    exact h k' hk'

theorem Mirrors.erase (h : s.Mirrors l keys times) (hi : keys.InjOn StateKey.text) (hk : k ∈ keys)
    (hl : ∀ e ∈ l k, ∀ t ∈ times, e.2 ≤ t) : Mirrors ⟨s.entries.erase k.text⟩ l keys times := by
  intro k' hk'
  rw [Dict.get?_erase]
  by_cases he : k' = k
  case pos => exact .inr ⟨if_pos (congrArg _ he), he ▸ hl⟩
  case neg =>
    rw [if_neg <| mt (hi hk' hk) he]
    exact h k' hk'

theorem Mirrors.after (h : s.Mirrors l keys (c.now :: times)) (hi : keys.InjOn StateKey.text)
    (hc : c.call.key ∈ keys) (ht : ∀ t ∈ times, c.now ≤ t) :
    (s.after c).Mirrors (l.after c) keys times := by
  have later : s.Mirrors l keys times :=
    fun k hk => (h k hk).imp_right <| .imp_right fun h e he t ht => h e he t <| .tail _ ht
  obtain ⟨now, call⟩ := c
  cases call
  case put key blob ttl =>
    simp only [StateStore.after, Ledger.after, put?]
    cases deadline? now ttl
    case none          => exact later
    case some deadline => exact later.put hi hc (blob, deadline)
  case get key          =>
    simp only [StateStore.after, Ledger.after]
    by_cases live : ∀ e ∈ s.entries.get? key.text, now < e.2
    case pos => rwa [get_eq live]
    case neg =>
      push Not at live
      obtain ⟨e, he, hn⟩ := live
      rw [get_of_le he hn]
      apply later.erase hi hc
      intro e' he' t hm
      cases h key hc
      case inl h => cases (h ▸ he).symm.trans he'; exact hn.trans <| ht t hm
      case inr h => cases he.symm.trans h.left

theorem Mirrors.foldl_after (hi : keys.InjOn StateKey.text)
    (h : s.Mirrors l keys (calls.map TimedCall.now ++ [now])) (ht : InTime calls now)
    (hc : ∀ c ∈ calls, c.call.key ∈ keys) :
    (calls.foldl StateStore.after s).Mirrors (calls.foldl Ledger.after l) keys [now] := by
  induction calls generalizing s l
  case nil             => exact h
  case cons c calls hr =>
    have ⟨hn, ht⟩ := List.pairwise_cons.mp ht
    have ⟨hk, hc⟩ := List.forall_mem_cons.mp hc
    exact hr (h.after hi hk hn) ht hc

theorem mirrors_empty : empty.Mirrors (fun _ => none) keys times :=
  fun _ _ => .inl rfl

theorem undisturbed_of_text_ne {l : StateKey} {blob : Blob} {ttl : Nat} (hk : k.text ≠ l.text)
    (hp : s.put? now k blob ttl = some t) (later : Int) :
    (t.get later l).1 = (s.get later l).1 := by
  rw [fst_get, fst_get, put?_eq_some hp, Dict.get?_insert, if_neg hk.symm]

-- The store keeps keys apart exactly if it can tell them apart.
theorem separates_iff_injOn : Separates keys ↔ keys.InjOn StateKey.text := by
  constructor
  case mp  =>
    intro h k hk l hl ht
    by_contra hn
    have hp : empty.put? 0 k [] 1 = some ⟨(∅ : Dict _).insert k.text ([], 1)⟩ := rfl
    have := h.undisturbed k hk l hl hn empty _ 0 [] 1 hp 0
    rw [fst_get, Dict.get?_insert, if_pos ht.symm] at this
    cases this
  case mpr =>
    intro hi
    constructor
    case undisturbed =>
      intro k hk l hl hn s t now blob ttl hp later
      exact undisturbed_of_text_ne (mt (hi hk hl) hn) hp later
    case answered    =>
      intro calls now hc ht k hk
      exact (mirrors_empty.foldl_after hi ht hc).get hk

-- Without colons in the names of strategies and symbols nothing gets mixed up, whatever the names of
-- nodes are.
theorem separates_colonless : Separates {k | k.colons = (0, 0)} :=
  separates_iff_injOn.mpr <| StateKey.injOn_text_iff.mpr fun _ hk _ hl _ => hk.trans hl.symm

-- In general, two keys may be used side by side unless they have the same text, but not their colons
-- in the same parts.
theorem separates_iff (keys : Set StateKey) : Separates keys ↔
    ∀ k ∈ keys, ∀ l ∈ keys, k.text = l.text → k.colons = l.colons :=
  separates_iff_injOn.trans StateKey.injOn_text_iff

theorem get_under_other_key :
    let k : StateKey := ⟨"a:b", "c", "n"⟩
    let l : StateKey := ⟨"a", "b:c", "n"⟩
    k ≠ l ∧ ((empty.after ⟨0, .put k [1] 3600⟩).get 0 l).1 = some [1] :=
  ⟨by decide, by decide⟩

end StateStore

end SignalFlow
