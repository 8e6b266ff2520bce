import Mathlib.Data.List.Induction
import SignalFlow.Temporal.Hold

/-!
What a machine that starts over on a false observation knows of the past: since when there has been
no false one. When there was nothing to observe, it has not noticed that any time has passed.
-/

namespace SignalFlow

namespace Hold

variable {α : Type}

-- Since when a condition holds, after a tick in which it may have been observed.
def resume (start : Option α) : Option Bool × α → Option α
  | (none, _)        => start
  | (some false, _)  => none
  | (some true, now) => some (start.getD now)

-- Since when it holds after ticks one after the other. The first of them is the oldest.
def since (ticks : List (Option Bool × α)) : Option α :=
  ticks.foldl resume none

-- The hold at the end of the ticks began at the given time, with a true observation. There has been
-- no false one since, but there may have been ticks that observed nothing.
def BeganAt (ticks : List (Option Bool × α)) (first : α) : Prop :=
  ∃ before rest, ticks = before ++ (some true, first) :: rest ∧ since before = none ∧
    ∀ tick ∈ rest, tick.1 ≠ some false

-- The same if the condition was seen to hold in each of the ticks since.
def Unbroken (ticks : List (Option Bool × α)) (first : α) : Prop :=
  ∃ before rest, ticks = before ++ (some true, first) :: rest ∧ ∀ tick ∈ rest, tick.1 = some true

section Since

variable {ticks : List (Option Bool × α)} {tick : Option Bool × α} {first : α}

theorem since_concat : since (ticks ++ [tick]) = resume (since ticks) tick := by
  rw [since, List.foldl_append]
  rfl

-- The last place at which a list of ticks can be split is where its last tick is.
theorem exists_split_concat_iff {β : Type} {l : List β} {x y : β} {P : List β → Prop}
    {Q : β → Prop} :
    (∃ before rest, l ++ [y] = before ++ x :: rest ∧ P before ∧ ∀ z ∈ rest, Q z) ↔
      (P l ∧ y = x) ∨ ((∃ before rest, l = before ++ x :: rest ∧ P before ∧ ∀ z ∈ rest, Q z) ∧
        Q y) := by
  constructor
  case mp =>
    intro ⟨before, rest, he, hb, hr⟩
    cases List.eq_nil_or_concat rest
    case inl hrest =>
      rw [hrest] at he
      have ⟨he, hy⟩ := List.append_inj' he rfl
      exact .inl ⟨he ▸ hb, List.singleton_inj.mp hy⟩
    case inr hrest =>
      obtain ⟨rest, last, rfl⟩ := hrest
      rw [List.concat_eq_append] at he hr
      have he : l ++ [y] = (before ++ x :: rest) ++ [last] := by simpa using he
      have ⟨hl, hy⟩ := List.append_inj' he rfl
      have ⟨hr', hlast⟩ := List.forall_mem_append.mp hr
      cases List.singleton_inj.mp hy
      exact .inr ⟨⟨before, rest, hl, hb, hr'⟩, hlast _ (.head _)⟩
  case mpr =>
    intro h
    cases h
    case inl h =>
      have ⟨hl, hy⟩ := h
      exact ⟨l, [], by rw [hy], hl, nofun⟩
    case inr h =>
      obtain ⟨⟨before, rest, he, hb, hr⟩, hy⟩ := h
      refine ⟨before, rest ++ [y], by simp [he], hb, List.forall_mem_append.mpr ⟨hr, ?_⟩⟩
      exact fun _ hm => List.mem_singleton.mp hm ▸ hy

theorem beganAt_concat : BeganAt (ticks ++ [tick]) first ↔
    (since ticks = none ∧ tick = (some true, first)) ∨
      (BeganAt ticks first ∧ tick.1 ≠ some false) :=
  exists_split_concat_iff

theorem since_eq_some_iff : since ticks = some first ↔ BeganAt ticks first := by
  induction ticks using List.reverseRecOn
  case nil => exact iff_of_false nofun fun ⟨_, _, he, _⟩ => by simp at he
  case append_singleton ticks tick hi =>
    rw [since_concat, beganAt_concat, ←hi]
    obtain ⟨told, now⟩ := tick
    cases told
    case none       => simp [resume]
    case some input =>
      cases input
      case false => simp [resume]
      case true  => cases since ticks <;> simp [resume]

theorem exists_beganAt_concat_iff {motive : α → Prop} {now : α} :
    (∃ first, BeganAt (ticks ++ [(some true, now)]) first ∧ motive first) ↔
      motive ((since ticks).getD now) := by
  simp only [←since_eq_some_iff, since_concat, resume, Option.some.injEq, exists_eq_left']

-- Only a tick that observed nothing can make a difference.
theorem BeganAt.unbroken (h : BeganAt ticks first) (hn : ∀ tick ∈ ticks, tick.1 ≠ none) :
    Unbroken ticks first := by
  obtain ⟨before, rest, rfl, _, hr⟩ := h
  refine ⟨before, rest, rfl, fun tick hm => ?_⟩
  have hn := hn tick <| List.mem_append_right _ <| .tail _ hm
  have hf := hr tick hm
  rcases tick with ⟨_ | _ | _, _⟩
  · exact absurd rfl hn
  · exact absurd rfl hf
  · rfl

theorem unbroken_concat : Unbroken (ticks ++ [tick]) first ↔
    tick = (some true, first) ∨ (Unbroken ticks first ∧ tick.1 = some true) := by
  have h := exists_split_concat_iff (l := ticks) (x := (some true, first)) (y := tick)
    (P := fun _ => True) (Q := fun tick => tick.1 = some true)
  simpa only [Unbroken, true_and] using h

end Since

section Machine

variable [OfNat α 0] [Sub α] [LT α] [DecidableLT α]

-- The machine after such a tick.
def State.pass (rule : Rule α) (s : State α) : Option Bool × α → State α
  | (none, _)         => s
  | (some input, now) => s.observe rule input now

-- The machine knows since when the condition holds.
inductive Tracks : Option α → State α → Prop
  | idle                                : Tracks none .zero
  | holding {start : α} (elapsed : α) : Tracks (some start) ⟨true, some start, elapsed⟩

variable {rule : Rule α} {s : State α} {start : Option α} {now : α} {told : Option Bool}

theorem Tracks.pass (h : Tracks start s) (hr : rule.resetOnFalse) (hz : now - 0 = now) :
    Tracks (resume start (told, now)) (s.pass rule (told, now)) := by
  cases told
  case none       => exact h
  case some input =>
    cases input
    case false => rw [State.pass, State.observe, if_pos hr]; exact .idle
    case true  =>
      cases h
      case idle    =>
        have hs : (State.zero : State α).observe rule true now = ⟨true, some (now - 0), 0⟩ := rfl
        rw [State.pass, hs, hz]
        exact .holding _
      case holding => exact .holding _

-- What has elapsed at a true observation is the time since then.
theorem Tracks.fires_iff [LE α] [DecidableLE α] (h : Tracks start s) (hs : ¬0 < now - now)
    {input : Bool} : (s.update rule input now).2 = true ↔
      input = true ∧ rule.duration ≤ span (start.getD now) now := by
  cases input
  case false => exact iff_of_false nofun nofun
  case true  =>
    have elapsed : (s.observe rule true now).elapsed = span (start.getD now) now := by
      cases h
      case idle    => exact (if_neg hs).symm
      case holding => rfl
    simp [State.update, State.fires, elapsed]

end Machine

end Hold

end SignalFlow
