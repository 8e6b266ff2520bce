import Mathlib.Tactic.Linarith
import SignalFlow.Proofs.Temporal.Runs
import SignalFlow.Temporal.Hold

/-!
How long a condition has held, told from all that was observed of it: the time of the run of true
observations that goes on now and, where a false one only pauses a hold, of the runs before it. The
machine keeps just enough of the past to tell the same.
-/

namespace SignalFlow

open History

namespace Hold

-- The times of the true observations, one list for each maximal run of them.
def trueRuns (l : List (Bool × ℚ)) : List (List ℚ) :=
  ((l.splitBy (·.1 == ·.1)).filter (·.all Prod.fst)).map (·.map Prod.snd)

-- The time from the first observation of a run to the last.
def extent (run : List ℚ) : ℚ :=
  run.getLast?.getD 0 - run.head?.getD 0

-- What a hold takes over from the runs before it. Who starts over takes over nothing.
def carried (rule : Rule ℚ) (runs : List (List ℚ)) : ℚ :=
  if rule.resetOnFalse then 0 else (runs.map extent).sum

-- How long a condition has held that is true now. The last run is the one that goes on.
def heldTime (rule : Rule ℚ) (runs : List (List ℚ)) : ℚ :=
  extent (runs.getLast?.getD []) + carried rule runs.dropLast

-- The machine after some observations. The first of them is the oldest.
def State.after (rule : Rule ℚ) (s : State ℚ) (l : List (Bool × ℚ)) : State ℚ :=
  l.foldl (fun s o => (s.update rule o.1 o.2).1) s

section Runs

variable {l : List (Bool × ℚ)} {now last : ℚ}

theorem trueRuns_concat_false : trueRuns (l ++ [(false, now)]) = trueRuns l := by
  cases hl : l.getLast?
  case none   =>
    rw [List.getLast?_eq_none_iff.mp hl]
    rfl
  case some o =>
    have ⟨runs, run, hs, hr⟩ := exists_splitBy_of_getLast? (r := (·.1 == ·.1)) hl
    by_cases ho : o.1 = false
    case pos =>
      have hm : o ∈ run := List.mem_of_getLast? hr
      have hall : run.all Prod.fst = false := List.all_eq_false.mpr ⟨o, hm, by simp [ho]⟩
      rw [trueRuns, splitBy_concat_of_rel hs hr (by simp [ho]), trueRuns, hs]
      simp [hall]
    case neg =>
      rw [trueRuns, splitBy_concat_of_not (by simpa [hl] using ho), trueRuns]
      simp

theorem trueRuns_concat_of_not (h : ∀ last, l.getLast? ≠ some (true, last)) :
    trueRuns (l ++ [(true, now)]) = trueRuns l ++ [[now]] := by
  have hn : ∀ o ∈ l.getLast?, (o.1 == true) = false := by
    intro o ho
    obtain ⟨b, t⟩ := o
    cases b
    case false => rfl
    case true  => exact absurd ho (h t)
  rw [trueRuns, splitBy_concat_of_not hn, trueRuns]
  simp

-- A run that ends with a true observation has no other.
theorem all_of_isChain {run : List (Bool × ℚ)} (hc : run.IsChain fun a b => a.1 == b.1)
    (hl : run.getLast? = some (true, last)) : run.all Prod.fst = true := by
  induction run
  case nil => rfl
  case cons o run hi =>
    cases run
    case nil        =>
      cases hl
      rfl
    case cons p run =>
      have ⟨ho, hc⟩ := List.isChain_cons_cons.mp hc
      have hall := hi hc hl
      rw [List.all_cons, Bool.and_eq_true] at hall
      rw [List.all_cons, eq_of_beq ho, hall.left, List.all_cons, hall.left, hall.right]
      rfl

theorem exists_trueRuns_concat (h : l.getLast? = some (true, last)) :
    ∃ runs run, trueRuns l = runs ++ [run] ∧
      ∀ now, trueRuns (l ++ [(true, now)]) = runs ++ [run ++ [now]] := by
  have ⟨runs, run, hs, hr⟩ := exists_splitBy_of_getLast? (r := (·.1 == ·.1)) h
  have hall := all_of_isChain (List.isChain_of_mem_splitBy (hs ▸ List.mem_concat_self)) hr
  refine ⟨(runs.filter (·.all Prod.fst)).map (·.map Prod.snd), run.map Prod.snd, ?_, fun now => ?_⟩
  · simp [trueRuns, hs, hall]
  · rw [trueRuns, splitBy_concat_of_rel hs hr rfl]
    simp [hall]

end Runs

section Machine

variable {rule : Rule ℚ} {l : List (Bool × ℚ)} {s : State ℚ} {runs : List (List ℚ)}
  {run : List ℚ} {input : Bool} {now first last : ℚ}

theorem extent_eq (hf : run.head? = some first) (hl : run.getLast? = some last) :
    extent run = last - first := by
  rw [extent, hf, hl, Option.getD_some, Option.getD_some]

theorem span_sub_eq {held : ℚ} (h : 0 ≤ now - first + held) :
    span (first - held) now = now - first + held := by
  rw [span]
  split <;> linarith

theorem carried_concat (hf : run.head? = some first) (hl : run.getLast? = some last)
    (hr : rule.resetOnFalse = false) :
    carried rule (runs ++ [run]) = last - first + carried rule runs := by
  simp [carried, hr, extent_eq hf hl, add_comm]

theorem heldTime_concat : heldTime rule (runs ++ [run]) = extent run + carried rule runs := by
  simp [heldTime]

theorem after_concat : State.zero.after rule (l ++ [(input, now)]) =
    (State.zero.after rule l).observe rule input now := by
  rw [State.after, List.foldl_append]
  rfl

-- What the machine keeps of a history: whether it ends with a true observation, and then when its
-- last run began, moved back by what was carried over, or else what there is to carry over.
inductive Follows (rule : Rule ℚ) : List (Bool × ℚ) → State ℚ → Prop
  | idle {l : List (Bool × ℚ)} (last : ∀ now, l.getLast? ≠ some (true, now))
      (nonneg : 0 ≤ carried rule (trueRuns l)) :
    Follows rule l ⟨false, none, carried rule (trueRuns l)⟩
  | holding {l : List (Bool × ℚ)} {now first : ℚ} {runs : List (List ℚ)} {run : List ℚ}
      (last : l.getLast? = some (true, now)) (split : trueRuns l = runs ++ [run])
      (head : run.head? = some first) (latest : run.getLast? = some now) (le : first ≤ now)
      (nonneg : 0 ≤ carried rule runs) :
    Follows rule l ⟨true, some (first - carried rule runs), now - first + carried rule runs⟩

namespace Follows

theorem init (rule : Rule ℚ) : Follows rule [] .zero := by
  have hc : carried rule (trueRuns []) = 0 := by simp [carried, trueRuns]
  have h : Follows rule [] ⟨false, none, carried rule (trueRuns [])⟩ := .idle nofun hc.ge
  rwa [hc] at h

theorem observe_false (h : Follows rule l s) (now : ℚ) :
    Follows rule (l ++ [(false, now)]) (s.observe rule false now) := by
  have last : ∀ t, (l ++ [(false, now)]).getLast? ≠ some (true, t) := by simp
  have same : trueRuns (l ++ [(false, now)]) = trueRuns l := trueRuns_concat_false
  have idle (hn : 0 ≤ carried rule (trueRuns l)) :
      Follows rule (l ++ [(false, now)]) ⟨false, none, carried rule (trueRuns l)⟩ :=
    same ▸ .idle last (same ▸ hn)
  simp only [State.observe]
  split
  case isTrue hr  =>
    have hz : carried rule (trueRuns l) = 0 := if_pos hr
    rw [hz] at idle
    exact idle le_rfl
  case isFalse hr =>
    cases h
    case idle nonneg                         => exact idle nonneg
    case holding split head latest le nonneg =>
      have hr : rule.resetOnFalse = false := by simpa using hr
      rw [split, carried_concat head latest hr] at idle
      exact idle (by linarith)

theorem observe_true (h : Follows rule l s) (hm : ∀ o ∈ l.getLast?, o.2 ≤ now) :
    Follows rule (l ++ [(true, now)]) (s.observe rule true now) := by
  have last : (l ++ [(true, now)]).getLast? = some (true, now) := by simp
  cases h
  case idle hl nonneg =>
    have hf : Follows rule _ _ :=
      .holding last (trueRuns_concat_of_not hl) rfl rfl le_rfl nonneg
    rwa [sub_self, zero_add] at hf
  case holding first runs run hl split head latest le nonneg =>
    have hn := le.trans <| hm _ hl
    have ⟨_, _, hs, hc⟩ := exists_trueRuns_concat hl
    have ⟨hruns, hrun⟩ := List.append_inj' (hs.symm.trans split) rfl
    cases hruns
    cases List.singleton_inj.mp hrun
    have hf : Follows rule _ _ :=
      .holding last (hc now) (by simp [head]) List.getLast?_concat hn nonneg
    have hheld : 0 ≤ now - first + carried rule runs := by linarith
    rwa [←span_sub_eq hheld] at hf

theorem observe (h : Follows rule l s) (input : Bool) (hm : ∀ o ∈ l.getLast?, o.2 ≤ now) :
    Follows rule (l ++ [(input, now)]) (s.observe rule input now) := by
  cases input
  case false => exact h.observe_false now
  case true  => exact h.observe_true hm

theorem active_iff (h : Follows rule l s) :
    s.active = true ↔ ∃ now, l.getLast? = some (true, now) := by
  cases h
  case idle last _            => exact iff_of_false nofun fun ⟨now, hl⟩ => last now hl
  case holding last _ _ _ _ _ => exact iff_of_true rfl ⟨_, last⟩

theorem isSome_startTime (h : Follows rule l s) : s.startTime.isSome = s.active := by
  cases h <;> rfl

theorem elapsed_eq (h : Follows rule l s) (ha : s.active) :
    s.elapsed = heldTime rule (trueRuns l) := by
  cases h
  case idle => cases ha
  case holding split head latest _ _ => rw [split, heldTime_concat, extent_eq head latest]

theorem fires_iff (h : Follows rule l s) (hm : ∀ o ∈ l.getLast?, o.2 ≤ now) :
    (s.update rule input now).2 = true ↔
      input = true ∧ rule.duration ≤ heldTime rule (trueRuns (l ++ [(input, now)])) := by
  cases input
  case false => exact iff_of_false nofun nofun
  case true  =>
    have hf := h.observe true hm
    have ha : (s.observe rule true now).active = true := hf.active_iff.mpr ⟨now, by simp⟩
    simp [State.update, State.fires, hf.elapsed_eq ha]

end Follows

theorem follows_after (h : Timely l) : Follows rule l (State.zero.after rule l) := by
  induction l using List.reverseRecOn
  case nil => exact .init rule
  case append_singleton l o hi =>
    rw [after_concat]
    exact (hi h.of_append).observe _ h.getLast?_le

-- What the machine says of each observation, and what it keeps before and after it.
structure Measures (rule : Rule ℚ) (l : List (Bool × ℚ)) : Prop where
  fires  : ∀ before input now, before ++ [(input, now)] <+: l →
    (((State.zero.after rule before).update rule input now).2 = true ↔
      input = true ∧ rule.duration ≤ heldTime rule (trueRuns (before ++ [(input, now)])))
  active : ∀ before, before <+: l →
    ((State.zero.after rule before).active = true ↔ ∃ now, before.getLast? = some (true, now))
  start  : ∀ before, before <+: l →
    (State.zero.after rule before).startTime.isSome = (State.zero.after rule before).active

theorem measures_of_timely (rule : Rule ℚ) (h : Timely l) : Measures rule l where
  fires before input now hp := by
    obtain ⟨_, rfl⟩ := hp
    exact (follows_after h.of_append.of_append).fires_iff h.of_append.getLast?_le
  active before hp := by
    obtain ⟨_, rfl⟩ := hp
    exact (follows_after h.of_append).active_iff
  start before hp := by
    obtain ⟨_, rfl⟩ := hp
    exact (follows_after h.of_append).isSome_startTime

-- The second run adds to what was held in the first, and the time between them does not count.
theorem measures_two_runs :
    let rule : Rule ℚ := ⟨10, false⟩
    let l : List (Bool × ℚ) := [(true, 0), (true, 6), (false, 7), (true, 100), (true, 104)]
    Timely l ∧ Measures rule l ∧ trueRuns l = [[0, 6], [100, 104]] ∧
      heldTime rule (trueRuns l) = 10 := by
  intro rule l
  have timely : Timely l := by decide +kernel
  exact ⟨timely, measures_of_timely rule timely, by decide +kernel, by decide +kernel⟩

end Machine

end Hold

end SignalFlow
