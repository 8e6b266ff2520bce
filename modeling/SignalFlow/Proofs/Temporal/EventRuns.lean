import Mathlib.Algebra.Order.Group.Unbundled.Basic
import Mathlib.Data.List.Induction
import SignalFlow.Proofs.Temporal.Runs
import SignalFlow.Temporal.Sequence
import SignalFlow.Temporal.Stamp

/-!
Which events complete a sequence, told from the times of all of them: every so many in a run of
events that follow one another closely enough. What the machine stores is the end of the last run,
so it counts as if it knew the whole of it. Times are numbers of any kind, as long as what comes
later is no closer.
-/

namespace SignalFlow

open History

namespace Sequence

variable {α : Type}

section Events

-- The times of the true observations.
def events (l : List (Bool × α)) : List α :=
  (l.filter Prod.fst).map Prod.snd

-- The events of a run, each with whether the run so far is made of whole sequences.
def tally (rule : Rule α) (run : List α) : List (α × Bool) :=
  run.mapIdx fun i time => (time, decide (rule.required ∣ i + 1))

-- The times of the events that complete a sequence.
def completions (tallied : List (α × Bool)) : List α :=
  (tallied.filter Prod.snd).map Prod.fst

variable {rule : Rule α} {l : List (Bool × α)} {run : List α} {now : α}

theorem events_concat_true : events (l ++ [(true, now)]) = events l ++ [now] := by
  simp [events]

theorem events_concat_false : events (l ++ [(false, now)]) = events l := by
  simp [events]

theorem events_filter : events (l.filter Prod.fst) = events l := by
  simp [events]

theorem tally_concat :
    tally rule (run ++ [now]) = tally rule run ++ [(now, decide (rule.required ∣ run.length + 1))] :=
  List.mapIdx_concat

theorem dvd_succ_iff {n k : Nat} (hk : 1 ≤ k) : k ∣ n + 1 ↔ k ≤ n % k + 1 := by
  have hlt : n % k < k := Nat.mod_lt n hk
  have hn : k ∣ n + 1 ↔ k ∣ n % k + 1 := by
    rw [Nat.dvd_iff_mod_eq_zero, ←Nat.mod_add_mod, ←Nat.dvd_iff_mod_eq_zero]
  rw [hn]
  constructor
  case mp  => exact Nat.le_of_dvd (Nat.succ_pos _)
  case mpr => exact fun hle => Nat.le_antisymm hle hlt ▸ Nat.dvd_refl _

end Events

section Runs

variable [Sub α] [LE α] [DecidableLE α]

-- Events in maximal runs, in which they follow one another closely enough.
def runs (rule : Rule α) (times : List α) : List (List α) :=
  times.splitBy fun a b => b - a ≤ rule.maxGap

-- The tallies of all runs.
def tallies (rule : Rule α) (times : List α) : List (α × Bool) :=
  (runs rule times).flatMap (tally rule)

-- The last run of some events, none if there are none.
def lastRun (rule : Rule α) (times : List α) : List α :=
  (runs rule times).getLast?.getD []

variable {rule : Rule α} {times run : List α} {now last : α}

theorem lastRun_eq {before : List (List α)} (h : runs rule times = before ++ [run]) :
    lastRun rule times = run := by
  rw [lastRun, h, List.getLast?_concat, Option.getD_some]

theorem exists_runs_of_getLast? (rule : Rule α) (h : times.getLast? = some last) :
    ∃ before run, runs rule times = before ++ [run] ∧ run.getLast? = some last :=
  exists_splitBy_of_getLast? h

-- An event goes on with the last run if it follows closely enough, and else it starts one.
theorem exists_runs_concat (rule : Rule α) (times : List α) (now : α) :
    ∃ before run, runs rule (times ++ [now]) = before ++ [run ++ [now]] ∧
      tallies rule (times ++ [now]) =
        tallies rule times ++ [(now, decide (rule.required ∣ run.length + 1))] ∧
      ((run = [] ∧ ∀ last ∈ times.getLast?, ¬now - last ≤ rule.maxGap) ∨
        runs rule times = before ++ [run] ∧
          ∀ last ∈ times.getLast?, now - last ≤ rule.maxGap) := by
  have alone (h : ∀ last ∈ times.getLast?, ¬now - last ≤ rule.maxGap) :
      runs rule (times ++ [now]) = runs rule times ++ [[now]] :=
    splitBy_concat_of_not fun last hl => decide_eq_false <| h last hl
  cases hl : times.getLast?
  case none =>
    have h := alone (by simp [hl])
    exact ⟨_, [], h, by simp [tallies, h, tally], .inl ⟨rfl, nofun⟩⟩
  case some last =>
    by_cases hg : now - last ≤ rule.maxGap
    case neg =>
      have h := alone (by simpa [hl] using hg)
      exact ⟨_, [], h, by simp [tallies, h, tally], .inl ⟨rfl, by simpa using hg⟩⟩
    case pos =>
      have ⟨before, run, hs, hr⟩ := exists_runs_of_getLast? rule hl
      have h : runs rule (times ++ [now]) = before ++ [run ++ [now]] :=
        splitBy_concat_of_rel hs hr (decide_eq_true hg)
      refine ⟨before, run, h, ?_, .inr ⟨hs, by simpa using hg⟩⟩
      simp [tallies, h, hs, tally_concat]

theorem getLast?_lastRun (rule : Rule α) (times : List α) :
    (lastRun rule times).getLast? = times.getLast? := by
  cases hl : times.getLast?
  case none =>
    rw [List.getLast?_eq_none_iff.mp hl]
    rfl
  case some last =>
    have ⟨_, _, hs, hr⟩ := exists_runs_of_getLast? rule hl
    rw [lastRun_eq hs, hr]

end Runs

section Machine

variable [Sub α] [LT α] [DecidableLT α]

-- The machine after some observations. The first of them is the oldest.
def State.after (rule : Rule α) (s : State α) (l : List (Bool × α)) : State α :=
  l.foldl (fun s o => (s.update rule o.1 o.2).1) s

-- The observations, each with what the machine answers to it.
def State.answers (rule : Rule α) (s : State α) : List (Bool × α) → List (Bool × α × Bool)
  | []                => []
  | (input, now) :: l =>
    (input, now, (s.update rule input now).2) :: answers rule (s.update rule input now).1 l

-- What the machine answers to the events, each with its time.
def heard (rule : Rule α) (l : List (Bool × α)) : List (α × Bool) :=
  ((State.zero.answers rule l).filter Prod.fst).map Prod.snd

variable {rule : Rule α} {l : List (Bool × α)} {s : State α} {input : Bool} {now : α}

theorem after_concat : s.after rule (l ++ [(input, now)]) =
    ((s.after rule l).update rule input now).1 := by
  rw [State.after, List.foldl_append]
  rfl

theorem answers_concat : s.answers rule (l ++ [(input, now)]) =
    s.answers rule l ++ [(input, now, ((s.after rule l).update rule input now).2)] := by
  induction l generalizing s
  case nil         => rfl
  case cons o l hi => rw [List.cons_append, State.answers, hi]; rfl

theorem heard_concat_true : heard rule (l ++ [(true, now)]) =
    heard rule l ++ [(now, ((State.zero.after rule l).update rule true now).2)] := by
  simp [heard, answers_concat]

theorem heard_concat_false : heard rule (l ++ [(false, now)]) = heard rule l := by
  simp [heard, answers_concat]

theorem update_of_le (h : rule.required ≤ (s.current rule now).length + 1) :
    s.update rule true now = (⟨[], some now⟩, true) := by
  rw [State.update, if_pos rfl, if_pos h]

theorem update_of_lt (h : (s.current rule now).length + 1 < rule.required) :
    s.update rule true now = (⟨s.current rule now ++ [now], s.lastTrigger⟩, false) := by
  rw [State.update, if_pos rfl, if_neg <| Nat.not_le.mpr h]

theorem lastTrigger_update_true : (s.update rule true now).1.lastTrigger =
    if (s.update rule true now).2 then some now else s.lastTrigger := by
  cases Nat.lt_or_ge ((s.current rule now).length + 1) rule.required
  case inl hc => rw [update_of_lt hc]; rfl
  case inr hc => rw [update_of_le hc]; rfl

theorem lastTrigger_after : (State.zero.after rule l).lastTrigger =
    (completions (heard rule l)).getLast? := by
  induction l using List.reverseRecOn
  case nil => rfl
  case append_singleton l o hi =>
    obtain ⟨input, now⟩ := o
    rw [after_concat]
    cases input
    case false => rw [heard_concat_false, ←hi]; rfl
    case true  =>
      rw [heard_concat_true, lastTrigger_update_true]
      split
      case isTrue hfires  => simp [completions, hfires]
      case isFalse hfires => simp [completions, hfires, hi]

theorem input_of_mem_answers {o : Bool × α × Bool} (h : o ∈ s.answers rule l) (ho : o.2.2 = true) :
    o.1 = true := by
  induction l generalizing s
  case nil         => cases h
  case cons p l hi =>
    cases h
    case tail h => exact hi h
    case head   =>
      obtain ⟨input, now⟩ := p
      cases input
      case true  => rfl
      case false => cases ho

end Machine

section Counts

variable [Sub α] [LE α] [LT α]

-- What is not close enough comes too late, and what comes after it comes too late all the more.
structure Steady (rule : Rule α) (times : List α) : Prop where
  near : ∀ a ∈ times, ∀ b ∈ times, b - a ≤ rule.maxGap ↔ ¬rule.maxGap < b - a
  late : ∀ a ∈ times, ∀ b ∈ times, ∀ c ∈ times,
    b ≤ c → rule.maxGap < b - a → rule.maxGap < c - a

instance [DecidableLE α] [DecidableLT α] {rule : Rule α} {times : List α} :
    Decidable (Steady rule times) :=
  decidable_of_iff ((∀ a ∈ times, ∀ b ∈ times, b - a ≤ rule.maxGap ↔ ¬rule.maxGap < b - a) ∧
      ∀ a ∈ times, ∀ b ∈ times, ∀ c ∈ times,
        b ≤ c → rule.maxGap < b - a → rule.maxGap < c - a)
    ⟨fun h => ⟨h.left, h.right⟩, fun h => ⟨h.near, h.late⟩⟩

-- The same for a time that comes after some observations.
structure Ensues (rule : Rule α) (l : List (Bool × α)) (now : α) : Prop where
  near : ∀ last ∈ (events l).getLast?, now - last ≤ rule.maxGap ↔ ¬rule.maxGap < now - last
  late : ∀ last ∈ (events l).getLast?, ∀ o ∈ l.getLast?,
    rule.maxGap < o.2 - last → rule.maxGap < now - last

variable {rule : Rule α} {l : List (Bool × α)} {s : State α} {input : Bool} {now : α}

theorem Steady.sublist {times times' : List α} (h : Steady rule times)
    (hs : times'.Sublist times) : Steady rule times' where
  near a ha b hb      := h.near a (hs.subset ha) b (hs.subset hb)
  late a ha b hb c hc := h.late a (hs.subset ha) b (hs.subset hb) c (hs.subset hc)

theorem Steady.of_append {l' : List (Bool × α)} (h : Steady rule <| (l ++ l').map Prod.snd) :
    Steady rule <| l.map Prod.snd :=
  h.sublist <| (List.sublist_append_left l l').map Prod.snd

theorem Steady.ensues (h : Steady rule <| (l ++ [(input, now)]).map Prod.snd)
    (ht : Timely (l ++ [(input, now)])) : Ensues rule l now := by
  have hn : now ∈ (l ++ [(input, now)]).map Prod.snd := by simp
  have hl (last) (hl : last ∈ (events l).getLast?) : last ∈ (l ++ [(input, now)]).map Prod.snd := by
    have hm := (List.filter_sublist.map Prod.snd).subset <| List.mem_of_getLast? hl
    rw [List.map_append]
    exact List.mem_append_left _ hm
  constructor
  case near => exact fun last h' => h.near last (hl last h') now hn
  case late =>
    intro last h' o ho
    have ho' : o.2 ∈ (l ++ [(input, now)]).map Prod.snd :=
      List.mem_map_of_mem <| List.mem_append_left _ <| List.mem_of_getLast? ho
    exact h.late last (hl last h') o.2 ho' now hn <| ht.getLast?_le o ho

variable [DecidableLE α]

-- What the machine counts of the events so far. A multiple of the required number has been taken
-- off the last run, or all of it, once an observation came too late to go on with it.
structure Counts (rule : Rule α) (l : List (Bool × α)) (s : State α) : Prop where
  recent : s.events <:+ lastRun rule (events l)
  length : s.events.length = (lastRun rule (events l)).length % rule.required ∨
    s.events = [] ∧ ∀ last ∈ (events l).getLast?, ∀ o ∈ l.getLast?, rule.maxGap < o.2 - last

namespace Counts

-- Whatever counts ends with the last event.
theorem getLast?_eq (h : Counts rule l s) (hs : s.events ≠ []) :
    s.events.getLast? = (events l).getLast? := by
  have ⟨before, hb⟩ := h.recent
  have hl := getLast?_lastRun rule (events l)
  rwa [←hb, List.getLast?_append_of_ne_nil _ hs] at hl

theorem length_eq (h : Counts rule l s) (he : Ensues rule l now)
    (hg : ∀ last ∈ (events l).getLast?, ¬rule.maxGap < now - last) :
    s.events.length = (lastRun rule (events l)).length % rule.required := by
  cases h.length
  case inl hlen => exact hlen
  case inr hlate =>
    have ⟨hs, hlate⟩ := hlate
    cases hl : (events l).getLast?
    case none =>
      rw [hs, List.getLast?_eq_none_iff.mp hl]
      exact (Nat.zero_mod _).symm
    case some last =>
      -- Nothing came too late before, as nothing does now.
      have hne : l ≠ [] := fun he => by simp [he, events] at hl
      have ho := List.getLast?_eq_some_getLast hne
      exact absurd (he.late last hl _ ho <| hlate last hl _ ho) <| hg last hl

theorem init (rule : Rule α) : Counts rule [] .zero :=
  ⟨List.nil_suffix, .inl (Nat.zero_mod _).symm⟩

theorem length_lt (h : Counts rule l s) (hr : 1 ≤ rule.required) :
    s.events.length < rule.required := by
  cases h.length
  case inl hlen => exact hlen ▸ Nat.mod_lt _ hr
  case inr he   => exact he.left ▸ hr

variable [DecidableLT α]

theorem current_eq_nil (h : Counts rule l s)
    (hg : ∀ last ∈ (events l).getLast?, rule.maxGap < now - last) : s.current rule now = [] := by
  rw [State.current]
  split
  case h_1 hs      => exact List.getLast?_eq_none_iff.mp hs
  case h_2 last hs =>
    have hne : s.events ≠ [] := fun he => by simp [he] at hs
    exact if_pos <| hg last <| (h.getLast?_eq hne).symm.trans hs

theorem current_eq (h : Counts rule l s)
    (hg : ∀ last ∈ (events l).getLast?, ¬rule.maxGap < now - last) :
    s.current rule now = s.events := by
  rw [State.current]
  split
  case h_1         => rfl
  case h_2 last hs =>
    have hne : s.events ≠ [] := fun he => by simp [he] at hs
    exact if_neg <| hg last <| (h.getLast?_eq hne).symm.trans hs

-- What the machine counts at an event is what the event follows in its run, less whole sequences.
theorem exists_run (h : Counts rule l s) (he : Ensues rule l now) :
    ∃ run, lastRun rule (events l ++ [now]) = run ++ [now] ∧
      tallies rule (events l ++ [now]) =
        tallies rule (events l) ++ [(now, decide (rule.required ∣ run.length + 1))] ∧
      s.current rule now <:+ run ∧ (s.current rule now).length = run.length % rule.required := by
  have ⟨before, run, hr, ht, hc⟩ := exists_runs_concat rule (events l) now
  refine ⟨run, lastRun_eq hr, ht, ?_⟩
  cases hc
  case inl hc =>
    have ⟨hrun, hg⟩ := hc
    have hg (last) (hl : last ∈ (events l).getLast?) : rule.maxGap < now - last :=
      Decidable.not_not.mp <| mt (he.near last hl).mpr <| hg last hl
    simp [h.current_eq_nil hg, hrun]
  case inr hc =>
    have ⟨hs, hg⟩ := hc
    have hg (last) (hl : last ∈ (events l).getLast?) : ¬rule.maxGap < now - last :=
      (he.near last hl).mp <| hg last hl
    rw [h.current_eq hg, ←lastRun_eq hs]
    exact ⟨h.recent, h.length_eq he hg⟩

-- What an event does to the machine, and what the machine answers.
theorem update_true (h : Counts rule l s) (hr : 1 ≤ rule.required) (he : Ensues rule l now) :
    Counts rule (l ++ [(true, now)]) (s.update rule true now).1 ∧
      tallies rule (events (l ++ [(true, now)])) =
        tallies rule (events l) ++ [(now, (s.update rule true now).2)] := by
  have ⟨run, hrun, ht, hrecent, hlen⟩ := h.exists_run he
  have hd := dvd_succ_iff (n := run.length) hr
  rw [←hlen] at hd
  rw [←events_concat_true] at hrun ht
  rw [ht]
  cases Nat.lt_or_ge ((s.current rule now).length + 1) rule.required
  case inl hc =>
    have hnd : ¬rule.required ∣ run.length + 1 := mt hd.mp <| Nat.not_le.mpr hc
    rw [update_of_lt hc, decide_eq_false hnd]
    refine ⟨⟨?recent, .inl ?length⟩, rfl⟩
    case recent =>
      have ⟨before, hb⟩ := hrecent
      exact ⟨before, by rw [hrun, ←hb, List.append_assoc]⟩
    case length =>
      rw [hrun, List.length_append, List.length_append, List.length_singleton, ←Nat.mod_add_mod,
        ←hlen, Nat.mod_eq_of_lt hc]
  case inr hc =>
    rw [update_of_le hc, decide_eq_true <| hd.mpr hc]
    refine ⟨⟨List.nil_suffix, .inl ?length⟩, rfl⟩
    rw [hrun, List.length_append]
    exact (Nat.mod_eq_zero_of_dvd <| hd.mpr hc).symm

-- Without an event nothing is added, but what came before may come to nothing.
theorem update_false (h : Counts rule l s) (he : Ensues rule l now) :
    Counts rule (l ++ [(false, now)]) (s.update rule false now).1 := by
  have same : events (l ++ [(false, now)]) = events l := events_concat_false
  by_cases hg : ∀ last ∈ (events l).getLast?, rule.maxGap < now - last
  case pos =>
    have hs : (s.update rule false now).1.events = [] := h.current_eq_nil hg
    constructor
    case recent => exact hs ▸ List.nil_suffix
    case length =>
      right
      rw [same, List.getLast?_concat]
      exact ⟨hs, fun last hl o ho => Option.some.inj ho ▸ hg last hl⟩
  case neg =>
    have hg : ∀ last ∈ (events l).getLast?, ¬rule.maxGap < now - last := by
      push Not at hg
      have ⟨last, hl, hg⟩ := hg
      exact fun last' hl' => Option.some.inj (hl.symm.trans hl') ▸ hg
    have hs : (s.update rule false now).1.events = s.events := h.current_eq hg
    constructor
    case recent => rw [same, hs]; exact h.recent
    case length => rw [same, hs]; exact .inl <| h.length_eq he hg

end Counts

variable [DecidableLT α]

theorem counts_after (hr : 1 ≤ rule.required) (h : Timely l) (hs : Steady rule <| l.map Prod.snd) :
    Counts rule l (State.zero.after rule l) := by
  induction l using List.reverseRecOn
  case nil => exact .init rule
  case append_singleton l o hi =>
    obtain ⟨input, now⟩ := o
    have hc := hi h.of_append hs.of_append
    have he := hs.ensues h
    rw [after_concat]
    cases input
    case false => exact hc.update_false he
    case true  => exact (hc.update_true hr he).left

theorem heard_eq (hr : 1 ≤ rule.required) (h : Timely l) (hs : Steady rule <| l.map Prod.snd) :
    heard rule l = tallies rule (events l) := by
  induction l using List.reverseRecOn
  case nil => rfl
  case append_singleton l o hi =>
    obtain ⟨input, now⟩ := o
    have hi := hi h.of_append hs.of_append
    cases input
    case false => rw [heard_concat_false, events_concat_false, hi]
    case true  =>
      have hc := counts_after hr h.of_append hs.of_append
      rw [heard_concat_true, (hc.update_true hr <| hs.ensues h).right, hi]

-- The machine answers as the tallies say, whether or not there is anything between the events, and
-- stores less than a whole sequence.
structure CountsOff (rule : Rule α) (l : List (Bool × α)) : Prop where
  fires       : heard rule l = tallies rule (events l)
  silent      : ∀ o ∈ State.zero.answers rule l, o.2.2 = true → o.1 = true
  unmoved     : heard rule l = heard rule (l.filter Prod.fst)
  lastTrigger : ∀ before, before <+: l → (State.zero.after rule before).lastTrigger =
    (completions (tallies rule (events before))).getLast?
  few         : ∀ before, before <+: l →
    (State.zero.after rule before).events.length < rule.required
  recent      : ∀ before, before <+: l →
    (State.zero.after rule before).events <:+ lastRun rule (events before)

theorem countsOff_of_steady (hr : 1 ≤ rule.required) (h : Timely l)
    (hs : Steady rule <| l.map Prod.snd) : CountsOff rule l where
  fires       := heard_eq hr h hs
  silent _ ho := input_of_mem_answers ho
  unmoved     := by
    have he : (l.filter Prod.fst).Sublist l := List.filter_sublist
    rw [heard_eq hr h hs, heard_eq hr (h.sublist he) (hs.sublist <| he.map _), events_filter]
  lastTrigger before hp := by
    obtain ⟨_, rfl⟩ := hp
    rw [lastTrigger_after, heard_eq hr h.of_append hs.of_append]
  few before hp := by
    obtain ⟨_, rfl⟩ := hp
    exact (counts_after hr h.of_append hs.of_append).length_lt hr
  recent before hp := by
    obtain ⟨_, rfl⟩ := hp
    exact (counts_after hr h.of_append hs.of_append).recent

-- Plans keep stamps. Some stamps stand for no number, but whole seconds are as steady as any.
example :
    let l : List (Bool × Stamp) := [(true, 0), (true, 5), (true, 20), (false, 22), (true, 25)]
    CountsOff ⟨3, 10⟩ l :=
  countsOff_of_steady (by decide) (by decide +kernel) (by decide +kernel)

end Counts

section Ordered

-- Any numbers that are in order will do, if a difference grows with its first term.
theorem steady_of_monotone [Sub α] [LinearOrder α] (h : ∀ a b c : α, b ≤ c → b - a ≤ c - a)
    (rule : Rule α) (times : List α) : Steady rule times where
  near _ _ _ _        := not_lt.symm
  late a _ b _ c _ hc := (h a b c hc).trans_lt'

variable {rule : Rule ℚ} {l : List (Bool × ℚ)}

end Ordered

end Sequence

end SignalFlow
