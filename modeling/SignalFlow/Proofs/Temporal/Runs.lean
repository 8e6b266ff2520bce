import Mathlib.Algebra.Order.Ring.Rat
import Mathlib.Data.List.SplitBy

/-!
Histories of observations, which fall into runs. What comes last in a history goes on with its last
run, or starts a run of its own.
-/

namespace SignalFlow

namespace History

section Runs

variable {α : Type} {r : α → α → Bool} {l run : List α} {runs : List (List α)} {x y : α}

theorem splitBy_concat_of_not (h : ∀ y ∈ l.getLast?, r y x = false) :
    (l ++ [x]).splitBy r = l.splitBy r ++ [[x]] :=
  List.splitBy_append_cons [] h

-- The last run ends where the history ends.
theorem exists_splitBy_of_getLast? (h : l.getLast? = some y) :
    ∃ runs run, l.splitBy r = runs ++ [run] ∧ run.getLast? = some y := by
  have hl : l ≠ [] := fun he => by simp [he] at h
  have hs : l.splitBy r ≠ [] := List.splitBy_ne_nil.mpr hl
  refine ⟨_, _, (List.dropLast_concat_getLast hs).symm, ?_⟩
  have hne := List.ne_nil_of_mem_splitBy (List.getLast_mem hs)
  rw [List.getLast?_eq_some_getLast hne, List.getLast_getLast_splitBy r hl,
    ←List.getLast?_eq_some_getLast hl, h]

theorem splitBy_concat_of_rel (hs : l.splitBy r = runs ++ [run]) (hy : run.getLast? = some y)
    (h : r y x = true) : (l ++ [x]).splitBy r = runs ++ [run ++ [x]] := by
  have ⟨hf, hn, hc, hb⟩ := List.splitBy_eq_iff.mp hs
  have ⟨first, hfirst⟩ : ∃ first, run.head? = some first := by
    cases run
    case nil  => cases hy
    case cons => exact ⟨_, rfl⟩
  refine List.splitBy_eq_iff.mpr ⟨by simp [hf], ?ne, ?within, ?between⟩
  case ne => simpa using fun hm => hn <| List.mem_append_left _ hm
  case within =>
    have ⟨hruns, hrun⟩ := List.forall_mem_append.mp hc
    refine List.forall_mem_append.mpr ⟨hruns, fun m hm => ?_⟩
    rw [List.mem_singleton.mp hm]
    exact (hrun run <| .head _).append (.singleton x) (by simpa [hy] using h)
  case between =>
    -- The run begins as before, so it is set off from the run before it as before.
    have ⟨hruns, _, hlast⟩ := List.isChain_append.mp hb
    refine hruns.append (.singleton _) fun a ha b hb => ?_
    obtain rfl : run ++ [x] = b := by simpa using hb
    have ⟨hne, hrun, hr⟩ := hlast a ha run rfl
    exact ⟨hne, by simp, by rwa [List.head_append_of_ne_nil hrun]⟩

end Runs

section Timely

variable {α : Type} [LE α]

-- The times of the observations do not go back.
def Timely (l : List (Bool × α)) : Prop :=
  (l.map Prod.snd).Pairwise (· ≤ ·)

instance [DecidableLE α] {l : List (Bool × α)} : Decidable (Timely l) :=
  inferInstanceAs (Decidable (List.Pairwise _ _))

namespace Timely

variable {l l' : List (Bool × α)} {input : Bool} {now : α}

theorem of_append (h : Timely (l ++ l')) : Timely l := by
  rw [Timely, List.map_append] at h
  exact (List.pairwise_append.mp h).left

theorem getLast?_le (h : Timely (l ++ [(input, now)])) : ∀ o ∈ l.getLast?, o.2 ≤ now := by
  intro o ho
  rw [Timely, List.map_append] at h
  have ⟨_, _, hle⟩ := List.pairwise_append.mp h
  exact hle o.2 (List.mem_map_of_mem <| List.mem_of_getLast? ho) now (.head _)

theorem sublist (h : Timely l) (hs : l'.Sublist l) : Timely l' :=
  List.Pairwise.sublist (hs.map Prod.snd) h

end Timely

end Timely

end History

end SignalFlow
