import Mathlib.Data.Fintype.Card
import Mathlib.Logic.Relation
import Mathlib.Data.Fintype.EquivFin
import SignalFlow.Graph.Wiring

/-!
Arcs of a wiring as a relation between positions, and lists in which every position comes after all
that it is related to.
-/

open Relation

namespace SignalFlow

namespace Wiring

def Arc (w : Wiring) (i j : Nat) : Prop :=
  (i, j) ∈ w.arcs

def Acyclic (w : Wiring) : Prop :=
  ∀ i, ¬TransGen w.Arc i i

variable {w : Wiring} {i j : Nat}

theorem Arc.lt_size (h : w.Arc i j) : i < w.size ∧ j < w.size :=
  w.bounded (i, j) h

theorem mem_successors_iff : j ∈ w.successors i ↔ w.Arc i j := by
  simp [successors, Arc, List.mem_filterMap]

theorem mem_predecessors_iff : i ∈ w.predecessors j ↔ w.Arc i j := by
  simp [predecessors, Arc, List.mem_filterMap]

-- Parallel arcs are counted as often as they occur, from either end.
theorem count_successors_eq_count_predecessors (w : Wiring) (i j : Nat) :
    (w.successors i).count j = (w.predecessors j).count i := by
  unfold successors predecessors
  induction w.arcs
  case nil => rfl
  case cons a arcs hi =>
    have ⟨k, l⟩ := a
    by_cases hk : k = i <;> by_cases hl : l = j <;>
      simp [hk, hl, hi]

-- Positions on which arcs do not run in circles can be treated one after the other, each one after
-- all that feed it.
theorem Acyclic.induction {motive : Nat → Prop} (h : w.Acyclic)
    (step : ∀ j < w.size, (∀ i, w.Arc i j → motive i) → motive j) : ∀ j < w.size, motive j := by
  let before (a b : Fin w.size) : Prop := TransGen w.Arc a b
  have : IsTrans (Fin w.size) before := ⟨fun _ _ _ => TransGen.trans⟩
  have : Std.Irrefl before := ⟨fun a => h a⟩
  have wf : WellFounded before := Finite.wellFounded_of_trans_of_irrefl before
  intro j hj
  induction hb : (⟨j, hj⟩ : Fin w.size) using wf.induction generalizing j
  case _ b hi =>
    subst hb
    apply step j hj
    intro i ha
    exact hi ⟨i, ha.lt_size.left⟩ (.single ha) i ha.lt_size.left rfl

end Wiring

-- The latest position stands in front. It was added when everything that it is related to was
-- there already.
inductive Settled (r : Nat → Nat → Prop) : List Nat → Prop
  | nil : Settled r []
  | cons {i : Nat} {done : List Nat} (fresh : i ∉ done) (deps : ∀ j, r i j → j ∈ done)
      (rest : Settled r done) : Settled r (i :: done)

namespace Settled

variable {r : Nat → Nat → Prop} {done : List Nat} {i j : Nat}

theorem nodup (h : Settled r done) : done.Nodup := by
  induction h
  case nil => exact .nil
  case cons fresh _ _ hi => exact List.nodup_cons.mpr ⟨fresh, hi⟩

theorem closed (h : Settled r done) (hm : i ∈ done) (hr : r i j) : j ∈ done := by
  induction h
  case nil => cases hm
  case cons deps _ hi =>
    cases hm
    case head   => exact .tail _ <| deps j hr
    case tail h => exact .tail _ <| hi h

theorem closed_transGen (h : Settled r done) (hm : i ∈ done) (hr : TransGen r i j) : j ∈ done := by
  induction hr
  case single hr     => exact h.closed hm hr
  case tail _ hr hi  => exact h.closed hi hr

theorem irrefl (h : Settled r done) (hm : i ∈ done) : ¬TransGen r i i := by
  induction h
  case nil => cases hm
  case cons k done fresh deps rest hi =>
    cases hm
    case tail hm => exact hi hm
    case head    =>
      intro hc
      have ⟨j, hj, hji⟩ := TransGen.head'_iff.mp hc
      have hm := deps j hj
      cases reflTransGen_iff_eq_or_transGen.mp hji
      case inl he => exact fresh (he ▸ hm)
      case inr ht => exact fresh (rest.closed_transGen hm ht)

theorem idxOf_lt (h : Settled r done) (hm : i ∈ done) (hr : r i j) :
    done.reverse.idxOf j < done.reverse.idxOf i := by
  induction h
  case nil => cases hm
  case cons k done fresh deps rest hi =>
    simp only [List.reverse_cons]
    cases hm
    case head =>
      have hj := List.mem_reverse.mpr <| deps j hr
      rw [List.idxOf_append_of_mem hj, List.idxOf_append_of_notMem (by simpa using fresh)]
      exact Nat.lt_add_right _ <| List.idxOf_lt_length_of_mem hj
    case tail hm =>
      have hj := List.mem_reverse.mpr <| rest.closed hm hr
      rw [List.idxOf_append_of_mem hj, List.idxOf_append_of_mem (List.mem_reverse.mpr hm)]
      exact hi hm

end Settled

end SignalFlow
