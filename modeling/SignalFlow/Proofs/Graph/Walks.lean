import Mathlib.Data.List.Perm.Lattice
import Mathlib.Logic.Relation
import SignalFlow.Graph.Reach

/-!
Walks along successors, from positions on a stack. No position is lost or met twice, and what is met
is what the stack leads to, as long as the successors do not lead out of what can be met.
-/

open Relation
open scoped List

namespace SignalFlow

namespace Wiring

variable {next : Nat → List Nat} {unseen positions stack : List Nat} {i j : Nat}

section Collect

theorem perm_collect (unseen positions : List Nat) :
    ((collect unseen positions).1 ++ (collect unseen positions).2).Perm unseen := by
  induction positions generalizing unseen
  case nil => exact .refl _
  case cons i positions hi =>
    unfold collect
    split
    case isTrue hm => exact ((hi _).cons i).trans (List.perm_cons_erase hm).symm
    case isFalse   => exact hi _

theorem collect_subset : (collect unseen positions).1 ⊆ positions := by
  induction positions generalizing unseen
  case nil => exact List.nil_subset _
  case cons i positions hi =>
    unfold collect
    split
    case isTrue  => exact List.cons_subset_cons i hi
    case isFalse => exact List.subset_cons_of_subset i hi

theorem collect_sublist : (collect unseen positions).2.Sublist unseen := by
  induction positions generalizing unseen
  case nil => exact .refl _
  case cons i positions hi =>
    unfold collect
    split
    case isTrue  => exact hi.trans List.erase_sublist
    case isFalse => exact hi

-- What stays unseen is none of the given positions.
theorem not_mem_collect (hn : unseen.Nodup) (hm : i ∈ positions) :
    i ∉ (collect unseen positions).2 := by
  induction positions generalizing unseen
  case nil => cases hm
  case cons j positions hi =>
    unfold collect
    split
    case isTrue hu =>
      cases hm
      case head    => exact mt collect_sublist.mem hn.not_mem_erase
      case tail hm => exact hi (hn.erase j) hm
    case isFalse hu =>
      cases hm
      case head    => exact mt collect_sublist.mem hu
      case tail hm => exact hi hn hm

end Collect

def Leads (next : Nat → List Nat) (i j : Nat) : Prop :=
  j ∈ next i

-- None of the positions leads to another one than these.
def Closed (next : Nat → List Nat) (positions : List Nat) : Prop :=
  ∀ i ∈ positions, ∀ j, Leads next i j → j ∈ positions

section Explore

theorem perm_explore (next : Nat → List Nat) (unseen stack : List Nat) :
    ((explore next unseen stack).1 ++ (explore next unseen stack).2).Perm (stack ++ unseen) := by
  fun_induction explore next unseen stack
  case case1 => exact .refl _
  case case2 unseen i stack collected later hi =>
    apply List.Perm.cons i
    have hs : collected.1.reverse ++ stack ~ stack ++ collected.1 :=
      (collected.1.reverse_perm.append_right stack).trans List.perm_append_comm
    calc
      later.1 ++ later.2 ~ collected.1.reverse ++ stack ++ collected.2 := hi
      _ ~ stack ++ collected.1 ++ collected.2                          := hs.append_right _
      _ = stack ++ (collected.1 ++ collected.2)                        := List.append_assoc ..
      _ ~ stack ++ unseen                       := (perm_collect unseen (next i)).append_left stack

theorem mem_explore_or (next : Nat → List Nat) (unseen stack : List Nat) :
    i ∈ (explore next unseen stack).1 ∨ i ∈ (explore next unseen stack).2 ↔
      i ∈ stack ∨ i ∈ unseen := by
  rw [←List.mem_append, (perm_explore next unseen stack).mem_iff, List.mem_append]

theorem explore_sublist : (explore next unseen stack).2.Sublist unseen := by
  fun_induction explore next unseen stack
  case case1    => exact .refl _
  case case2 hi => exact hi.trans collect_sublist

theorem subset_explore : stack ⊆ (explore next unseen stack).1 := by
  fun_induction explore next unseen stack
  case case1    => exact List.nil_subset _
  case case2 hi =>
    exact List.cons_subset_cons _ <| List.Subset.trans (List.subset_append_right _ _) hi

-- Whatever is met, the walk got there from the stack.
theorem exists_leads_of_mem_explore (h : j ∈ (explore next unseen stack).1) :
    ∃ i ∈ stack, ReflTransGen (Leads next) i j := by
  fun_induction explore next unseen stack
  case case1 => cases h
  case case2 unseen i stack collected later hi =>
    cases h
    case head   => exact ⟨j, .head _, .refl⟩
    case tail h =>
      obtain ⟨k, hk, hl⟩ := hi h
      cases List.mem_append.mp hk
      case inr hk => exact ⟨k, .tail _ hk, hl⟩
      case inl hk => exact ⟨i, .head _, .head (collect_subset <| List.mem_reverse.mp hk) hl⟩

-- Nothing that is met leads to a position that stays unseen.
theorem not_mem_explore_of_leads (hn : unseen.Nodup) (hm : i ∈ (explore next unseen stack).1)
    (hl : Leads next i j) : j ∉ (explore next unseen stack).2 := by
  fun_induction explore next unseen stack
  case case1 => cases hm
  case case2 unseen k stack collected later hi =>
    cases hm
    case head    => exact mt explore_sublist.mem (not_mem_collect hn hl)
    case tail hm => exact hi (hn.sublist collect_sublist) hm

theorem mem_explore_iff (hn : unseen.Nodup) (hc : Closed next (stack ++ unseen)) :
    j ∈ (explore next unseen stack).1 ↔ ∃ i ∈ stack, ReflTransGen (Leads next) i j := by
  constructor
  case mp  => exact exists_leads_of_mem_explore
  case mpr =>
    intro ⟨i, hi, hr⟩
    induction hr
    case refl => exact subset_explore hi
    case tail k l _ hl hk =>
      have hk' := List.mem_append.mpr <| (mem_explore_or next unseen stack).mp <| .inl hk
      have hl' := (mem_explore_or next unseen stack).mpr <| List.mem_append.mp <| hc k hk' l hl
      exact hl'.resolve_right <| not_mem_explore_of_leads hn hk hl

end Explore

end Wiring

end SignalFlow
