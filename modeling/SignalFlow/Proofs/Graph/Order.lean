import Mathlib.Data.List.Perm.Subperm
import SignalFlow.Graph.Order
import SignalFlow.Proofs.Graph.Cycle

/-!
In the order of a wiring every position comes after all that feed it, and the order leaves out
nothing exactly if the wiring is acyclic.
-/

open Relation

namespace SignalFlow

namespace Wiring

variable {w : Wiring} {degrees targets queue done : List Nat} {i j : Nat}

theorem getD_set_pred (degrees : List Nat) (j k : Nat) :
    (degrees.set j (degrees.getD j 0 - 1)).getD k 0 =
      degrees.getD k 0 - if j = k then 1 else 0 := by
  simp only [List.getD_eq_getElem?_getD, List.getElem?_set]
  by_cases hk : j = k <;> by_cases hl : j < degrees.length <;> simp_all [Nat.not_lt.mpr]

-- Closing more arcs than are open leaves none open.
theorem getD_closeArcs (degrees targets : List Nat) (j : Nat) :
    (closeArcs degrees targets).1.getD j 0 = degrees.getD j 0 - targets.count j := by
  induction targets generalizing degrees
  case nil => simp [closeArcs]
  case cons k targets hi =>
    simp only [closeArcs, hi, getD_set_pred, List.count_cons, beq_iff_eq]
    omega

theorem mem_closeArcs_iff :
    j ∈ (closeArcs degrees targets).2 ↔
      0 < degrees.getD j 0 ∧ degrees.getD j 0 ≤ targets.count j := by
  induction targets generalizing degrees
  case nil =>
    simp only [closeArcs, List.not_mem_nil, List.count_nil, false_iff]
    omega
  case cons k targets hi =>
    have hm : j ∈ (closeArcs degrees (k :: targets)).2 ↔
        (degrees.getD k 0 = 1 ∧ j = k) ∨
          j ∈ (closeArcs (degrees.set k (degrees.getD k 0 - 1)) targets).2 := by
      simp only [closeArcs]
      split <;> simp_all
    rw [hm, hi, getD_set_pred, List.count_cons]
    by_cases hk : k = j
    case pos => subst hk; simp only [ite_true, beq_self_eq_true, and_true]; omega
    case neg => simp [hk, Ne.symm hk]

theorem nodup_closeArcs (degrees targets : List Nat) : (closeArcs degrees targets).2.Nodup := by
  induction targets generalizing degrees
  case nil => exact .nil
  case cons k targets hi =>
    simp only [closeArcs]
    split
    case isFalse   => exact hi _
    case isTrue hd =>
      refine List.nodup_cons.mpr ⟨?_, hi _⟩
      -- Its last arc was just closed, and a position without open arcs is not released again.
      rw [mem_closeArcs_iff, getD_set_pred, hd]
      simp

-- The open arcs into a position are those from positions that are not yet done, and a position
-- without open arcs is done or waits in the queue.
structure Draining (w : Wiring) (degrees queue done : List Nat) : Prop where
  counts  : ∀ j, degrees.getD j 0 = (w.predecessors j).countP (· ∉ done)
  ready   : ∀ j < w.size, degrees.getD j 0 = 0 ↔ j ∈ done ∨ j ∈ queue
  bounded : ∀ j, j ∈ done ∨ j ∈ queue → j < w.size
  fresh   : queue.Nodup
  apart   : ∀ j ∈ queue, j ∉ done
  settled : Settled (fun j i => w.Arc i j) done

theorem countP_not_mem_cons {l : List Nat} (h : i ∉ done) :
    l.countP (· ∉ i :: done) = l.countP (· ∉ done) - l.count i := by
  induction l
  case nil => rfl
  case cons k l hi =>
    have hle : l.count i ≤ l.countP (· ∉ done) := by
      rw [List.count_eq_countP]
      exact List.countP_mono_left fun k _ hk => by simpa [eq_of_beq hk] using h
    by_cases hk : k = i
    case pos => subst hk; simp_all
    case neg =>
      by_cases hd : k ∈ done
      case pos => simp_all
      case neg => simp_all; omega

namespace Draining

theorem init (w : Wiring) :
    w.Draining ((List.range w.size).map w.inDegree)
      ((List.range w.size).filter (w.inDegree · = 0)) [] where
  counts j := by
    by_cases hj : j < w.size
    case pos => simp [List.getD_eq_getElem?_getD, hj, inDegree]
    case neg =>
      have hn : w.predecessors j = [] := List.eq_nil_iff_forall_not_mem.mpr fun i hi =>
        hj (mem_predecessors_iff.mp hi).lt_size.right
      simp [List.getD_eq_getElem?_getD, hj, hn]
  ready j hj := by simp [List.getD_eq_getElem?_getD, hj]
  bounded j := by simp +contextual
  fresh   := List.nodup_range.filter _
  apart   := by simp
  settled := .nil

variable (h : w.Draining degrees (i :: queue) done)

include h in
theorem getD_step (j : Nat) :
    (closeArcs degrees (w.successors i)).1.getD j 0 =
      (w.predecessors j).countP (· ∉ i :: done) := by
  rw [getD_closeArcs, h.counts, count_successors_eq_count_predecessors,
    countP_not_mem_cons (h.apart i <| .head _)]

include h in
theorem not_mem_of_mem_closeArcs (hj : j ∈ (closeArcs degrees (w.successors i)).2) :
    j < w.size ∧ j ∉ done ∧ j ∉ i :: queue := by
  have ⟨hp, hc⟩ := mem_closeArcs_iff.mp hj
  have hs := List.count_pos_iff.mp <| Nat.lt_of_lt_of_le hp hc
  have hb := (mem_successors_iff.mp hs).lt_size.right
  have hr := mt (h.ready j hb).mpr hp.ne'
  exact ⟨hb, not_or.mp hr⟩

include h in
theorem step :
    w.Draining (closeArcs degrees (w.successors i)).1
      (queue ++ (closeArcs degrees (w.successors i)).2) (i :: done) where
  counts  := h.getD_step
  ready j hj := by
    have hr := h.ready j hj
    simp only [List.mem_cons, List.mem_append, mem_closeArcs_iff] at hr ⊢
    rw [getD_closeArcs, Nat.sub_eq_zero_iff_le]
    by_cases hz : degrees.getD j 0 = 0
    case pos => simp only [hz, Nat.zero_le, true_iff] at hr ⊢; tauto
    case neg => simp only [hz, false_iff] at hr; simp only [Nat.pos_of_ne_zero hz]; tauto
  bounded j hj := by
    by_cases hr : j ∈ (closeArcs degrees (w.successors i)).2
    case pos => exact (h.not_mem_of_mem_closeArcs hr).left
    case neg =>
      apply h.bounded j
      simp only [List.mem_cons, List.mem_append] at hj ⊢
      tauto
  fresh   := by
    have ⟨_, hq⟩ := List.nodup_cons.mp h.fresh
    refine List.nodup_append.mpr ⟨hq, nodup_closeArcs .., fun j hj k hk he => ?_⟩
    exact (h.not_mem_of_mem_closeArcs hk).right.right <| .tail _ (he ▸ hj)
  apart j hj := by
    have ⟨hi, _⟩ := List.nodup_cons.mp h.fresh
    cases List.mem_append.mp hj
    case inl hj =>
      have hn := h.apart j <| .tail _ hj
      exact List.not_mem_cons_of_ne_of_not_mem (ne_of_mem_of_not_mem hj hi) hn
    case inr hj =>
      have ⟨_, hd, hq⟩ := h.not_mem_of_mem_closeArcs hj
      exact List.not_mem_cons_of_ne_of_not_mem (List.ne_of_not_mem_cons hq) hd
  settled := by
    have hi : i ∈ i :: queue := .head _
    have hz := (h.ready i <| h.bounded i <| .inr hi).mpr <| .inr hi
    rw [h.counts, List.countP_eq_zero] at hz
    refine .cons (h.apart i hi) (fun k ha => ?_) h.settled
    simpa using hz k <| mem_predecessors_iff.mpr ha

end Draining

theorem exists_draining_of_drain (h : w.Draining degrees queue done) :
    ∃ degrees', w.Draining degrees' [] ((w.drain degrees queue).reverse ++ done) := by
  fun_induction drain w degrees queue generalizing done
  case case1          => exact ⟨_, h⟩
  case case2 closed hi =>
    have ⟨_, h⟩ := hi h.step
    exact ⟨_, by simpa using h⟩

theorem exists_draining_order (w : Wiring) : ∃ degrees, w.Draining degrees [] w.order.reverse := by
  have ⟨_, h⟩ := exists_draining_of_drain (.init w)
  exact ⟨_, by simpa [order] using h⟩

theorem settled_order (w : Wiring) : Settled (fun j i => w.Arc i j) w.order.reverse :=
  have ⟨_, h⟩ := w.exists_draining_order
  h.settled

theorem nodup_order (w : Wiring) : w.order.Nodup :=
  List.nodup_reverse.mp w.settled_order.nodup

theorem lt_size_of_mem_order (h : i ∈ w.order) : i < w.size :=
  have ⟨_, hd⟩ := w.exists_draining_order
  hd.bounded i <| .inl <| List.mem_reverse.mpr h

theorem idxOf_order_lt (ha : w.Arc i j) (hj : j ∈ w.order) : w.order.idxOf i < w.order.idxOf j := by
  have := w.settled_order.idxOf_lt (List.mem_reverse.mpr hj) ha
  rwa [List.reverse_reverse] at this

-- Nothing that waits only for positions of the order is left out of it.
theorem mem_order_of_forall (hj : j < w.size) (h : ∀ i, w.Arc i j → i ∈ w.order) : j ∈ w.order := by
  have ⟨degrees, hd⟩ := w.exists_draining_order
  have hz : degrees.getD j 0 = 0 := by
    rw [hd.counts, List.countP_eq_zero]
    intro i hi
    simpa using h i <| mem_predecessors_iff.mp hi
  simpa using (hd.ready j hj).mp hz

theorem order_perm_range_iff (w : Wiring) : w.order.Perm (List.range w.size) ↔ w.Acyclic := by
  constructor
  case mp =>
    intro hp i ht
    have ⟨_, ha, _⟩ := TransGen.head'_iff.mp ht
    have hm := hp.mem_iff.mpr <| List.mem_range.mpr ha.lt_size.left
    exact w.settled_order.irrefl (List.mem_reverse.mpr hm) <| transGen_swap.mp ht
  case mpr =>
    intro h
    apply (List.perm_ext_iff_of_nodup w.nodup_order List.nodup_range).mpr
    intro j
    rw [List.mem_range]
    constructor
    case mp  => exact lt_size_of_mem_order
    case mpr => exact h.induction (fun j hj => mem_order_of_forall hj) j

theorem order_subperm_range (w : Wiring) : w.order.Subperm (List.range w.size) :=
  List.subperm_of_subset w.nodup_order fun _ hi => List.mem_range.mpr <| lt_size_of_mem_order hi

-- The search for cycles and the order give the same verdict.
theorem length_order_lt_iff (w : Wiring) : w.order.length < w.size ↔ w.cycles ≠ [] := by
  have hs := w.order_subperm_range
  rw [ne_eq, cycles_eq_nil_iff, ←order_perm_range_iff, ←Nat.not_le, not_iff_not]
  constructor
  case mp  => exact fun hl => hs.perm_of_length_le <| by simpa using hl
  case mpr => exact fun hp => by simpa using hp.length_eq.ge

end Wiring

end SignalFlow
