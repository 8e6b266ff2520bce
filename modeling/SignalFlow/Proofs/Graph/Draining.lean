import SignalFlow.Proofs.Graph.Positions
import SignalFlow.Proofs.Graph.Search

/-!
The loop that makes the order, step by step. Every arc that is closed was open, no position joins the
queue twice, and the loop ends on every wiring. Only positions on a cycle, or behind one, never leave
the queue.
-/

open Relation

namespace SignalFlow

namespace Wiring

-- The loop between two steps.
structure Loop where
  -- the arcs into every position that are still open
  degrees : List Nat
  queue   : List Nat
  order   : List Nat
  -- the arcs to be closed before the queue is looked at
  targets : List Nat

namespace Loop

variable {w : Wiring}

-- Closes the next arc, or goes on with the next position in the queue. A loop without anything left
-- to do is over.
def step (w : Wiring) : Loop → Loop
  | ⟨degrees, queue, order, j :: targets⟩ =>
    let left := degrees.getD j 0 - 1
    ⟨degrees.set j left, if left = 0 then queue ++ [j] else queue, order, targets⟩
  | ⟨degrees, i :: queue, order, []⟩      => ⟨degrees, queue, order ++ [i], w.successors i⟩
  | ⟨degrees, [], order, []⟩              => ⟨degrees, [], order, []⟩

def start (w : Wiring) : Loop :=
  ⟨(List.range w.size).map w.inDegree, (List.range w.size).filter (w.inDegree · = 0), [], []⟩

-- Arcs that are to be closed are open, and once they are closed all is as it has to be before the
-- queue is looked at.
structure Sound (w : Wiring) (s : Loop) : Prop where
  covered  : ∀ j, s.targets.count j ≤ s.degrees.getD j 0
  draining : w.Draining (closeArcs s.degrees s.targets).1
    (s.queue ++ (closeArcs s.degrees s.targets).2) s.order.reverse

-- What is still to leave the queue.
def rest (w : Wiring) (s : Loop) : List Nat :=
  w.drain (closeArcs s.degrees s.targets).1 (s.queue ++ (closeArcs s.degrees s.targets).2)

-- The steps that are left: one for each position, and one for each arc.
def work (w : Wiring) (s : Loop) : Nat :=
  s.targets.length + ((s.rest w).map (w.outDegree · + 1)).sum

namespace Sound

theorem start (w : Wiring) : (start w).Sound w where
  covered j := by simp [Loop.start]
  draining  := by simpa [Loop.start, closeArcs] using Draining.init w

variable {s : Loop} {degrees queue order targets : List Nat} {i j : Nat}

theorem pos (h : Sound w ⟨degrees, queue, order, j :: targets⟩) : 0 < degrees.getD j 0 :=
  Nat.lt_of_lt_of_le (List.count_pos_iff.mpr <| .head _) (h.covered j)

theorem covered_tail (h : Sound w ⟨degrees, queue, order, j :: targets⟩) (k : Nat) :
    targets.count k ≤ (degrees.set j (degrees.getD j 0 - 1)).getD k 0 := by
  have hc : (j :: targets).count k ≤ degrees.getD k 0 := h.covered k
  simp only [List.count_cons, beq_iff_eq] at hc
  rw [getD_set_pred]
  omega

-- The arcs out of a position are open as long as it has not left the queue.
theorem count_successors_le (h : Sound w ⟨degrees, i :: queue, order, []⟩) (j : Nat) :
    (w.successors i).count j ≤ degrees.getD j 0 := by
  have hd : w.Draining degrees (i :: queue) order.reverse := by
    simpa [closeArcs] using h.draining
  rw [hd.counts, count_successors_eq_count_predecessors, List.count_eq_countP]
  refine List.countP_mono_left fun k _ hk => ?_
  simpa [eq_of_beq hk] using hd.apart i (.head _)

-- It makes no difference to the queue whether arcs are closed one after the other or all at once.
theorem queue_closeArcs (h : Sound w ⟨degrees, queue, order, j :: targets⟩) :
    (if degrees.getD j 0 - 1 = 0 then queue ++ [j] else queue) ++
        (closeArcs (degrees.set j (degrees.getD j 0 - 1)) targets).2 =
      queue ++ (closeArcs degrees (j :: targets)).2 := by
  have hp := h.pos
  have hl : degrees.getD j 0 - 1 = 0 ↔ degrees.getD j 0 = 1 := by omega
  simp only [closeArcs, hl]
  split <;> simp

theorem step (h : s.Sound w) : (s.step w).Sound w := by
  fun_cases Loop.step w s
  case case1 degrees queue order j targets left =>
    exact ⟨h.covered_tail, h.queue_closeArcs ▸ h.draining⟩
  case case2 degrees i queue order =>
    refine ⟨h.count_successors_le, ?_⟩
    have hd := h.draining
    simp only [closeArcs, List.append_nil] at hd
    rw [List.reverse_append]
    exact hd.step
  case case3 => exact h

theorem iterate_step (h : s.Sound w) (n : Nat) : ((Loop.step w)^[n] s).Sound w := by
  induction n
  case zero      => exact h
  case succ n hi => rw [Function.iterate_succ_apply']; exact hi.step

-- What joined the queue so far did so once.
theorem nodup (h : s.Sound w) : (s.order ++ s.queue).Nodup := by
  have ⟨hq, _, _⟩ := List.nodup_append.mp h.draining.fresh
  refine List.nodup_append.mpr ⟨List.nodup_reverse.mp h.draining.settled.nodup, hq, ?_⟩
  rintro i hi _ hj rfl
  exact h.draining.apart i (List.mem_append_left _ hj) (List.mem_reverse.mpr hi)

theorem lt_size (h : s.Sound w) (hi : i ∈ s.order ++ s.queue) : i < w.size := by
  apply h.draining.bounded
  cases List.mem_append.mp hi
  case inl hi => exact .inl <| List.mem_reverse.mpr hi
  case inr hi => exact .inr <| List.mem_append_left _ hi

theorem rest_closeArcs (h : Sound w ⟨degrees, queue, order, j :: targets⟩) :
    (Loop.step w ⟨degrees, queue, order, j :: targets⟩).rest w =
      rest w ⟨degrees, queue, order, j :: targets⟩ :=
  congrArg (w.drain _) h.queue_closeArcs

-- What leaves the queue is settled from the start.
theorem rest_step (h : s.Sound w) : (s.step w).order ++ (s.step w).rest w = s.order ++ s.rest w := by
  fun_cases Loop.step w s
  case case1 => exact congrArg _ h.rest_closeArcs
  case case2 => simp [rest, closeArcs, drain]
  case case3 => rfl

theorem work_step (h : s.Sound w) : (s.step w).work w = s.work w - 1 := by
  fun_cases Loop.step w s
  case case1 degrees queue order j targets left =>
    have hr := h.rest_closeArcs
    rw [work, work, ←hr, List.length_cons, Nat.add_right_comm, Nat.add_sub_cancel]
    rfl
  case case2 =>
    simp [work, rest, closeArcs, drain, outDegree]
  case case3 => simp [work, rest, closeArcs, drain]

end Sound

theorem eq_of_work_eq_zero {s : Loop} (h : s.work w = 0) :
    s = ⟨s.degrees, [], s.order ++ s.rest w, []⟩ := by
  obtain ⟨degrees, queue, order, targets⟩ := s
  cases targets
  case cons => simp [work] at h
  case nil  =>
    cases queue
    case cons => simp [work, rest, closeArcs, drain] at h
    case nil  => simp [rest, closeArcs, drain]

theorem exists_iterate_step {s : Loop} {n : Nat} (h : s.Sound w) (hn : s.work w ≤ n) :
    ∃ degrees, (step w)^[n] s = ⟨degrees, [], s.order ++ s.rest w, []⟩ := by
  induction n generalizing s
  case zero      => exact ⟨_, eq_of_work_eq_zero <| Nat.le_zero.mp hn⟩
  case succ n hi =>
    have hw := h.work_step
    rw [Function.iterate_succ_apply, ←h.rest_step]
    exact hi h.step (by omega)

theorem rest_start (w : Wiring) : (start w).rest w = w.order := by
  simp [rest, start, closeArcs, Wiring.order]

-- No position leaves the queue twice, so there is no more to do than for all positions and all arcs.
theorem work_start_le (w : Wiring) : (start w).work w ≤ w.size + w.arcs.length := by
  have ⟨l, hp, hs⟩ := w.order_subperm_range
  have hw : (start w).work w = (w.order.map (w.outDegree · + 1)).sum := by
    rw [work, rest_start]
    exact Nat.zero_add _
  have ha : ((List.range w.size).map (w.outDegree · + 1)).sum = w.size + w.arcs.length := by
    rw [List.sum_map_add, sum_outDegree]
    simp [Nat.add_comm]
  rw [hw, ←ha, ←(hp.map _).sum_eq]
  exact (hs.map _).sum_le_sum (by simp)

end Loop

-- The order by as many steps as there is ever work for. Unlike the loop as such this can be computed.
theorem order_eq_iterate_step (w : Wiring) :
    w.order = ((Loop.step w)^[w.size + w.arcs.length] (.start w)).order := by
  have ⟨_, hl⟩ := Loop.exists_iterate_step (.start w) <| Loop.work_start_le w
  rw [hl, Loop.rest_start]
  rfl

-- A position that no cycle leads to has only such positions in front of it, and among these arcs do
-- not run in circles.
theorem mem_order_iff {w : Wiring} {j : Nat} :
    j ∈ w.order ↔ j < w.size ∧ ¬∃ i, TransGen w.Arc i i ∧ ReflTransGen w.Arc i j := by
  let behind (j : Nat) : Prop := ∃ i, TransGen w.Arc i i ∧ ReflTransGen w.Arc i j
  constructor
  case mp  =>
    intro h
    refine ⟨lt_size_of_mem_order h, fun ⟨i, hc, hr⟩ => ?_⟩
    have hm := List.mem_reverse.mpr h
    have hi : i ∈ w.order.reverse := by
      cases reflTransGen_iff_eq_or_transGen.mp hr
      case inl he => exact he ▸ hm
      case inr ht => exact w.settled_order.closed_transGen hm <| transGen_swap.mpr ht
    exact w.settled_order.irrefl hi <| transGen_swap.mpr hc
  case mpr =>
    intro ⟨hj, hb⟩
    classical
    let free : Wiring :=
      { w with
        arcs    := w.arcs.filter fun a => ¬behind a.2
        bounded := fun a ha => w.bounded a (List.mem_of_mem_filter ha) }
    have arc {i j : Nat} : free.Arc i j ↔ w.Arc i j ∧ ¬behind j :=
      List.mem_filter.trans <| and_congr_right' decide_eq_true_iff
    have acyclic : free.Acyclic := by
      intro i ht
      have ⟨k, _, ha⟩ := TransGen.tail'_iff.mp ht
      exact (arc.mp ha).right ⟨i, ht.lift id fun _ _ ha => (arc.mp ha).left, .refl⟩
    refine acyclic.induction (motive := fun j => ¬behind j → j ∈ w.order) ?_ j hj hb
    intro j hj hi hb
    refine mem_order_of_forall hj fun i ha => hi i (arc.mpr ⟨ha, hb⟩) ?_
    exact fun ⟨k, hc, hr⟩ => hb ⟨k, hc, hr.tail ha⟩

end Wiring

namespace Graph

-- The edge leads from the node at one position to the node at the other.
def Resolves (g : Graph) (i j : Nat) (e : Edge) : Prop :=
  g.position? e.sourceNode = some i ∧ g.position? e.targetNode = some j

instance (g : Graph) (i j : Nat) : DecidablePred (g.Resolves i j) :=
  fun _ => inferInstanceAs <| Decidable (_ ∧ _)

theorem count_successors (g : Graph) (i j : Nat) :
    (g.wiring.successors i).count j = g.edges.countP (g.Resolves i j) := by
  have arc (e : Edge) : g.arc? e = some (i, j) ↔ g.Resolves i j e := by
    simp [arc?, Resolves, Option.bind_eq_some_iff]
  have arcs : g.wiring.arcs.count (i, j) = g.edges.countP (g.Resolves i j) := by
    rw [wiring, List.count_eq_countP, List.countP_filterMap]
    refine List.countP_congr fun e _ => ?_
    rw [decide_eq_true_eq, ←arc]
    cases g.arc? e <;> simp
  rw [←arcs, Wiring.successors, List.count_eq_countP, List.countP_filterMap, List.count_eq_countP]
  refine List.countP_congr fun a _ => ?_
  by_cases h : a.1 = i <;> simp [h, Prod.ext_iff]

-- The loop after a number of steps.
def drainage (g : Graph) (n : Nat) : Wiring.Loop :=
  (Wiring.Loop.step g.wiring)^[n] (.start g.wiring)

-- What the loop does with a graph, be it well-formed or not. Positions leave the queue into the
-- order and stay there, so the two hold whatever joined the queue.
structure OrdersNodes (g : Graph) : Prop where
  balanced : ∀ i j, (g.wiring.successors i).count j = (g.wiring.predecessors j).count i ∧
    (g.wiring.predecessors j).count i = g.edges.countP (g.Resolves i j)
  covered  : ∀ n, ∀ j ∈ (g.drainage n).targets.head?, 0 < (g.drainage n).degrees.getD j 0
  once     : ∀ n, ((g.drainage n).order ++ (g.drainage n).queue).Nodup
  bounded  : ∀ n, ∀ i ∈ (g.drainage n).order ++ (g.drainage n).queue, i < g.nodes.length
  ends     : ∀ n, g.nodes.length + g.edges.length ≤ n →
    ∃ degrees, g.drainage n = ⟨degrees, [], g.wiring.order, []⟩
  complete : ∀ j, j ∈ g.wiring.order ↔
    j < g.nodes.length ∧ ¬∃ i, TransGen g.Arc i i ∧ ReflTransGen g.Arc i j

theorem ordersNodes (g : Graph) : g.OrdersNodes := by
  have sound (n : Nat) : (g.drainage n).Sound g.wiring := (Wiring.Loop.Sound.start _).iterate_step n
  constructor
  case balanced =>
    intro i j
    rw [←Wiring.count_successors_eq_count_predecessors, and_iff_right rfl]
    exact g.count_successors i j
  case covered  =>
    intro n j hj
    have hs := sound n
    generalize g.drainage n = s at hs hj
    obtain ⟨degrees, queue, order, targets⟩ := s
    have ⟨_, ht⟩ := List.head?_eq_some_iff.mp hj
    cases ht
    exact hs.pos
  case once     => exact fun n => (sound n).nodup
  case bounded  => exact fun n _ hi => (sound n).lt_size hi
  case ends     =>
    intro n hn
    have hl : g.wiring.arcs.length ≤ g.edges.length := List.length_filterMap_le ..
    have hw : (Wiring.Loop.start g.wiring).work g.wiring ≤ n :=
      (Wiring.Loop.work_start_le _).trans <| (Nat.add_le_add_left hl _).trans hn
    have ⟨degrees, he⟩ := Wiring.Loop.exists_iterate_step (.start _) hw
    rw [Wiring.Loop.rest_start] at he
    exact ⟨degrees, he⟩
  case complete =>
    intro j
    rw [←g.wiring_arc]
    exact Wiring.mem_order_iff

end Graph

end SignalFlow
