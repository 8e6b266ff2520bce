import Mathlib
import SignalFlow.Proofs.Graph.Cycle
import SignalFlow.Proofs.Graph.Positions

/-!
The search for cycles step by step, with a stack for its path. It looks at every arc once and leaves
every position once, so it comes to an end. What it has found then are cycles of nodes, and there is
one in every part of the graph in which edges run in a circle.
-/

open Relation

namespace SignalFlow

namespace Wiring

-- A search between two steps. The cycle that was found last stands at the end.
structure Search where
  unseen : List Nat
  path   : List Step
  found  : List (List Nat)

namespace Search

variable {w : Wiring}

-- Looks at the next successor, goes back if there is none, or goes on from the next root. A search
-- without anything left to do is over.
def step (w : Wiring) : Search → Search
  | ⟨[], [], found⟩                            => ⟨[], [], found⟩
  | ⟨root :: unseen, [], found⟩                => ⟨unseen, [⟨root, w.successors root⟩], found⟩
  | ⟨unseen, ⟨_, []⟩ :: path, found⟩           => ⟨unseen, path, found⟩
  | ⟨unseen, ⟨i, j :: pending⟩ :: path, found⟩ =>
    if j ∈ unseen then
      ⟨unseen.erase j, ⟨j, w.successors j⟩ :: ⟨i, pending⟩ :: path, found⟩
    else if j ∈ i :: onPath path then
      ⟨unseen, ⟨i, pending⟩ :: path, found ++ [closedCycle j (i :: onPath path)]⟩
    else ⟨unseen, ⟨i, pending⟩ :: path, found⟩

def start (w : Wiring) : Search :=
  ⟨List.range w.size, [], []⟩

-- What the search will have found when it is over.
def outcome (w : Wiring) (s : Search) : List (List Nat) :=
  s.found ++ (w.cyclesFrom s.unseen s.path).1 ++ w.cyclesAmong (w.cyclesFrom s.unseen s.path).2

-- The steps that are left, at most: two for each position that was not met, and one for each arc.
def work (w : Wiring) (s : Search) : Nat :=
  (s.unseen.map fun i => w.outDegree i + 2).sum + pathSize s.path

theorem outcome_step (w : Wiring) (s : Search) : (s.step w).outcome w = s.outcome w := by
  fun_cases step w s
  case case1       => rfl
  case case2       => simp [outcome, cyclesFrom, cyclesAmong]
  case case3       => simp [outcome, cyclesFrom]
  case case4 hu    => simp [outcome, cyclesFrom, hu]
  case case5 hu hp => simp_all [outcome, cyclesFrom]
  case case6 hu hp => simp_all [outcome, cyclesFrom]

theorem work_step_le (w : Wiring) (s : Search) : (s.step w).work w ≤ s.work w - 1 := by
  fun_cases step w s
  case case4 hu =>
    -- The next position is not met again, and its arcs are now pending.
    have := List.sum_map_erase (fun i => w.outDegree i + 2) hu
    simp only [work, pathSize, List.length_cons, outDegree] at this ⊢
    omega
  all_goals
    simp only [work, pathSize, List.map_nil, List.map_cons, List.sum_nil, List.sum_cons,
      List.length_nil, List.length_cons, outDegree]
    omega

theorem eq_of_work_eq_zero {s : Search} (h : s.work w = 0) : s = ⟨[], [], s.outcome w⟩ := by
  obtain ⟨unseen, path, found⟩ := s
  cases unseen
  case cons     => simp [work] at h
  case nil      =>
    cases path
    case cons   => simp [work, pathSize] at h
    case nil    => simp [outcome, cyclesFrom, cyclesAmong]

-- By then the search is over, and further steps change nothing.
theorem iterate_step {n : Nat} {s : Search} (h : s.work w ≤ n) :
    (step w)^[n] s = ⟨[], [], s.outcome w⟩ := by
  induction n generalizing s
  case zero      => exact eq_of_work_eq_zero <| Nat.le_zero.mp h
  case succ n hi =>
    have hw := work_step_le w s
    rw [Function.iterate_succ_apply, hi (by omega), outcome_step]

theorem outcome_start (w : Wiring) : (start w).outcome w = w.cycles := by
  simp [outcome, start, cyclesFrom, cycles]

end Search

theorem outDegree_eq_count (w : Wiring) (i : Nat) :
    w.outDegree i = (w.arcs.map Prod.fst).count i := by
  rw [outDegree, successors, List.length_filterMap_eq_countP, List.count_eq_countP, List.countP_map]
  refine List.countP_congr fun a _ => ?_
  by_cases h : a.1 = i <;> simp [h]

-- Every arc leaves one position.
theorem sum_outDegree (w : Wiring) : ((List.range w.size).map w.outDegree).sum = w.arcs.length := by
  have hm : ∀ i ∈ (w.arcs.map Prod.fst : Multiset Nat), i ∈ Finset.range w.size := by
    intro i hi
    have ⟨a, ha, hai⟩ := List.mem_map.mp <| Multiset.mem_coe.mp hi
    exact Finset.mem_range.mpr <| hai ▸ (w.bounded a ha).left
  have hs := Multiset.sum_count_eq_card hm
  simp only [Multiset.coe_count, ←outDegree_eq_count, Multiset.coe_card, List.length_map] at hs
  exact hs

theorem Search.work_start (w : Wiring) : (start w).work w = 2 * w.size + w.arcs.length := by
  rw [work, start, List.sum_map_add, sum_outDegree]
  simp [pathSize, mul_comm, add_comm]

-- Whatever lies on a cycle has an arc to leave by.
theorem IsCycle.exists_arc {w : Wiring} {c : List Nat} {i : Nat} (h : w.IsCycle c) (hi : i ∈ c) :
    ∃ j, w.Arc i j := by
  have ⟨first, _, last, hl, ha⟩ := h.closed
  cases (h.reflTransGen hi <| List.mem_of_getLast? hl).cases_head
  case inl he => exact ⟨first, he ▸ ha⟩
  case inr hr => exact ⟨hr.choose, hr.choose_spec.left⟩

end Wiring

namespace Graph

-- The cycles that the search finds, by the ids of their nodes.
def cycles (g : Graph) : List (List String) :=
  g.wiring.cycles.map (·.map g.idAt)

-- No id stands in the list twice; edges lead from each id to the next one, and from the last to the
-- first, which there is.
structure IsCycle (g : Graph) (c : List String) : Prop where
  nodup  : c.Nodup
  chain  : c.IsChain g.Joins
  closed : ∃ first ∈ c.head?, ∃ last ∈ c.getLast?, g.Joins last first

-- Either id is reached from the other, so that both are in the same part of the graph.
def Mutual (g : Graph) (a b : String) : Prop :=
  ReflTransGen g.Joins a b ∧ ReflTransGen g.Joins b a

variable {g : Graph} {id : String}

theorem isCycle_map_idAt {c : List Nat} (h : g.wiring.IsCycle c) : g.IsCycle (c.map g.idAt) where
  nodup  := by
    refine h.nodup.map_on fun i hi j hj he => ?_
    have ⟨_, hi⟩ := h.exists_arc hi
    have ⟨_, hj⟩ := h.exists_arc hj
    have hi := (position?_idAt_of_arc hi).left
    have hj := (position?_idAt_of_arc hj).left
    exact Option.some.inj <| hi.symm.trans <| he ▸ hj
  chain  := (List.isChain_map g.idAt).mpr <| h.chain.imp fun _ _ => joins_of_arc
  closed := by
    have ⟨first, hf, last, hl, ha⟩ := h.closed
    refine ⟨g.idAt first, ?_, g.idAt last, ?_, joins_of_arc ha⟩
    · rw [List.head?_map, hf, Option.map_some]
      rfl
    · rw [List.getLast?_map, hl, Option.map_some]
      rfl

theorem exists_mem_cycles_of_transGen (h : TransGen g.Joins id id) :
    ∃ c ∈ g.cycles, ∀ b ∈ c, g.Mutual id b := by
  have ⟨i, j, hi, hj, ht⟩ := exists_transGen_arc_of_joins h
  cases Option.some.inj <| hi.symm.trans hj
  have ⟨c, hc, hs⟩ := Wiring.exists_mem_cycles_of_transGen ht
  refine ⟨c.map g.idAt, List.mem_map_of_mem hc, fun b hb => ?_⟩
  have ⟨k, hk, hkb⟩ := List.mem_map.mp hb
  have ⟨hik, hki⟩ := hs k hk
  rw [←idAt_of_position? hi, ←hkb]
  exact ⟨hik.lift g.idAt fun _ _ => joins_of_arc, hki.lift g.idAt fun _ _ => joins_of_arc⟩

theorem cycles_eq_nil_iff_joins (g : Graph) :
    g.cycles = [] ↔ ∀ id, ¬TransGen g.Joins id id := by
  rw [cycles, List.map_eq_nil_iff, Wiring.cycles_eq_nil_iff, acyclic_wiring_iff_joins]

-- What the search does with a graph, be it well-formed or not. It takes a number of steps that is
-- linear in the size of the graph.
structure SearchesCycles (g : Graph) : Prop where
  ends     : ∀ n, 2 * g.nodes.length + g.edges.length ≤ n →
    (Wiring.Search.step g.wiring)^[n] (.start g.wiring) = ⟨[], [], g.wiring.cycles⟩
  sound    : ∀ c ∈ g.cycles, g.IsCycle c
  complete : ∀ id, TransGen g.Joins id id → ∃ c ∈ g.cycles, ∀ b ∈ c, g.Mutual id b
  acyclic  : g.cycles = [] ↔ ∀ id, ¬TransGen g.Joins id id

theorem searchesCycles (g : Graph) : g.SearchesCycles where
  ends n h   := by
    have hl : g.wiring.arcs.length ≤ g.edges.length := List.length_filterMap_le ..
    have hs : g.wiring.size = g.nodes.length := rfl
    rw [Wiring.Search.iterate_step, Wiring.Search.outcome_start]
    rw [Wiring.Search.work_start]
    omega
  sound c h  := by
    have ⟨c, hc, he⟩ := List.mem_map.mp h
    exact he ▸ isCycle_map_idAt (Wiring.isCycle_of_mem_cycles hc)
  complete _ := exists_mem_cycles_of_transGen
  acyclic    := g.cycles_eq_nil_iff_joins

end Graph

end SignalFlow
