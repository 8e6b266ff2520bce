import SignalFlow.Proofs.Graph.Order
import SignalFlow.Validation.Passes

/-!
Positions and ids. Edges whose ends exist are arcs, and as long as no id repeats, an order of
positions is an order of ids.
-/

open Relation

namespace SignalFlow

open Validation (ids)

namespace Graph

def Feeds (g : Graph) (a b : String) : Prop :=
  ∃ e ∈ g.edges, e.sourceNode = a ∧ e.targetNode = b

-- The edge has two ends that exist.
def Joins (g : Graph) (a b : String) : Prop :=
  g.Feeds a b ∧ a ∈ ids g ∧ b ∈ ids g

-- The same for the positions that the ends of an edge stand at.
def Arc (g : Graph) (i j : Nat) : Prop :=
  ∃ e ∈ g.edges, g.position? e.sourceNode = some i ∧ g.position? e.targetNode = some j

-- Both ends of every edge exist.
def Resolved (g : Graph) : Prop :=
  ∀ e ∈ g.edges, e.sourceNode ∈ ids g ∧ e.targetNode ∈ ids g

variable {g : Graph} {a b id : String} {i j : Nat}

theorem idAt_of_position? (h : g.position? id = some i) : g.idAt i = id := by
  have ⟨hl, hp, _⟩ := List.findIdx?_eq_some_iff_getElem.mp h
  simpa [idAt, hl] using hp

theorem exists_position?_iff : (∃ i, g.position? id = some i) ↔ id ∈ ids g := by
  rw [←Option.isSome_iff_exists, position?, List.findIdx?_isSome]
  simp [ids]

theorem map_idAt_range (g : Graph) : (List.range g.nodes.length).map g.idAt = ids g := by
  apply List.ext_getElem <;> simp +contextual [ids, idAt]

theorem arc_iff :
    g.wiring.Arc i j ↔
      ∃ e ∈ g.edges, g.position? e.sourceNode = some i ∧ g.position? e.targetNode = some j := by
  simp [Wiring.Arc, wiring, arc?, List.mem_filterMap, Option.bind_eq_some_iff]

theorem wiring_arc (g : Graph) : g.wiring.Arc = g.Arc :=
  funext₂ fun _ _ => propext arc_iff

theorem feeds_of_arc (h : g.wiring.Arc i j) : g.Feeds (g.idAt i) (g.idAt j) :=
  have ⟨e, he, hs, ht⟩ := arc_iff.mp h
  ⟨e, he, (idAt_of_position? hs).symm, (idAt_of_position? ht).symm⟩

-- Of the nodes with an id, it is the first one that has arcs.
theorem position?_idAt_of_arc (h : g.wiring.Arc i j) :
    g.position? (g.idAt i) = some i ∧ g.position? (g.idAt j) = some j := by
  have ⟨_, _, hs, ht⟩ := arc_iff.mp h
  exact ⟨(idAt_of_position? hs).symm ▸ hs, (idAt_of_position? ht).symm ▸ ht⟩

theorem joins_of_arc (h : g.wiring.Arc i j) : g.Joins (g.idAt i) (g.idAt j) :=
  have ⟨hi, hj⟩ := position?_idAt_of_arc h
  ⟨feeds_of_arc h, exists_position?_iff.mp ⟨i, hi⟩, exists_position?_iff.mp ⟨j, hj⟩⟩

theorem joins_of_feeds (hr : g.Resolved) (h : g.Feeds a b) : g.Joins a b := by
  have ⟨e, he, hs, ht⟩ := h
  exact ⟨h, hs ▸ (hr e he).left, ht ▸ (hr e he).right⟩

theorem exists_arc_of_joins (h : g.Joins a b) :
    ∃ i j, g.position? a = some i ∧ g.position? b = some j ∧ g.wiring.Arc i j := by
  have ⟨⟨e, he, hs, ht⟩, ha, hb⟩ := h
  have ⟨i, hi⟩ := exists_position?_iff.mpr ha
  have ⟨j, hj⟩ := exists_position?_iff.mpr hb
  exact ⟨i, j, hi, hj, arc_iff.mpr ⟨e, he, hs ▸ hi, ht ▸ hj⟩⟩

theorem exists_transGen_arc_of_joins (h : TransGen g.Joins a b) :
    ∃ i j, g.position? a = some i ∧ g.position? b = some j ∧ TransGen g.wiring.Arc i j := by
  induction h
  case single h =>
    have ⟨i, j, hi, hj, ha⟩ := exists_arc_of_joins h
    exact ⟨i, j, hi, hj, .single ha⟩
  case tail h hi =>
    have ⟨i, j, hi, hj, ht⟩ := hi
    have ⟨j', k, hj', hk, ha⟩ := exists_arc_of_joins h
    cases Option.some.inj <| hj.symm.trans hj'
    exact ⟨i, k, hi, hk, ht.tail ha⟩

theorem acyclic_wiring_iff_joins : g.wiring.Acyclic ↔ ∀ id, ¬TransGen g.Joins id id := by
  constructor
  case mp =>
    intro h id ht
    have ⟨i, j, hi, hj, ht⟩ := exists_transGen_arc_of_joins ht
    exact h i (Option.some.inj (hi.symm.trans hj) ▸ ht)
  case mpr =>
    intro h i ht
    exact h (g.idAt i) <| ht.lift g.idAt fun _ _ => joins_of_arc

theorem acyclic_wiring_iff (hr : g.Resolved) :
    g.wiring.Acyclic ↔ ∀ id, ¬TransGen g.Feeds id id := by
  have hj : g.Joins = g.Feeds := funext₂ fun _ _ => propext ⟨And.left, joins_of_feeds hr⟩
  rw [acyclic_wiring_iff_joins, hj]

-- Every node stands in the order once, and the source of every edge stands before its target.
structure IsOrder (g : Graph) (order : List String) : Prop where
  perm    : order.Perm (ids g)
  nodup   : order.Nodup
  forward : ∀ e ∈ g.edges, ∃ i j : Nat, i < j ∧
    order[i]? = some e.sourceNode ∧ order[j]? = some e.targetNode

theorem isOrder_wiring_order (hn : (ids g).Nodup) (hr : g.Resolved) (ha : g.wiring.Acyclic) :
    g.IsOrder (g.wiring.order.map g.idAt) := by
  have hp := g.wiring.order_perm_range_iff.mpr ha
  have hm := hp.map g.idAt
  rw [wiring, map_idAt_range] at hm
  constructor
  case perm    => exact hm
  case nodup   => exact hm.nodup_iff.mpr hn
  case forward =>
    intro e he
    have ⟨i, j, hi, hj, ha⟩ := exists_arc_of_joins (joins_of_feeds hr ⟨e, he, rfl, rfl⟩)
    have hmi := hp.mem_iff.mpr <| List.mem_range.mpr ha.lt_size.left
    have hmj := hp.mem_iff.mpr <| List.mem_range.mpr ha.lt_size.right
    refine ⟨_, _, Wiring.idxOf_order_lt ha hmj, ?_, ?_⟩
    · rw [List.getElem?_map, List.getElem?_idxOf hmi, Option.map_some, idAt_of_position? hi]
    · rw [List.getElem?_map, List.getElem?_idxOf hmj, Option.map_some, idAt_of_position? hj]

-- For a list, being such an order can be decided.
theorem isOrder_of_idxOf {order : List String} (perm : order.Perm (ids g)) (nodup : order.Nodup)
    (forward : ∀ e ∈ g.edges, e.targetNode ∈ order ∧
      order.idxOf e.sourceNode < order.idxOf e.targetNode) : g.IsOrder order where
  perm        := perm
  nodup       := nodup
  forward e h := by
    have ⟨ht, hlt⟩ := forward e h
    have hs : e.sourceNode ∈ order :=
      List.idxOf_lt_length_iff.mp <| hlt.trans <| List.idxOf_lt_length_of_mem ht
    exact ⟨_, _, hlt, List.getElem?_idxOf hs, List.getElem?_idxOf ht⟩

-- No path leads into a list of nodes that no edge leads into.
theorem mem_of_feeds {l : List String} {a b : String}
    (h : ∀ e ∈ g.edges, e.targetNode ∈ l → e.sourceNode ∈ l) (hr : ReflTransGen g.Feeds a b)
    (hb : b ∈ l) : a ∈ l := by
  induction hr using ReflTransGen.head_induction_on
  case refl         => exact hb
  case head hf _ hi =>
    have ⟨e, he, hs, ht⟩ := hf
    exact hs ▸ h e he (ht ▸ hi)

-- Edges that lead upwards in some measure do not run in a circle.
theorem not_transGen_feeds_of_lt (rank : String → Nat)
    (h : ∀ e ∈ g.edges, rank e.sourceNode < rank e.targetNode) : ¬TransGen g.Feeds id id := by
  intro ht
  have hl : TransGen (· < ·) (rank id) (rank id) :=
    ht.lift rank fun a b ⟨e, he, hs, ht⟩ => hs ▸ ht ▸ h e he
  rw [transGen_eq_self] at hl
  exact Nat.lt_irrefl _ hl

end Graph

end SignalFlow
