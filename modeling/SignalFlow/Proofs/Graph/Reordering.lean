import SignalFlow.Proofs.Graph.Components
import SignalFlow.Proofs.Validation.WellFormed

/-!
Graphs that have the same nodes and the same edges, each in an order of its own. A position in one
of them means nothing in the other, so whatever they have in common is said of ids.
-/

open Relation
open scoped List

namespace SignalFlow

open Validation (ids)

-- What leads on from an image comes from what leads on from the element itself, step by step and
-- so all the way.
theorem exists_reflTransGen_of_image {α β : Type} {r : α → α → Prop} {s : β → β → Prop} {f : α → β}
    {valid : α → Prop} (h : ∀ a b, valid a → s (f a) b → ∃ a', valid a' ∧ f a' = b ∧ r a a')
    {a : α} {b : β} (ha : valid a) (hs : ReflTransGen s (f a) b) :
    ∃ a', valid a' ∧ f a' = b ∧ ReflTransGen r a a' := by
  induction hs
  case refl         => exact ⟨a, ha, rfl, .refl⟩
  case tail hs hi   =>
    obtain ⟨a', ha', rfl, hr⟩ := hi
    have ⟨a'', ha'', hb, hr'⟩ := h a' _ ha' hs
    exact ⟨a'', ha'', hb, hr.tail hr'⟩

-- The parts are the classes into which a relation divides the elements of a list.
structure Classes {α : Type} (r : α → α → Prop) (l : List α) (parts : List (List α)) : Prop where
  once      : parts.flatten ~ l
  inhabited : ∀ part ∈ parts, part ≠ []
  related   : ∀ part ∈ parts, ∀ a ∈ part, ∀ b, b ∈ part ↔ r a b

namespace Classes

variable {α : Type} {r : α → α → Prop} {l l' : List α} {parts parts' : List (List α)}

theorem mem_map_iff (h : Classes r l parts) {s : Set α} :
    s ∈ parts.map (fun part => {a | a ∈ part}) ↔ ∃ a ∈ l, s = {b | r a b} := by
  rw [List.mem_map]
  constructor
  case mp  =>
    rintro ⟨part, hp, rfl⟩
    have ⟨a, ha⟩ := List.exists_mem_of_ne_nil part <| h.inhabited part hp
    exact ⟨a, h.once.mem_iff.mp <| List.mem_flatten.mpr ⟨part, hp, ha⟩,
      Set.ext fun b => h.related part hp a ha b⟩
  case mpr =>
    rintro ⟨a, ha, rfl⟩
    have ⟨part, hp, ha⟩ := List.mem_flatten.mp <| h.once.mem_iff.mpr ha
    exact ⟨part, hp, Set.ext fun b => h.related part hp a ha b⟩

theorem nodup_map (h : Classes r l parts) (hn : l.Nodup) :
    (parts.map fun part => {a | a ∈ part}).Nodup := by
  have disjoint := (List.nodup_flatten.mp <| h.once.nodup_iff.mpr hn).right
  refine List.pairwise_map.mpr <| disjoint.imp_of_mem fun hp _ hd he => ?_
  have ⟨a, ha⟩ := List.exists_mem_of_ne_nil _ <| h.inhabited _ hp
  exact hd ha <| (Set.ext_iff.mp he a).mp ha

-- So their number depends on nothing else.
theorem length_eq (h : Classes r l parts) (h' : Classes r l' parts') (hn : l.Nodup) (hl : l ~ l') :
    parts.length = parts'.length := by
  have hp : parts.map (fun part => {a | a ∈ part}) ~ parts'.map fun part => {a | a ∈ part} := by
    apply (List.perm_ext_iff_of_nodup (h.nodup_map hn) (h'.nodup_map <| hl.nodup_iff.mp hn)).mpr
    intro s
    simp only [h.mem_map_iff, h'.mem_map_iff, hl.mem_iff]
  simpa using hp.length_eq

end Classes

namespace Graph

variable {g g' : Graph} {i : Nat} {id : String}

theorem mem_ids_iff : id ∈ ids g ↔ ∃ i < g.nodes.length, g.idAt i = id := by
  simp [←map_idAt_range]

section Distinct

variable (hn : (ids g).Nodup)

include hn

theorem position?_idAt (hi : i < g.nodes.length) : g.position? (g.idAt i) = some i := by
  have ⟨j, hj⟩ := exists_position?_iff.mpr <| mem_ids_iff.mpr ⟨i, hi, rfl⟩
  have hl := lt_of_position? hj
  have he : (ids g)[j]? = (ids g)[i]? := by
    simpa [idAt, ids, hi, hl] using idAt_of_position? hj
  exact (List.getElem?_inj (by simpa [ids] using hl) hn).mp he ▸ hj

theorem exists_arc_of_joins_idAt (hi : i < g.nodes.length) (h : g.Joins (g.idAt i) id) :
    ∃ j < g.nodes.length, g.idAt j = id ∧ g.Arc i j := by
  have ⟨i', j, hi', hj, ha⟩ := exists_arc_of_joins h
  cases Option.some.inj <| hi'.symm.trans <| position?_idAt hn hi
  exact ⟨j, lt_of_position? hj, idAt_of_position? hj, g.wiring_arc ▸ ha⟩

theorem exists_arc_of_joins_to_idAt (hi : i < g.nodes.length) (h : g.Joins id (g.idAt i)) :
    ∃ j < g.nodes.length, g.idAt j = id ∧ g.Arc j i := by
  have ⟨j, i', hj, hi', ha⟩ := exists_arc_of_joins h
  cases Option.some.inj <| hi'.symm.trans <| position?_idAt hn hi
  exact ⟨j, lt_of_position? hj, idAt_of_position? hj, g.wiring_arc ▸ ha⟩

theorem feedsNone_iff (hi : i < g.nodes.length) :
    (∀ j, ¬g.Arc i j) ↔ ∀ a, ¬g.Joins (g.idAt i) a := by
  constructor
  case mp  =>
    intro h a hj
    have ⟨j, _, _, ha⟩ := exists_arc_of_joins_idAt hn hi hj
    exact h j ha
  case mpr => exact fun h j ha => h _ <| joins_of_arc <| g.wiring_arc ▸ ha

theorem unfed_iff (hi : i < g.nodes.length) :
    (∀ j, ¬g.Arc j i) ↔ ∀ a, ¬g.Joins a (g.idAt i) := by
  constructor
  case mp  =>
    intro h a hj
    have ⟨j, _, _, ha⟩ := exists_arc_of_joins_to_idAt hn hi hj
    exact h j ha
  case mpr => exact fun h j ha => h _ <| joins_of_arc <| g.wiring_arc ▸ ha

theorem leads_iff {j : Nat} (hi : i < g.nodes.length) (hj : j < g.nodes.length) :
    ReflTransGen g.Arc i j ↔ ReflTransGen g.Joins (g.idAt i) (g.idAt j) := by
  constructor
  case mp  => exact fun h => h.lift g.idAt fun _ _ ha => joins_of_arc <| g.wiring_arc ▸ ha
  case mpr =>
    intro h
    have step (i : Nat) (b : String) (hi : i < g.nodes.length) (h : g.Joins (g.idAt i) b) :=
      exists_arc_of_joins_idAt hn hi h
    have ⟨k, hk, he, hr⟩ := exists_reflTransGen_of_image step hi h
    have he := (position?_idAt hn hk).symm.trans <| he ▸ position?_idAt hn hj
    exact Option.some.inj he ▸ hr

-- Edges join ids as arcs join the positions that these stand at.
theorem classes_components : Classes (ReflTransGen (SymmGen g.Joins)) (ids g)
    (g.wiring.components.map (List.map g.idAt)) := by
  have within {c : List Nat} (hc : c ∈ g.wiring.components) : ∀ i ∈ c, i < g.nodes.length :=
    fun _ hi => List.mem_range.mp <|
      g.wiring.flatten_components.mem_iff.mp <| List.mem_flatten.mpr ⟨c, hc, hi⟩
  constructor
  case once      =>
    rw [←List.map_flatten, ←map_idAt_range]
    exact g.wiring.flatten_components.map g.idAt
  case inhabited =>
    refine List.forall_mem_map.mpr fun c hc he => ?_
    exact Wiring.ne_nil_of_mem_componentsOf hc <| List.map_eq_nil_iff.mp he
  case related   =>
    refine List.forall_mem_map.mpr fun c hc => List.forall_mem_map.mpr fun i hi b => ?_
    rw [List.mem_map]
    constructor
    case mp  =>
      rintro ⟨j, hj, rfl⟩
      have h := (Wiring.mem_iff_of_mem_components hc hi).mp hj
      exact h.lift g.idAt fun _ _ h => h.imp joins_of_arc joins_of_arc
    case mpr =>
      intro h
      have step : ∀ i b, i < g.nodes.length → SymmGen g.Joins (g.idAt i) b →
          ∃ j < g.nodes.length, g.idAt j = b ∧ SymmGen g.Arc i j := by
        intro i b hi h
        cases h
        case inl h =>
          have ⟨j, hj, hb, ha⟩ := exists_arc_of_joins_idAt hn hi h
          exact ⟨j, hj, hb, .inl ha⟩
        case inr h =>
          have ⟨j, hj, hb, ha⟩ := exists_arc_of_joins_to_idAt hn hi h
          exact ⟨j, hj, hb, .inr ha⟩
      have ⟨j, _, hb, hr⟩ := exists_reflTransGen_of_image step (within hc i hi) h
      rw [←wiring_arc] at hr
      exact ⟨j, (Wiring.mem_iff_of_mem_components hc hi).mpr hr, hb⟩

end Distinct

-- The same nodes and the same edges, possibly in other orders.
structure Reordered (g g' : Graph) : Prop where
  nodes : g.nodes ~ g'.nodes
  edges : g.edges ~ g'.edges

namespace Reordered

variable (h : g.Reordered g')

include h

theorem symm : g'.Reordered g :=
  ⟨h.nodes.symm, h.edges.symm⟩

theorem perm_ids : ids g ~ ids g' :=
  h.nodes.map Node.id

theorem joins_eq : g.Joins = g'.Joins := by
  funext a b
  simp only [Joins, Feeds, h.edges.mem_iff, h.perm_ids.mem_iff]

theorem node?_eq (hn : (ids g).Nodup) : g.node? = g'.node? := by
  funext id
  refine Option.ext fun n => ?_
  rw [node?_eq_some_iff hn, node?_eq_some_iff <| h.perm_ids.nodup_iff.mp hn, h.nodes.mem_iff]

theorem length_components (hn : (ids g).Nodup) :
    g.wiring.components.length = g'.wiring.components.length := by
  have c := classes_components hn
  have c' := classes_components <| h.perm_ids.nodup_iff.mp hn
  rw [←h.joins_eq] at c'
  simpa using c.length_eq c' hn h.perm_ids

end Reordered

end Graph

end SignalFlow
