import Mathlib.Data.List.Nodup
import SignalFlow.Catalog.Definitions
import SignalFlow.Graph.Basic

/-!
The catalog is a table without repetitions: a name stands for one kind of node, and within a kind
for one parameter and for one port of either direction. So looking up a name finds what is listed
under it.
-/

namespace SignalFlow

-- If no two elements share a key, a search by key finds the element that has it.
theorem find?_eq_some_iff_of_nodup {α κ : Type} {l : List α} {key : α → κ} {p : α → Bool} {k : κ}
    {a : α} (h : (l.map key).Nodup) (hp : ∀ b, p b ↔ key b = k) :
    l.find? p = some a ↔ a ∈ l ∧ key a = k := by
  constructor
  case mp =>
    intro hf
    exact ⟨List.mem_of_find?_eq_some hf, (hp a).mp <| List.find?_some hf⟩
  case mpr =>
    intro ⟨hm, hk⟩
    have ⟨b, hb⟩ := Option.isSome_iff_exists.mp <| List.find?_isSome.mpr ⟨a, hm, (hp a).mpr hk⟩
    have hkb := (hp b).mp <| List.find?_some hb
    rw [hb, List.inj_on_of_nodup_map h (List.mem_of_find?_eq_some hb) hm (hkb.trans hk.symm)]

namespace Catalog

theorem nodup_names : (all.map Definition.name).Nodup := by decide

theorem nodup_parameters : ∀ d ∈ all, (d.parameters.map Parameter.name).Nodup := by decide

theorem nodup_ports : ∀ d ∈ all, (d.ports.map fun p => (p.name, p.direction)).Nodup := by decide

variable {d : Definition} {name : String}

theorem find?_eq_some_iff : find? name = some d ↔ d ∈ all ∧ d.name = name :=
  find?_eq_some_iff_of_nodup nodup_names fun _ => beq_iff_eq

theorem port?_eq_some_iff (h : d ∈ all) {p : Port} {direction : Direction} :
    d.port? name direction = some p ↔ p ∈ d.ports ∧ p.name = name ∧ p.direction = direction := by
  rw [←Prod.mk.injEq]
  exact find?_eq_some_iff_of_nodup (nodup_ports d h) fun p => by simp

end Catalog

-- The node is of a kind that the catalog lists, and this is the kind.
def Node.Declared (n : Node) (d : Definition) : Prop :=
  d ∈ Catalog.all ∧ d.name = n.nodeType

theorem Node.declared_iff {n : Node} {d : Definition} :
    n.Declared d ↔ Catalog.find? n.nodeType = some d :=
  Catalog.find?_eq_some_iff.symm

theorem Node.Declared.unique {n : Node} {d d' : Definition} (h : n.Declared d)
    (h' : n.Declared d') : d = d' :=
  Option.some.inj <| (declared_iff.mp h).symm.trans (declared_iff.mp h')

end SignalFlow
