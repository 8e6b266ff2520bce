import SignalFlow.Proofs.Json.Number
import SignalFlow.Proofs.Schema.Hydration

/-!
What stands under the name of a parameter once a node is checked and its defaults are filled in. A
declared parameter with a default has a value that the catalog admits; what is not declared is left
as the author gave it, and nobody has looked at it.
-/

namespace SignalFlow

namespace Parameter

variable {p : Parameter} {v : Json} {values : Dict Json}

theorem exists_admitted_of_filled (hd : ∀ v ∈ p.default, p.Admits v) (hs : p.default.isSome)
    (h : p.Accepts values) : ∃ v, p.filled values = some v ∧ p.Admits v := by
  have ⟨default, hp⟩ := Option.isSome_iff_exists.mp hs
  by_cases hg : values.Gives p.name
  case neg => exact ⟨default, filled_of_not_gives hg hp, hd _ hp⟩
  case pos =>
    rw [filled_of_gives hg]
    cases h
    case set v h ha  => exact ⟨v, h, ha⟩
    case unset h _   =>
      have ⟨v, hv, hn⟩ := hg
      exact absurd (h v hv) hn

theorem Admits.exists_float (h : p.Admits v) (ht : p.type = .number) :
    ∃ x, v.float? = some x ∧
      (∀ lo ∈ p.min, Binary64.Numeric lo.toModel.unpack → lo ≤ x) ∧
      ∀ hi ∈ p.max, Binary64.Numeric hi.toModel.unpack → x ≤ hi := by
  have hv := h.type
  cases v
  case num n =>
    refine ⟨n.toFloat, rfl, fun lo hl hn => ?_, fun hi hh hn => ?_⟩
    · exact Binary64.float_le_of_not_lt n.numeric_toFloat hn <| h.min lo hl _ rfl
    · exact Binary64.float_le_of_not_lt hn n.numeric_toFloat <| h.max hi hh _ rfl
  all_goals
    rw [ht] at hv
    cases hv

theorem Admits.exists_string (h : p.Admits v) (ht : p.type = .string) :
    ∃ s, v.string? = some s ∧ (p.allowed ≠ [] → s ∈ p.allowed) := by
  have hv := h.type
  cases v
  case str s => exact ⟨s, rfl, fun ha => h.allowed ha s rfl⟩
  all_goals
    rw [ht] at hv
    cases hv

end Parameter

namespace Node.Declared

variable {n : Node} {d : Definition} {p : Parameter}

theorem exists_admitted (h : n.Declared d) (hp : p ∈ d.parameters) (hs : p.default.isSome)
    (ha : p.Accepts n.parameters) :
    ∃ v, n.hydrate.parameters.get? p.name = some v ∧ p.Admits v := by
  rw [h.get?_hydrate hp]
  exact Parameter.exists_admitted_of_filled (Catalog.admits_default d h.left p hp) hs ha

theorem exists_float (h : n.Declared d) (hp : p ∈ d.parameters) (hs : p.default.isSome)
    (ha : p.Accepts n.parameters) (ht : p.type = .number) :
    ∃ x, n.hydrate.float? p.name = some x ∧
      (∀ lo ∈ p.min, Binary64.Numeric lo.toModel.unpack → lo ≤ x) ∧
      ∀ hi ∈ p.max, Binary64.Numeric hi.toModel.unpack → x ≤ hi := by
  have ⟨v, hv, hadmits⟩ := h.exists_admitted hp hs ha
  have ⟨x, hx, hb⟩ := hadmits.exists_float ht
  exact ⟨x, by rw [Node.float?, hv, Option.bind_some, hx], hb⟩

theorem exists_string (h : n.Declared d) (hp : p ∈ d.parameters) (hs : p.default.isSome)
    (ha : p.Accepts n.parameters) (ht : p.type = .string) :
    ∃ s, n.hydrate.string? p.name = some s ∧ (p.allowed ≠ [] → s ∈ p.allowed) := by
  have ⟨v, hv, hadmits⟩ := h.exists_admitted hp hs ha
  have ⟨s, hs, hb⟩ := hadmits.exists_string ht
  exact ⟨s, by rw [Node.string?, hv, Option.bind_some, hs], hb⟩

end Node.Declared

end SignalFlow
