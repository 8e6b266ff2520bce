import SignalFlow.Catalog.Parameters
import Mathlib.Data.Option.Basic

/-!
What the catalog asks of a parameter, said without the faults that the check reports.
-/

namespace SignalFlow

-- A whole number is an integer of 64 bits with a sign, or any number without a fraction.
def ParameterType.Holds : ParameterType → Json → Prop
  | .number, .num _         => True
  | .integer, .num n        => n.signed?.isSome ∨ (Binary.ofFloat n.toFloat).isWhole
  | .boolean, .bool _       => True
  | .string, .str _         => True
  | .numberList, .arr items => ∀ j ∈ items, ∃ n, j = .num n
  | _, _                    => False

namespace Parameter

-- The type, the bounds and the list of accepted texts are respected.
structure Admits (p : Parameter) (v : Json) : Prop where
  type    : p.type.Holds v
  min     : ∀ lo ∈ p.min, ∀ x ∈ v.float?, ¬x < lo
  max     : ∀ hi ∈ p.max, ∀ x ∈ v.float?, ¬hi < x
  allowed : p.allowed ≠ [] → ∀ s ∈ v.string?, s ∈ p.allowed

-- A parameter may be left out unless it is required and the catalog has no default for it.
inductive Accepts (p : Parameter) (values : Dict Json) : Prop
  | unset (h : ∀ v ∈ values.get? p.name, v = .null) (default : p.required → p.default.isSome)
  | set {v : Json} (h : values.get? p.name = some v) (admits : p.Admits v)

variable {p : Parameter} {v : Json} {values : Dict Json}

theorem boundsFault?_eq_none_iff {x : Float} :
    p.boundsFault? x = none ↔ (∀ lo ∈ p.min, ¬x < lo) ∧ (∀ hi ∈ p.max, ¬hi < x) := by
  simp [boundsFault?, Option.or_eq_none_iff, Option.bind_eq_none_iff]

theorem integer?_num (n : Number) :
    integer? (.num n) =
      if n.signed?.isSome ∨ (Binary.ofFloat n.toFloat).isWhole then some n.toFloat else none := by
  cases n
  case float x _ => simp [integer?, Number.signed?]
  case int i _   =>
    by_cases h : i ≤ greatestSigned
    case pos => simp [integer?, Number.signed?, Number.toFloat, h]
    case neg =>
      by_cases hw : (Binary.ofFloat (Float.ofInt i)).isWhole <;>
        simp [integer?, Number.signed?, Number.toFloat, h, hw]

theorem admits_num_iff {n : Number} :
    p.Admits (.num n) ↔ p.type.Holds (.num n) ∧ p.boundsFault? n.toFloat = none := by
  rw [boundsFault?_eq_none_iff]
  constructor
  case mp =>
    intro h
    exact ⟨h.type, fun lo hl => h.min lo hl _ rfl, fun hi hh => h.max hi hh _ rfl⟩
  case mpr =>
    intro ⟨ht, hmin, hmax⟩
    exact ⟨ht, by simpa [Json.float?], by simpa [Json.float?], by simp [Json.string?]⟩

theorem admits_str_iff {s : String} :
    p.Admits (.str s) ↔ p.type.Holds (.str s) ∧ (p.allowed ≠ [] → s ∈ p.allowed) := by
  constructor
  case mp =>
    intro h
    exact ⟨h.type, fun ha => h.allowed ha s rfl⟩
  case mpr =>
    intro ⟨ht, ha⟩
    exact ⟨ht, by simp [Json.float?], by simp [Json.float?], by simpa [Json.string?]⟩

-- The bounds and the accepted texts concern numbers and texts only.
theorem admits_iff_holds (hf : v.float? = none) (hs : v.string? = none) :
    p.Admits v ↔ p.type.Holds v := by
  constructor
  case mp  => exact Admits.type
  case mpr => exact fun ht => ⟨ht, by simp [hf], by simp [hf], by simp [hs]⟩

theorem isNumber_iff : v.isNumber ↔ ∃ n, v = .num n := by
  cases v <;> simp [Json.isNumber]

theorem fault?_eq_none_iff : p.fault? v = none ↔ p.Admits v := by
  cases v
  case num n =>
    rw [admits_num_iff]
    cases ht : p.type
    case integer =>
      simp only [fault?, ht, ParameterType.Holds, integer?_num]
      split <;> simp_all
    all_goals
      simp [fault?, ht, ParameterType.Holds, Json.float?, Json.bool?, Json.string?, Json.items?]
  case str s =>
    rw [admits_str_iff]
    cases ht : p.type <;>
      simp [fault?, ht, ParameterType.Holds, Json.float?, integer?, Json.bool?, Json.string?,
        Json.items?]
  all_goals
    rw [admits_iff_holds rfl rfl]
    cases ht : p.type <;>
      simp [fault?, ht, ParameterType.Holds, Json.float?, integer?, Json.bool?, Json.string?,
        Json.items?, isNumber_iff]

theorem not_admits_null : ¬p.Admits .null := by
  intro h
  have ht := h.type
  cases hp : p.type <;> simp [ParameterType.Holds, hp] at ht

theorem faultIn?_eq_none_iff : p.faultIn? values = none ↔ p.Accepts values := by
  unfold faultIn?
  split
  case h_1 hv | h_2 hv =>
    constructor
    case mp =>
      intro h
      refine .unset (by simp [hv]) ?_
      simpa [Option.isSome_iff_ne_none] using h
    case mpr =>
      intro h
      cases h
      case unset h => simpa [Option.isSome_iff_ne_none] using h
      case set h ha => simp_all [not_admits_null]
  case h_3 v hn hv =>
    rw [fault?_eq_none_iff]
    constructor
    case mp  => exact .set hv
    case mpr =>
      intro h
      cases h
      case unset h _ => exact absurd (h v hv) hn
      case set h ha  => cases h.symm.trans hv; exact ha

-- A number that stands where one may be is within the bounds.
theorem Accepts.not_lt_of_float? {x : Float} (h : p.Accepts values)
    (hx : (values.get? p.name).bind Json.float? = some x) : ∀ hi ∈ p.max, ¬hi < x := by
  have ⟨v, hv, hx⟩ := Option.bind_eq_some_iff.mp hx
  cases h
  case unset h _ =>
    cases h v hv
    cases hx
  case set h ha  =>
    cases h.symm.trans hv
    exact fun hi hh => ha.max hi hh x hx

end Parameter

-- Filling in a default never spoils a node.
theorem Catalog.admits_default :
    ∀ d ∈ all, ∀ p ∈ d.parameters, ∀ v ∈ p.default, p.Admits v := by
  have h : ∀ d ∈ all, ∀ p ∈ d.parameters, ∀ v ∈ p.default, (p.fault? v).isNone := by
    decide +kernel
  intro d hd p hp v hv
  exact Parameter.fault?_eq_none_iff.mp <| Option.isNone_iff_eq_none.mp <| h d hd p hp v hv

end SignalFlow
