import SignalFlow.Plan.Kind

/-!
Which node types run as a kind. Each kind stands in the table once, so that who runs as it has its
name.
-/

namespace SignalFlow

namespace Kind

theorem mem_table_of_ofNodeType? {nodeType : String} {kind : Kind}
    (h : ofNodeType? nodeType = some kind) : (nodeType, kind) ∈ table := by
  have ⟨before, after, ht, _⟩ := List.lookup_eq_some_iff.mp h
  exact ht ▸ List.mem_append_right _ (.head _)

theorem ofNodeType?_eq_indicator_iff {nodeType : String} {kind : IndicatorKind} :
    ofNodeType? nodeType = some (.indicator kind) ↔ nodeType = kind.name := by
  have named : ∀ x ∈ table, x.2 = .indicator kind → x.1 = kind.name := by cases kind <;> decide
  constructor
  case mp  => exact fun h => named _ (mem_table_of_ofNodeType? h) rfl
  case mpr => rintro rfl; cases kind <;> rfl

theorem ofNodeType?_eq_weighted_iff {nodeType : String} :
    ofNodeType? nodeType = some (.composition .weighted) ↔ nodeType = "weighted_gate" := by
  have named : ∀ x ∈ table, x.2 = .composition .weighted → x.1 = "weighted_gate" := by decide
  constructor
  case mp  => exact fun h => named _ (mem_table_of_ofNodeType? h) rfl
  case mpr => rintro rfl; rfl

end Kind

end SignalFlow
