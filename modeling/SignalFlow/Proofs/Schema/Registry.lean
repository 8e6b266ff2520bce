import SignalFlow.Schema.Registry

/-!
Migration where there is nowhere to go: without hops a graph is stamped, or it is refused.
-/

namespace SignalFlow

namespace Graph

-- A graph whose metadata tell no version is taken to be of the current one.
def Supported (g : Graph) : Prop :=
  ∀ v, g.metadata.get? schemaVersionKey = some (.str v) → v = Registry.firstVersion

theorem schemaVersion?_eq_some_iff {g : Graph} {v : String} :
    g.schemaVersion? = some v ↔ g.metadata.get? schemaVersionKey = some (.str v) := by
  unfold schemaVersion?
  cases g.metadata.get? schemaVersionKey
  case none   => simp
  case some j => cases j <;> simp [Json.string?]

end Graph

namespace Registry

variable {r : Registry} {g g' : Graph} {target? : Option String}

theorem exists_stamp_of_migrate (hr : r.hops = []) (h : r.migrate g target? = .ok g') :
    ∃ version, g' = stamp g version := by
  simp only [migrate] at h
  split at h
  case h_1 => cases h
  case h_2 =>
    split at h
    case h_1 => cases h
    case h_2 =>
      split at h
      case isTrue => cases h
      case isFalse =>
        simp only [follow, hopFrom?, hr, List.find?_nil] at h
        split at h
        case isTrue  => exact ⟨_, (Except.ok.inj h).symm⟩
        case isFalse => cases h

-- The only version that a new registry knows is the first one.
theorem migrate_new (h : g.Supported) : new.migrate g none = .ok (stamp g firstVersion) := by
  have hv : g.schemaVersion?.getD firstVersion = firstVersion := by
    cases hv : g.schemaVersion?
    case none   => rfl
    case some v => exact h v <| Graph.schemaVersion?_eq_some_iff.mp hv
  simp [migrate, currentVersion, new, rank?, follow, hv]

theorem migrate_new_of_ne {v : String} (h : g.metadata.get? Graph.schemaVersionKey = some (.str v))
    (hn : v ≠ firstVersion) : new.migrate g none = .error (.unsupportedVersion v) := by
  simp [migrate, currentVersion, new, rank?, Graph.schemaVersion?_eq_some_iff.mpr h, hn.symm]

end Registry

end SignalFlow
