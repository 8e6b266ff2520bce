import SignalFlow.Proofs.Schema.Hydration
import SignalFlow.Validation.Passes

/-!
Filling in defaults changes nothing of what the check of a graph finds: a default that is filled in
passes its own check, and nothing else of a node is touched.
-/

namespace SignalFlow

theorem Parameter.faultIn?_of_filled {p : Parameter} {values values' : Dict Json}
    (hd : ∀ v ∈ p.default, p.fault? v = none) (h : values'.get? p.name = p.filled values) :
    p.faultIn? values' = p.faultIn? values := by
  unfold filled at h
  split at h
  case h_1 hv | h_2 hv =>
    cases hp : p.default
    case none   => simp_all [faultIn?]
    case some v => cases v <;> simp_all [faultIn?]
  case h_3 v _ hv => simp_all [faultIn?]

theorem Catalog.parameterFaults_hydrate (n : Node) :
    parameterFaults n.nodeType n.hydrate.parameters = parameterFaults n.nodeType n.parameters := by
  unfold parameterFaults
  split
  case h_1 => rfl
  case h_2 d hd =>
    have hd := Node.declared_iff.mpr hd
    apply List.filterMap_congr
    intro p hp
    apply Parameter.faultIn?_of_filled
    · intro v hv
      exact Parameter.fault?_eq_none_iff.mpr <| admits_default d hd.left p hp v hv
    · exact hd.get?_hydrate hp

namespace Validation

variable {g : Graph} {n : Node} {config : Config}

theorem nodeIssues_hydrate : nodeIssues g.hydrate n.hydrate = nodeIssues g n := by
  simp [nodeIssues, isConnected, hasOutgoing, Catalog.parameterFaults_hydrate]

theorem edgeIssues_hydrate : edgeIssues g.hydrate = edgeIssues g := by
  funext e
  unfold edgeIssues
  cases hs : g.node? e.sourceNode <;> cases ht : g.node? e.targetNode <;>
    simp [hs, ht, missingEnds, portIssues]

theorem edgeEnds_hydrate : edgeEnds g.hydrate = edgeEnds g := rfl

theorem practiceIssues_hydrate : practiceIssues config g.hydrate = practiceIssues config g := by
  unfold practiceIssues
  rw [edgeEnds_hydrate]
  simp [List.countP_map, Function.comp_def]

theorem issues_hydrate : issues config g.hydrate = issues config g := by
  simp [issues, structureIssues, logicIssues, List.flatMap_map, nodeIssues_hydrate,
    edgeIssues_hydrate, practiceIssues_hydrate]

end Validation

-- A graph may be checked before or after its defaults are filled in.
theorem Graph.validate_hydrate (g : Graph) (config : Config) :
    g.hydrate.validate config = g.validate config := by
  rw [validate, validate, Validation.issues_hydrate]

end SignalFlow
