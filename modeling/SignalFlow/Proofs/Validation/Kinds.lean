import SignalFlow.Validation.Passes

/-!
Which kinds of findings each pass has. No kind is shared by two passes, so that a report can be
taken apart into what each of them found.
-/

namespace SignalFlow

namespace Validation

variable {g : Graph} {n : Node} {e : Edge} {config : Config} {i : Issue}

theorem kind_mem_structureIssues (h : i ∈ structureIssues g) :
    i.kind ∈ [IssueKind.duplicateNode, .duplicateEdge] := by
  rw [structureIssues, List.mem_append, List.mem_map, List.mem_map] at h
  obtain ⟨_, _, rfl⟩ | ⟨_, _, rfl⟩ := h
  · exact .head _
  · exact .tail _ <| .head _

theorem kind_mem_nodeIssues (h : i ∈ nodeIssues g n) :
    i.kind ∈ [IssueKind.unknownNodeType, .invalidParameter, .missingInput, .unusedOutput] := by
  unfold nodeIssues at h
  split at h
  case h_1 => simp_all [Issue.kind]
  case h_2 =>
    simp only [List.mem_append, List.mem_map, List.mem_ite_nil_right, List.mem_singleton] at h
    obtain (⟨_, _, rfl⟩ | ⟨_, _, rfl⟩) | ⟨_, rfl⟩ := h <;> simp [Issue.kind]

theorem kind_mem_missingEnds (h : i ∈ missingEnds g e) : i.kind = .missingNode := by
  simp only [missingEnds, List.mem_append, List.mem_ite_nil_right, List.mem_singleton] at h
  obtain ⟨_, rfl⟩ | ⟨_, rfl⟩ := h <;> rfl

theorem kind_mem_portIssues {source target : Node} {output? input? : Option Port}
    (h : i ∈ portIssues source target output? input? e) :
    i.kind ∈ [IssueKind.invalidPort, .typeMismatch] := by
  simp only [portIssues, List.mem_append, List.mem_ite_nil_right, List.mem_singleton] at h
  obtain (⟨_, rfl⟩ | ⟨_, rfl⟩) | h := h
  · exact .head _
  · exact .head _
  · split at h
    case h_1 =>
      rw [List.mem_ite_nil_left, List.mem_singleton] at h
      exact h.right ▸ .tail _ (.head _)
    case h_2 => cases h

theorem kind_mem_edgeIssues (h : i ∈ edgeIssues g e) :
    i.kind ∈ [IssueKind.missingNode, .invalidPort, .typeMismatch] := by
  unfold edgeIssues at h
  split at h
  case h_1 =>
    split at h
    case h_1 => exact .tail _ <| kind_mem_portIssues h
    case h_2 => cases h
  case h_2 => exact kind_mem_missingEnds h ▸ .head _

theorem kind_mem_practiceIssues (h : i ∈ practiceIssues config g) :
    i.kind ∈ [IssueKind.tooManyNodes, .highConnectivity, .conflictingActions,
      .missingEmergencyExit] := by
  simp only [practiceIssues, List.mem_append, List.mem_map, List.mem_ite_nil_right,
    List.mem_ite_nil_left, List.mem_singleton] at h
  obtain ((⟨_, rfl⟩ | ⟨_, _, rfl⟩) | ⟨_, rfl⟩) | ⟨_, rfl⟩ := h <;> simp [Issue.kind]

section Filter

variable {kind : IssueKind} {kinds : List IssueKind} {issues : List Issue}

theorem filter_kind_eq_nil (h : ∀ i ∈ issues, i.kind ∈ kinds) (hk : kind ∉ kinds) :
    issues.filter (·.kind = kind) = [] := by
  rw [List.filter_eq_nil_iff]
  intro i hi hik
  exact hk <| of_decide_eq_true hik ▸ h i hi

theorem filter_kind_flatMap_eq_nil {α : Type} {l : List α} {f : α → List Issue}
    (h : ∀ a, ∀ i ∈ f a, i.kind ∈ kinds) (hk : kind ∉ kinds) :
    (l.flatMap f).filter (·.kind = kind) = [] := by
  rw [List.filter_flatMap, List.flatMap_eq_nil_iff]
  exact fun a _ => filter_kind_eq_nil (h a) hk

theorem warnings_filter_kind (h : ∀ i : Issue, i.kind = kind → i.severity = .warning) :
    (Report.ofIssues issues).warnings.filter (·.kind = kind) = issues.filter (·.kind = kind) := by
  rw [Report.ofIssues, List.filter_filter]
  refine List.filter_congr fun i _ => ?_
  by_cases hk : i.kind = kind
  case pos => simp [hk, h i hk]
  case neg => simp [hk]

end Filter

theorem filter_logicIssues_unreachableSink :
    (logicIssues g).filter (·.kind = .unreachableSink) =
      (unreachableSinks g.wiring).map fun i => .unreachableSink (g.idAt i) := by
  rw [logicIssues, List.filter_append]
  have hk : ∀ i ∈ g.wiring.cycles.map (fun c => .cycle (c.map g.idAt)) ++
      (if 1 < g.wiring.components.length then [.disconnected g.wiring.components.length] else []),
      Issue.kind i ∈ [IssueKind.cycleDetected, .disconnectedComponents] := by
    intro i hi
    simp only [List.mem_append, List.mem_map, List.mem_ite_nil_right, List.mem_singleton] at hi
    obtain ⟨_, _, rfl⟩ | ⟨_, rfl⟩ := hi
    · exact .head _
    · exact .tail _ <| .head _
  rw [filter_kind_eq_nil hk (by decide), List.nil_append, List.filter_eq_self]
  exact List.forall_mem_map.mpr fun _ _ => rfl

-- Sinks that no source leads to are found by the pass on the logic alone. Where there are no nodes,
-- there are no sinks either.
theorem filter_issues_unreachableSink :
    (issues config g).filter (·.kind = .unreachableSink) =
      (unreachableSinks g.wiring).map fun i => .unreachableSink (g.idAt i) := by
  unfold issues
  split
  case isTrue hn =>
    have hn := List.isEmpty_iff.mp hn
    simp [unreachableSinks, Graph.wiring, hn, Issue.kind]
  case isFalse =>
    simp only [List.filter_append, filter_logicIssues_unreachableSink]
    rw [filter_kind_eq_nil (fun _ => kind_mem_structureIssues) (by decide),
      filter_kind_flatMap_eq_nil (fun _ _ => kind_mem_nodeIssues) (by decide),
      filter_kind_flatMap_eq_nil (fun _ _ => kind_mem_edgeIssues) (by decide),
      filter_kind_eq_nil (fun _ => kind_mem_practiceIssues) (by decide)]
    simp only [List.nil_append, List.append_nil]

end Validation

end SignalFlow
