import SignalFlow.Proofs.Validation.WellFormed
import SignalFlow.Validation.Passes

/-!
The check of a graph, pass by pass. A pass is free of errors exactly if its part of the definition of
a well-formed graph holds; the pass on limits and habits has warnings only.
-/

namespace SignalFlow

namespace Validation

def ErrorFree (issues : List Issue) : Prop :=
  ∀ i ∈ issues, i.severity ≠ .error

instance : DecidablePred ErrorFree := fun issues =>
  inferInstanceAs <| Decidable (∀ i ∈ issues, i.severity ≠ .error)

section ErrorFree

variable {issues issues' : List Issue} {α : Type}

@[simp] theorem errorFree_nil : ErrorFree [] :=
  fun _ h => absurd h List.not_mem_nil

@[simp] theorem errorFree_cons {i : Issue} :
    ErrorFree (i :: issues) ↔ i.severity ≠ .error ∧ ErrorFree issues :=
  List.forall_mem_cons

@[simp] theorem errorFree_append :
    ErrorFree (issues ++ issues') ↔ ErrorFree issues ∧ ErrorFree issues' :=
  List.forall_mem_append

@[simp] theorem errorFree_flatMap {l : List α} {f : α → List Issue} :
    ErrorFree (l.flatMap f) ↔ ∀ a ∈ l, ErrorFree (f a) := by
  simp only [ErrorFree, List.mem_flatMap]
  constructor
  case mp  => exact fun h a ha i hi => h i ⟨a, ha, hi⟩
  case mpr => exact fun h i ⟨a, ha, hi⟩ => h a ha i hi

@[simp] theorem errorFree_ite {c : Prop} [Decidable c] :
    ErrorFree (if c then issues else issues') ↔
      (c → ErrorFree issues) ∧ (¬c → ErrorFree issues') := by
  split <;> simp [*]

@[simp] theorem errorFree_map {l : List α} {f : α → Issue} :
    ErrorFree (l.map f) ↔ ∀ a ∈ l, (f a).severity ≠ .error :=
  List.forall_mem_map

theorem errorFree_map_of_error {l : List α} {f : α → Issue} (h : ∀ a, (f a).severity = .error) :
    ErrorFree (l.map f) ↔ l = [] := by
  simp [ErrorFree, h, List.eq_nil_iff_forall_not_mem]

theorem errors_ofIssues_eq_nil_iff : (Report.ofIssues issues).errors = [] ↔ ErrorFree issues := by
  simp [Report.ofIssues, ErrorFree, List.filter_eq_nil_iff]

end ErrorFree

section Repeated

variable {α : Type} [DecidableEq α] {seen l : List α}

theorem repeated_eq_nil_iff : repeated seen l = [] ↔ l.Nodup ∧ ∀ a ∈ l, a ∉ seen := by
  induction l generalizing seen
  case nil => simp [repeated]
  case cons a l hi =>
    by_cases ha : a ∈ seen
    case pos => simp [repeated, ha]
    case neg =>
      simp only [repeated, ha, if_false, hi, List.nodup_cons, List.mem_cons]
      grind

theorem mem_distinct_iff {a : α} : a ∈ distinct seen l ↔ a ∈ l ∧ a ∉ seen := by
  induction l generalizing seen
  case nil => simp [distinct]
  case cons b l hi =>
    by_cases hb : b ∈ seen
    case pos => simp only [distinct, hb, if_true, hi, List.mem_cons]; grind
    case neg => simp only [distinct, hb, if_false, hi, List.mem_cons]; grind

end Repeated

variable {g : Graph} {n : Node} {e : Edge}

theorem errorFree_structureIssues : ErrorFree (structureIssues g) ↔ (ids g).Nodup := by
  have hd (l : List String) : distinct [] l = [] ↔ l = [] := by
    simp [List.eq_nil_iff_forall_not_mem, mem_distinct_iff]
  rw [structureIssues, errorFree_append, errorFree_map_of_error fun _ => rfl, hd,
    repeated_eq_nil_iff]
  simp [Issue.severity]

theorem isConnected_iff {id port : String} : isConnected g id port ↔ g.Connected id port := by
  simp [isConnected, Graph.Connected]

theorem parameterFaults_eq_nil_iff {nodeType : String} {values : Dict Json} :
    Catalog.parameterFaults nodeType values = [] ↔
      ∃ d, Catalog.find? nodeType = some d ∧ ∀ p ∈ d.parameters, p.Accepts values := by
  unfold Catalog.parameterFaults
  split
  case h_1 hd   => simp [hd]
  case h_2 d hd => simp [hd, Parameter.faultIn?_eq_none_iff]

theorem errorFree_nodeIssues :
    ErrorFree (nodeIssues g n) ↔
      ∃ d, n.Declared d ∧ (∀ p ∈ d.parameters, p.Accepts n.parameters) ∧
        ∀ p ∈ d.inputs, p.required → g.Connected n.id p.name := by
  simp only [Node.declared_iff]
  unfold nodeIssues
  split
  case h_1 hd => simp [hd, Issue.severity]
  case h_2 d hd =>
    rw [errorFree_append, errorFree_append, errorFree_map_of_error fun _ => rfl,
      errorFree_map_of_error fun _ => rfl, parameterFaults_eq_nil_iff, List.filter_eq_nil_iff]
    simp [hd, Issue.severity, isConnected_iff]

theorem errorFree_missingEnds :
    ErrorFree (missingEnds g e) ↔
      (g.node? e.sourceNode).isSome ∧ (g.node? e.targetNode).isSome := by
  cases hs : g.node? e.sourceNode <;> cases ht : g.node? e.targetNode <;>
    simp [missingEnds, hs, ht, Issue.severity]

theorem errorFree_portIssues {source target : Node} {output? input? : Option Port} :
    ErrorFree (portIssues source target output? input? e) ↔
      ∃ output ∈ output?, ∃ input ∈ input?, output.dataType.Fits input.dataType := by
  cases output? <;> cases input? <;>
    simp [portIssues, Issue.severity, ←DataType.canConnectTo_iff]

-- Where kinds are unknown the ports of edges are not looked at.
theorem errorFree_edgeIssues (hn : (ids g).Nodup) (hk : ∀ n ∈ g.nodes, ∃ d, n.Declared d) :
    ErrorFree (edgeIssues g e) ↔ ∃ output input, g.Wires e output input := by
  unfold edgeIssues
  split
  case h_1 source target hs ht =>
    have ⟨hs, hse⟩ := (g.node?_eq_some_iff hn).mp hs
    have ⟨ht, hte⟩ := (g.node?_eq_some_iff hn).mp ht
    have ⟨d, hd⟩ := hk source hs
    have ⟨d', hd'⟩ := hk target ht
    simp only [Node.declared_iff.mp hd, Node.declared_iff.mp hd', errorFree_portIssues,
      Option.mem_def, Catalog.port?_eq_some_iff hd.left, Catalog.port?_eq_some_iff hd'.left]
    constructor
    case mp =>
      intro ⟨output, ⟨ho, hop⟩, input, ⟨hi, hip⟩, hf⟩
      have ho := hse ▸ (Graph.hasPort_iff hn hs hd).mpr ho
      have hi := hte ▸ (Graph.hasPort_iff hn ht hd').mpr hi
      exact ⟨output, input, ho, hop, hi, hip, hf⟩
    case mpr =>
      intro ⟨output, input, hw⟩
      have ho := (Graph.hasPort_iff hn hs hd).mp (hse ▸ hw.source)
      have hi := (Graph.hasPort_iff hn ht hd').mp (hte ▸ hw.target)
      exact ⟨output, ⟨ho, hw.sourcePort⟩, input, ⟨hi, hw.targetPort⟩, hw.fits⟩
  case h_2 hne =>
    rw [errorFree_missingEnds]
    constructor
    case mp =>
      intro ⟨hs, ht⟩
      have ⟨_, hs⟩ := Option.isSome_iff_exists.mp hs
      have ⟨_, ht⟩ := Option.isSome_iff_exists.mp ht
      exact absurd ht <| hne _ _ hs
    case mpr =>
      intro ⟨_, _, hw⟩
      have hs := Graph.isSome_node?_iff.mpr hw.source.mem_ids
      have ht := Graph.isSome_node?_iff.mpr hw.target.mem_ids
      exact ⟨hs, ht⟩

theorem errorFree_logicIssues : ErrorFree (logicIssues g) ↔ g.wiring.Acyclic := by
  rw [←Wiring.cycles_eq_nil_iff, logicIssues, errorFree_append, errorFree_append,
    errorFree_map_of_error fun _ => rfl]
  simp [Issue.severity]

theorem errorFree_practiceIssues {config : Config} : ErrorFree (practiceIssues config g) := by
  simp [practiceIssues, Issue.severity]

theorem errorFree_issues (config : Config) : ErrorFree (issues config g) ↔ g.WellFormed := by
  unfold issues
  split
  case isTrue hn =>
    have hn := List.isEmpty_iff.mp hn
    constructor
    case mp  => simp [Issue.severity]
    case mpr => exact fun h => absurd hn h.nonempty
  case isFalse hn =>
    rw [List.isEmpty_iff] at hn
    simp only [errorFree_append, errorFree_flatMap, errorFree_structureIssues,
      errorFree_nodeIssues, errorFree_logicIssues, errorFree_practiceIssues, and_true]
    constructor
    case mp =>
      intro ⟨⟨⟨hd, hm⟩, he⟩, ha⟩
      have hk n (h : n ∈ g.nodes) : ∃ d, n.Declared d :=
        have ⟨d, hd, _⟩ := hm n h
        ⟨d, hd⟩
      have hw e (h : e ∈ g.edges) := (errorFree_edgeIssues hd hk).mp (he e h)
      constructor
      case nonempty   => exact hn
      case distinct   => exact hd
      case known      => exact hk
      case parameters =>
        intro n h d hd
        have ⟨d', hd', hp, _⟩ := hm n h
        exact hd.unique hd' ▸ hp
      case connected  =>
        intro n h d hd
        have ⟨d', hd', _, hc⟩ := hm n h
        exact hd.unique hd' ▸ hc
      case wired      => exact hw
      case acyclic    => exact (Graph.acyclic_wiring_iff (Graph.resolved_of_wired hw)).mp ha
    case mpr =>
      intro h
      refine ⟨⟨⟨h.distinct, fun n hn => ?_⟩, fun e he => ?_⟩, ?_⟩
      · have ⟨d, hd⟩ := h.known n hn
        exact ⟨d, hd, h.parameters n hn d hd, h.connected n hn d hd⟩
      · exact (errorFree_edgeIssues h.distinct h.known).mpr (h.wired e he)
      · exact (Graph.acyclic_wiring_iff h.resolved).mpr h.acyclic

end Validation

theorem Graph.isValid_validate_iff (g : Graph) (config : Config) :
    (g.validate config).isValid ↔ g.WellFormed := by
  rw [Report.isValid, List.isEmpty_iff, validate, Validation.errors_ofIssues_eq_nil_iff,
    Validation.errorFree_issues]

-- The check accepts the well-formed graphs, whatever the settings.
theorem Graph.errors_validate_eq_nil_iff (g : Graph) (config : Config) :
    (g.validate config).errors = [] ↔ g.WellFormed := by
  rw [←List.isEmpty_iff]
  exact g.isValid_validate_iff config

end SignalFlow
