import Mathlib.Data.List.Permutation
import SignalFlow.Proofs.Graph.Reordering
import SignalFlow.Proofs.Validation.Passes
import SignalFlow.Proofs.Validation.Sinks

/-!
The check does not mind the order in which nodes and edges are written down. It finds the same
things in another order, apart from cycles: of these it only finds some as soon as there are any.
-/

open Relation
open scoped List

namespace SignalFlow

open Validation (ids)

namespace Report

-- Reports that differ in the order of what they say, and in the cycles that they show.
structure Alike (r r' : Report) : Prop where
  errors   : r.errors.filter (·.kind ≠ .cycleDetected) ~ r'.errors.filter (·.kind ≠ .cycleDetected)
  warnings : r.warnings ~ r'.warnings
  cyclic   : r.hasError .cycleDetected = r'.hasError .cycleDetected
  isValid  : r.isValid = r'.isValid

variable (issues : List Issue)

theorem errors_filter_ofIssues : (ofIssues issues).errors.filter (·.kind ≠ .cycleDetected) =
    (issues.filter (·.kind ≠ .cycleDetected)).filter (·.severity = .error) := by
  rw [ofIssues, List.filter_comm]

theorem warnings_ofIssues : (ofIssues issues).warnings =
    (issues.filter (·.kind ≠ .cycleDetected)).filter (·.severity = .warning) := by
  rw [ofIssues, List.filter_filter]
  refine List.filter_congr fun i _ => ?_
  cases i <;> rfl

theorem cyclic_ofIssues :
    (ofIssues issues).hasError .cycleDetected = issues.any (·.kind = .cycleDetected) := by
  rw [hasError, ofIssues, List.any_filter]
  congr 1
  funext i
  cases i <;> rfl

theorem isValid_eq (r : Report) : r.isValid =
    ((r.errors.filter (·.kind ≠ .cycleDetected)).isEmpty && !r.hasError .cycleDetected) := by
  rw [isValid, hasError]
  cases r.errors
  case nil      => rfl
  case cons i _ => by_cases hi : i.kind = .cycleDetected <;> simp [hi]

end Report

namespace Validation

section Counts

variable {α : Type} [DecidableEq α] {a : α} {seen l l' : List α}

theorem count_repeated :
    (repeated seen l).count a = if a ∈ seen then l.count a else l.count a - 1 := by
  induction l generalizing seen
  case nil         => simp [repeated]
  case cons b l hi =>
    by_cases hb : b ∈ seen <;> by_cases he : b = a
    all_goals simp only [repeated, hb, if_true, if_false, List.count_cons, hi, List.mem_cons]; grind

theorem count_distinct :
    (distinct seen l).count a = if a ∈ seen then 0 else min 1 (l.count a) := by
  induction l generalizing seen
  case nil         => simp [distinct]
  case cons b l hi =>
    by_cases hb : b ∈ seen <;> by_cases he : b = a
    all_goals simp only [distinct, hb, if_true, if_false, List.count_cons, hi, List.mem_cons]; grind

theorem perm_repeated (h : l ~ l') : repeated [] l ~ repeated [] l' :=
  List.perm_iff_count.mpr fun a => by simp only [count_repeated, h.count_eq]

theorem perm_distinct (h : l ~ l') : distinct [] l ~ distinct [] l' :=
  List.perm_iff_count.mpr fun a => by simp only [count_distinct, h.count_eq]

end Counts

-- The same for findings that are still to be reported.
structure Alike (issues issues' : List Issue) : Prop where
  others : issues.filter (·.kind ≠ .cycleDetected) ~ issues'.filter (·.kind ≠ .cycleDetected)
  cyclic : issues.any (·.kind = .cycleDetected) = issues'.any (·.kind = .cycleDetected)

namespace Alike

variable {issues issues' more more' : List Issue}

theorem of_perm (h : issues ~ issues') : Alike issues issues' where
  others := h.filter _
  cyclic := h.any_eq

theorem append (h : Alike issues issues') (h' : Alike more more') :
    Alike (issues ++ more) (issues' ++ more') where
  others := by simpa only [List.filter_append] using h.others.append h'.others
  cyclic := by rw [List.any_append, List.any_append, h.cyclic, h'.cyclic]

-- Of lists of cycles it only counts whether there is any.
theorem of_cycles {cycles cycles' : List (List String)} (h : cycles = [] ↔ cycles' = []) :
    Alike (cycles.map .cycle) (cycles'.map .cycle) where
  others := by simp [List.filter_map, Function.comp_def, Issue.kind]
  cyclic := by
    cases cycles <;> cases cycles' <;> simp_all [Issue.kind]

theorem report (h : Alike issues issues') :
    (Report.ofIssues issues).Alike (Report.ofIssues issues') := by
  constructor
  case errors   =>
    rw [Report.errors_filter_ofIssues, Report.errors_filter_ofIssues]
    exact h.others.filter _
  case warnings =>
    rw [Report.warnings_ofIssues, Report.warnings_ofIssues]
    exact h.others.filter _
  case cyclic   => rw [Report.cyclic_ofIssues, Report.cyclic_ofIssues, h.cyclic]
  case isValid  =>
    rw [Report.isValid_eq, Report.isValid_eq, Report.errors_filter_ofIssues,
      Report.errors_filter_ofIssues, Report.cyclic_ofIssues, Report.cyclic_ofIssues, h.cyclic,
      (h.others.filter _).isEmpty_eq]

end Alike

variable {g g' : Graph} (h : g.Reordered g')

include h

theorem perm_structureIssues : structureIssues g ~ structureIssues g' :=
  ((perm_distinct <| perm_repeated h.perm_ids).map _).append <| (perm_repeated h.edges).map _

theorem nodeIssues_eq : nodeIssues g = nodeIssues g' := by
  have connected : isConnected g = isConnected g' := funext₂ fun _ _ => h.edges.any_eq
  have outgoing : hasOutgoing g = hasOutgoing g' := funext fun _ => h.edges.any_eq
  unfold nodeIssues
  rw [connected, outgoing]

theorem edgeIssues_eq (hn : (ids g).Nodup) : edgeIssues g = edgeIssues g' := by
  funext e
  simp only [edgeIssues, missingEnds, h.node?_eq hn]

theorem perm_practiceIssues (config : Config) :
    practiceIssues config g ~ practiceIssues config g' := by
  have ends : edgeEnds g = edgeEnds g' := by
    funext id
    simp only [edgeEnds, h.edges.countP_eq]
  simp only [practiceIssues, ends, h.nodes.length_eq, h.nodes.countP_eq, h.nodes.any_eq]
  have hd := ((perm_distinct h.perm_ids).filter (config.maxEdgesPerNode < edgeEnds g' ·)).map
    fun id => Issue.highConnectivity id (edgeEnds g' id) config.maxEdgesPerNode
  exact ((hd.append_left _).append_right _).append_right _

end Validation

namespace Graph

variable {g g' : Graph} {id : String}

-- Feeds none, and nothing leads to it that feeds others and is fed by none.
structure Stranded (g : Graph) (id : String) : Prop where
  mem       : id ∈ ids g
  feedsNone : ∀ a, ¬g.Joins id a
  unled     : ∀ s a, (∀ b, ¬g.Joins b s) → g.Joins s a → ¬ReflTransGen g.Joins s id

theorem Reordered.stranded_iff (h : g.Reordered g') : g.Stranded id ↔ g'.Stranded id := by
  have stranded {g g' : Graph} (h : g.Reordered g') (hs : g.Stranded id) : g'.Stranded id := {
    mem       := h.perm_ids.mem_iff.mp hs.mem
    feedsNone := h.joins_eq ▸ hs.feedsNone
    unled     := h.joins_eq ▸ hs.unled }
  exact ⟨stranded h, stranded h.symm⟩

theorem mem_map_unreachableSinks_iff (hn : (ids g).Nodup) :
    id ∈ (Validation.unreachableSinks g.wiring).map g.idAt ↔ g.Stranded id := by
  rw [List.mem_map]
  constructor
  case mp  =>
    rintro ⟨i, hi, rfl⟩
    have ⟨⟨hi, hsink⟩, hunled⟩ := mem_unreachableSinks_iff.mp hi
    refine ⟨mem_ids_iff.mpr ⟨i, hi, rfl⟩, (feedsNone_iff hn hi).mp hsink, ?_⟩
    intro s a hunfed hj hr
    obtain ⟨k, hk, rfl⟩ := mem_ids_iff.mp hj.right.left
    have ⟨j, _, _, ha⟩ := exists_arc_of_joins_idAt hn hk hj
    exact hunled k ⟨(unfed_iff hn hk).mpr hunfed, j, ha⟩ <| (leads_iff hn hk hi).mpr hr
  case mpr =>
    intro ⟨hm, hsink, hunled⟩
    obtain ⟨i, hi, rfl⟩ := mem_ids_iff.mp hm
    refine ⟨i, mem_unreachableSinks_iff.mpr ⟨⟨hi, (feedsNone_iff hn hi).mpr hsink⟩, ?_⟩, rfl⟩
    intro k ⟨hunfed, j, ha⟩ hr
    have ha : g.wiring.Arc k j := g.wiring_arc ▸ ha
    have hk : k < g.nodes.length := ha.lt_size.left
    exact hunled _ _ ((unfed_iff hn hk).mp hunfed) (joins_of_arc ha) <| (leads_iff hn hk hi).mp hr

end Graph

namespace Validation

variable {g g' : Graph} (h : g.Reordered g') (hn : (ids g).Nodup)

include h hn

theorem perm_unreachableSinks :
    (unreachableSinks g.wiring).map g.idAt ~ (unreachableSinks g'.wiring).map g'.idAt := by
  have hn' := h.perm_ids.nodup_iff.mp hn
  have nodup {g : Graph} (hn : (ids g).Nodup) : ((unreachableSinks g.wiring).map g.idAt).Nodup := by
    rw [←g.map_idAt_range] at hn
    exact hn.sublist <| List.filter_sublist.map g.idAt
  apply (List.perm_ext_iff_of_nodup (nodup hn) (nodup hn')).mpr
  intro id
  rw [Graph.mem_map_unreachableSinks_iff hn, Graph.mem_map_unreachableSinks_iff hn',
    h.stranded_iff]

theorem alike_logicIssues : Alike (logicIssues g) (logicIssues g') := by
  have cycles : g.wiring.cycles = [] ↔ g'.wiring.cycles = [] := by
    rw [Wiring.cycles_eq_nil_iff, Wiring.cycles_eq_nil_iff, Graph.acyclic_wiring_iff_joins,
      Graph.acyclic_wiring_iff_joins, h.joins_eq]
  have map (g : Graph) : g.wiring.cycles.map (fun c => Issue.cycle (c.map g.idAt)) =
      (g.wiring.cycles.map (List.map g.idAt)).map .cycle := by
    rw [List.map_map]
    rfl
  have sinks := (perm_unreachableSinks h hn).map Issue.unreachableSink
  rw [List.map_map, List.map_map] at sinks
  rw [logicIssues, logicIssues, map, map, h.length_components hn]
  refine .append (.append (.of_cycles ?_) (.of_perm (.refl _))) (.of_perm sinks)
  rw [List.map_eq_nil_iff, List.map_eq_nil_iff, cycles]

theorem alike_issues (config : Config) : Alike (issues config g) (issues config g') := by
  unfold issues
  rw [h.nodes.isEmpty_eq]
  split
  case isTrue  => exact .of_perm (.refl _)
  case isFalse =>
    have nodes : g.nodes.flatMap (nodeIssues g) ~ g'.nodes.flatMap (nodeIssues g') := by
      rw [nodeIssues_eq h]
      exact h.nodes.flatMap_right _
    have edges : g.edges.flatMap (edgeIssues g) ~ g'.edges.flatMap (edgeIssues g') := by
      rw [edgeIssues_eq h hn]
      exact h.edges.flatMap_right _
    have checked := ((perm_structureIssues h).append nodes).append edges
    exact ((Alike.of_perm checked).append (alike_logicIssues h hn)).append <|
      .of_perm <| perm_practiceIssues h config

end Validation

-- Orders make no difference, unless there are nodes that share an id. Then it is clear beforehand
-- what becomes of the graph.
theorem Graph.alike_validate {g g' : Graph} (h : g.Reordered g') (config : Config) :
    ((ids g).Nodup → (g.validate config).Alike (g'.validate config)) ∧
      (¬(ids g).Nodup →
        (g.validate config).isValid = false ∧ (g'.validate config).isValid = false) := by
  refine ⟨fun hn => (Validation.alike_issues h hn config).report, fun hn => ?_⟩
  constructor <;> refine Bool.eq_false_iff.mpr fun hv => hn ?_
  · exact ((isValid_validate_iff g config).mp hv).distinct
  · exact h.perm_ids.nodup_iff.mpr ((isValid_validate_iff g' config).mp hv).distinct

namespace Graph

-- Two alerts that wait for each other, and one that waits for nothing.
def standoff : Graph where
  name  := "standoff"
  nodes := [{ id := "a", nodeType := "alert_action" }, { id := "b", nodeType := "alert_action" },
    { id := "c", nodeType := "alert_action" }]
  edges := [⟨"a", "signal", "b", "trigger"⟩, ⟨"b", "signal", "a", "trigger"⟩]

def backwards (g : Graph) : Graph :=
  { g with nodes := g.nodes.reverse, edges := g.edges.reverse }

theorem reordered_backwards (g : Graph) : g.Reordered g.backwards :=
  ⟨g.nodes.reverse_perm.symm, g.edges.reverse_perm.symm⟩

-- The circle is found either way, but it is entered elsewhere.
theorem alike_validate_standoff :
    (standoff.validate {}).Alike (standoff.backwards.validate {}) ∧
      standoff.wiring.cycles.map (List.map standoff.idAt) = [["a", "b"]] ∧
      standoff.backwards.wiring.cycles.map (List.map standoff.backwards.idAt) = [["b", "a"]] :=
  ⟨(alike_validate standoff.reordered_backwards {}).left (by decide), by cbv, by cbv⟩

end Graph

end SignalFlow
