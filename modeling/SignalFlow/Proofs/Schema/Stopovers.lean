import Mathlib.Logic.Relation
import SignalFlow.Proofs.Dict
import SignalFlow.Proofs.Schema.Circles

/-!
Moving a graph in two stages. Where hops do not run in circles, whoever stops on the way and goes on
from there takes the same hops as who goes straight on, and comes to the same graph.
-/

open Relation

namespace SignalFlow

-- It makes no difference to the hop whether a graph is stamped before or after it.
def Hop.IgnoresStamps (hop : Hop) : Prop :=
  ∀ g version, hop.apply (Registry.stamp g version) = Registry.stamp (hop.apply g) version

namespace Registry

open Hop (lead applyAll)

-- A hop leads from the one version to the other.
def Leads (r : Registry) (v w : String) : Prop :=
  ∃ hop ∈ r.hops, hop.source = v ∧ hop.target = w

-- Whichever hops are put together, they do not lead back to where they start.
def Acyclic (r : Registry) : Prop :=
  ∀ v, ¬TransGen r.Leads v v

-- The graph may be moved to the version, a walk leads there, and this is what it comes to.
structure Arrives (r : Registry) (g : Graph) (version : String) (g' : Graph) : Prop where
  source : r.versionOf g ∈ r.versions
  target : version ∈ r.versions
  newer  : r.versions.idxOf (r.versionOf g) ≤ r.versions.idxOf version
  walk   : ∃ walk, r.Takes version (r.versionOf g) walk ∧ lead (r.versionOf g) walk = version ∧
    g' = stamp (applyAll walk g) version

variable {r : Registry} {g g' g₁ g₂ : Graph} {stopover target v w : String} {hop : Hop}
  {before after part : List Hop}

section Stamps

theorem stamp_stamp : stamp (stamp g v) w = stamp g w := by
  refine congrArg (fun metadata => { g with metadata }) <| Dict.ext_get? fun k => ?_
  simp only [stamp, Dict.get?_insert]
  split <;> rfl

theorem versionOf_stamp : r.versionOf (stamp g v) = v := by
  rw [versionOf, schemaVersion?_stamp, Option.getD_some]

theorem applyAll_append : applyAll (before ++ after) g = applyAll after (applyAll before g) :=
  List.foldl_append

theorem applyAll_stamp (h : ∀ hop ∈ part, hop.IgnoresStamps) :
    applyAll part (stamp g v) = stamp (applyAll part g) v := by
  induction part generalizing g
  case nil              => rfl
  case cons hop part hi =>
    have ⟨hh, hp⟩ := List.forall_mem_cons.mp h
    calc
      applyAll part (hop.apply (stamp g v)) = applyAll part (stamp (hop.apply g) v) := by rw [hh]
      _                                     = stamp (applyAll part (hop.apply g)) v := hi hp

end Stamps

section Acyclic

theorem leads_of_hopFrom? (h : r.hopFrom? v = some hop) : r.Leads v hop.target :=
  ⟨hop, mem_of_hopFrom? h, source_of_hopFrom? h, rfl⟩

theorem Takes.reflTransGen (h : r.Takes target v part) : ReflTransGen r.Leads v (lead v part) := by
  induction h
  case nil               => exact .refl
  case cons _ first _ hi => exact .head (leads_of_hopFrom? first) hi

theorem Takes.transGen (h : r.Takes target v (hop :: part)) :
    TransGen r.Leads v (lead v (hop :: part)) := by
  cases h
  case cons _ first rest => exact .head' (leads_of_hopFrom? first) rest.reflTransGen

theorem Takes.of_append_right (h : r.Takes target v (before ++ after)) :
    r.Takes target (lead v before) after := by
  induction before generalizing v
  case nil                => exact h
  case cons hop before hi =>
    cases h
    case cons rest => exact hi rest

theorem Acyclic.not_circles (h : r.Acyclic) : ¬r.Circles target v := by
  intro ⟨before, circle, hc, ht, hl⟩
  have ⟨hop, part, hp⟩ := List.exists_cons_of_ne_nil hc
  have round := (hp ▸ ht.of_append_right).transGen
  rw [Hop.lead_append, hp] at hl
  exact h _ <| hl ▸ round

-- Hops that all lead upwards do not run in circles.
theorem acyclic_of_lt (rank : String → Nat)
    (h : ∀ hop ∈ r.hops, rank hop.source < rank hop.target) : r.Acyclic := by
  have lt {v w} (hv : TransGen r.Leads v w) : rank v < rank w := by
    induction hv
    case single hv    =>
      obtain ⟨hop, hm, rfl, rfl⟩ := hv
      exact h hop hm
    case tail _ hv hi =>
      obtain ⟨hop, hm, rfl, rfl⟩ := hv
      exact Nat.lt_trans hi <| h hop hm
  exact fun v hv => Nat.lt_irrefl _ <| lt hv

-- On the way to a stopover a walk does not meet what lies behind it.
theorem Takes.extend (acyclic : r.Acyclic) (hb : r.Takes stopover v before)
    (ha : r.Takes target (lead v before) after) (stop : lead v (before ++ after) = target) :
    r.Takes target v (before ++ after) := by
  induction hb
  case nil                           => exact ha
  case cons v hop part _ first rest hi =>
    have stop : lead hop.target (part ++ after) = target := stop
    have rest := hi ha stop
    have back : TransGen r.Leads v target :=
      .head' (leads_of_hopFrom? first) (stop ▸ rest.reflTransGen)
    exact .cons (fun he => acyclic v <| he ▸ back) first rest

theorem Takes.length_le_hops (acyclic : r.Acyclic) (h : r.Takes target v part) :
    part.length ≤ r.hops.length :=
  (h.subperm_or_circles.resolve_right acyclic.not_circles).length_le

-- A walk to the target is followed to its end, if it may be that long.
theorem Takes.follow_eq {fuel : Nat} (h : r.Takes target v part) (stop : lead v part = target)
    (hf : part.length ≤ fuel) :
    r.follow target fuel v g = .ok (stamp (applyAll part g) target) := by
  induction h generalizing fuel g
  case nil              => rw [follow]; exact if_pos stop
  case cons ne first _ hi =>
    cases fuel
    case zero      => cases hf
    case succ fuel =>
      rw [follow, if_neg ne, first]
      exact hi stop (Nat.le_of_succ_le_succ hf)

end Acyclic

-- What is known of a graph that was moved, and what is needed to move one.

theorem arrives_of_migrate (h : r.migrate g (some target) = .ok g') : r.Arrives g target g' := by
  by_cases ht : r.targetOf (some target) ∈ r.versions
  case neg =>
    have := rank?_of_not_mem ht
    rw [targetOf] at this
    simp only [migrate, this] at h
    cases h
  by_cases hs : r.versionOf g ∈ r.versions
  case neg =>
    have hr := rank?_of_not_mem hs
    rw [targetOf] at ht
    rw [versionOf] at hr
    simp only [migrate, rank?_of_mem ht, hr] at h
    cases h
  rw [migrate_of_mem hs ht] at h
  split at h
  case isTrue     => cases h
  case isFalse hn =>
    obtain ⟨walk, hw, stop, he⟩ | ⟨_, _, _, he⟩ | ⟨_, _, _, _, he⟩ := follow_cases r _ _ _ g
    · exact ⟨hs, ht, Nat.not_lt.mp hn, walk, hw, stop, Except.ok.inj <| h.symm.trans he⟩
    · cases h.symm.trans he
    · cases h.symm.trans he

theorem Arrives.migrate_eq (acyclic : r.Acyclic) (h : r.Arrives g target g') :
    r.migrate g (some target) = .ok g' := by
  obtain ⟨walk, ht, stop, rfl⟩ := h.walk
  have known : r.targetOf (some target) ∈ r.versions := h.target
  refine (migrate_of_mem h.source known).trans <| (if_neg <| Nat.not_lt.mpr h.newer).trans ?_
  exact ht.follow_eq stop <| ht.length_le_hops acyclic

theorem Arrives.trans (acyclic : r.Acyclic) (ignores : ∀ hop ∈ r.hops, hop.IgnoresStamps)
    (h₁ : r.Arrives g stopover g₁) (h₂ : r.Arrives g₁ target g₂) : r.Arrives g target g₂ := by
  obtain ⟨before, hb, hl, rfl⟩ := h₁.walk
  obtain ⟨after, ha, stop, rfl⟩ := h₂.walk
  have newer := h₂.newer
  rw [versionOf_stamp] at newer ha stop
  have stop : lead (r.versionOf g) (before ++ after) = target := by rw [Hop.lead_append, hl, stop]
  refine ⟨h₁.source, h₂.target, Nat.le_trans h₁.newer newer, before ++ after, ?takes, stop, ?graph⟩
  case takes => exact hb.extend acyclic (hl ▸ ha) stop
  case graph =>
    have ignores : ∀ hop ∈ after, hop.IgnoresStamps := fun hop hm => ignores hop <| ha.subset hm
    rw [applyAll_stamp ignores, stamp_stamp, applyAll_append]

-- A stop on the way makes no difference.
theorem migrate_of_stopover (acyclic : r.Acyclic) (ignores : ∀ hop ∈ r.hops, hop.IgnoresStamps)
    (h₁ : r.migrate g (some stopover) = .ok g₁) (h₂ : r.migrate g₁ (some target) = .ok g₂) :
    r.migrate g (some target) = .ok g₂ :=
  have arrives := (arrives_of_migrate h₁).trans acyclic ignores <| arrives_of_migrate h₂
  arrives.migrate_eq acyclic

-- Where two versions lead to each other, the way is longer for who stops.
example :
    let r := register [tagging "1.1" "2.0", tagging "1.0" "2.0", tagging "2.0" "1.1"]
    let tags (answer : Except MigrationError Graph) := answer.toOption.map Graph.description
    let g := stamp { name := "g" } "1.0"
    tags (r.migrate g (some "2.0")) = some "+tag" ∧
      tags (r.migrate g (some "1.1") >>= (r.migrate · (some "2.0"))) = some "+tag+tag+tag" :=
  ⟨by decide, by decide⟩

theorem ignoresStamps_tagging : (tagging v w).IgnoresStamps := by
  intro g version
  have metadata : (g.metadata.insert Graph.schemaVersionKey (.str version)).insert "tagged"
      (.bool true) = (g.metadata.insert "tagged" (.bool true)).insert Graph.schemaVersionKey
      (.str version) := by
    refine Dict.ext_get? fun k => ?_
    simp only [Dict.get?_insert, Graph.schemaVersionKey]
    grind
  simp only [tagging, stamp, metadata]

-- From the first version on there is a way without the stopover, but it was registered later.
theorem migrate_of_stopover_tagging :
    let r := register [tagging "1.0" "1.1", tagging "1.1" "2.0", tagging "1.0" "2.0"]
    let g := stamp { name := "g" } "1.0"
    r.Acyclic ∧ (∀ hop ∈ r.hops, hop.IgnoresStamps) ∧ ∃ g₁ g₂,
      r.migrate g (some "1.1") = .ok g₁ ∧ r.migrate g₁ (some "2.0") = .ok g₂ ∧
      r.migrate g (some "2.0") = .ok g₂ := by
  intro r g
  have acyclic : r.Acyclic := acyclic_of_lt r.versions.idxOf (by decide)
  have ignores : ∀ hop ∈ r.hops, hop.IgnoresStamps := by
    have hops : r.hops = [tagging "1.0" "1.1", tagging "1.1" "2.0", tagging "1.0" "2.0"] := rfl
    simp [hops, ignoresStamps_tagging]
  have ⟨g₁, h₁⟩ : ∃ g₁, r.migrate g (some "1.1") = .ok g₁ := ⟨_, rfl⟩
  have ⟨g₂, h₂⟩ : ∃ g₂, r.migrate g₁ (some "2.0") = .ok g₂ := by
    cases h₁
    exact ⟨_, rfl⟩
  exact ⟨acyclic, ignores, g₁, g₂, h₁, h₂, migrate_of_stopover acyclic ignores h₁ h₂⟩

end Registry

end SignalFlow
