import Mathlib.Data.List.Nodup
import SignalFlow.Proofs.Schema.Registry

/-!
Hops that lead from each version to the next, registered in any order. A registry takes versions for
the older the longer it knows them, and it never goes back to an older one. So a graph can be moved
along the whole chain exactly if the versions became known in the order of the chain.
-/

namespace SignalFlow

namespace Hop

variable {first : String} {chain before part after : List Hop}

-- Where the hops lead to, one after the other.
def lead (first : String) : List Hop → String
  | []           => first
  | hop :: chain => lead hop.target chain

-- The versions that they touch.
def versions (first : String) (chain : List Hop) : List String :=
  first :: chain.map target

def Linked (first : String) : List Hop → Prop
  | []           => True
  | hop :: chain => hop.source = first ∧ Linked hop.target chain

-- The hops form one chain that starts at the given version.
structure IsChain (first : String) (chain : List Hop) : Prop where
  linked   : Linked first chain
  distinct : (versions first chain).Nodup

def applyAll (chain : List Hop) (g : Graph) : Graph :=
  chain.foldl (fun g hop => hop.apply g) g

theorem linked_append (h : Linked first (before ++ after)) :
    Linked first before ∧ Linked (lead first before) after := by
  induction before generalizing first
  case nil                => exact ⟨trivial, h⟩
  case cons hop before hi => exact ⟨⟨h.left, (hi h.right).left⟩, (hi h.right).right⟩

theorem lead_append : lead first (before ++ after) = lead (lead first before) after := by
  induction before generalizing first
  case nil                => rfl
  case cons hop before hi => exact hi

theorem versions_append :
    versions first (before ++ after) = versions first before ++ after.map target := by
  rw [versions, List.map_append]
  rfl

-- All of the versions but the last are sources.
theorem map_source_append (h : Linked first chain) :
    chain.map source ++ [lead first chain] = versions first chain := by
  induction chain generalizing first
  case nil               => rfl
  case cons hop chain hi =>
    rw [List.map_cons, List.cons_append, lead, hi h.right, h.left]
    rfl

-- Any part of a chain is a chain.
theorem IsChain.append (h : IsChain first (before ++ after)) :
    IsChain first before ∧ IsChain (lead first before) after := by
  have ⟨hb, ha⟩ := linked_append h.linked
  have hd := versions_append ▸ h.distinct
  have hv : versions first before ++ after.map target =
      before.map source ++ versions (lead first before) after := by
    rw [←map_source_append hb, List.append_assoc]
    rfl
  exact ⟨⟨hb, (List.nodup_append.mp hd).left⟩,
    ⟨ha, (List.nodup_append.mp <| hv ▸ hd).right.left⟩⟩

theorem lead_mem : lead first chain ∈ versions first chain := by
  induction chain generalizing first
  case nil               => exact .head _
  case cons hop chain hi => exact .tail _ hi

theorem mem_versions_iff {v : String} :
    v ∈ versions first chain ↔ ∃ part after, chain = part ++ after ∧ v = lead first part := by
  constructor
  case mpr =>
    intro ⟨part, after, hc, hv⟩
    rw [hc, hv, versions_append]
    exact List.mem_append_left _ lead_mem
  case mp =>
    intro h
    induction chain generalizing first
    case nil => exact ⟨[], [], rfl, List.mem_singleton.mp h⟩
    case cons hop chain hi =>
      cases h
      case head   => exact ⟨[], _, rfl, rfl⟩
      case tail h =>
        have ⟨part, after, hc, hv⟩ := hi h
        exact ⟨hop :: part, after, congrArg _ hc, hv⟩

theorem lead_mem_of_eq (first : String) (h : chain = before ++ part ++ after) :
    lead first before ∈ versions first chain ∧ lead first (before ++ part) ∈ versions first chain :=
  ⟨mem_versions_iff.mpr ⟨before, part ++ after, by rw [h, List.append_assoc], rfl⟩,
    mem_versions_iff.mpr ⟨before ++ part, after, h, rfl⟩⟩

theorem IsChain.nodup_sources (h : IsChain first chain) : (chain.map source).Nodup :=
  have hd := map_source_append h.linked ▸ h.distinct
  (List.nodup_append.mp hd).left

-- What holds of earlier and later versions, said by what lies between them.
theorem pairwise_versions_iff {R : String → String → Prop} (hr : ∀ v, R v v) :
    (versions first chain).Pairwise R ↔ ∀ before part after, chain = before ++ part ++ after →
      R (lead first before) (lead first (before ++ part)) := by
  induction chain generalizing first
  case nil =>
    have single (h : R first first) : ∀ before part after, [] = before ++ part ++ after →
        R (lead first before) (lead first (before ++ part)) := by
      intro before part after hc
      have ⟨hp, _⟩ := List.append_eq_nil_iff.mp hc.symm
      have ⟨hb, _⟩ := List.append_eq_nil_iff.mp hp
      rwa [hp, hb]
    exact iff_of_true (List.pairwise_singleton ..) <| single (hr first)
  case cons hop chain hi =>
    have hv : versions first (hop :: chain) = first :: versions hop.target chain := rfl
    rw [hv, List.pairwise_cons, hi]
    constructor
    case mp  =>
      intro ⟨hf, hc⟩ before part after h
      cases before
      case nil           =>
        cases part
        case nil           => exact hr first
        case cons hop part =>
          have ⟨ho, h⟩ := List.cons.inj h
          exact ho ▸ hf _ (mem_versions_iff.mpr ⟨part, after, h, ho ▸ rfl⟩)
      case cons _ before =>
        have ⟨ho, h⟩ := List.cons.inj h
        exact ho ▸ hc before part after h
    case mpr =>
      intro h
      constructor
      case left  =>
        intro v hv
        have ⟨part, after, hc, hv⟩ := mem_versions_iff.mp hv
        exact hv ▸ h [] (hop :: part) after (congrArg _ hc)
      case right => exact fun before part after hc => h (hop :: before) part after (congrArg _ hc)

end Hop

namespace Registry

open Hop (IsChain lead applyAll)

variable {r : Registry} {first v : String} {hops chain part : List Hop} {g : Graph}

-- What users expect of a registry whose hops form a chain: that they can get from each version to
-- each later one, by the hops in between and by no others.
structure Walks (r : Registry) (first : String) (chain : List Hop) : Prop where
  current : r.currentVersion = lead first chain
  migrate : ∀ before part after, chain = before ++ part ++ after →
    ∀ g, g.schemaVersion? = some (lead first before) →
      r.migrate g (some (lead first (before ++ part))) =
        .ok (stamp (applyAll part g) (lead first (before ++ part)))

def register (hops : List Hop) : Registry :=
  hops.foldl withHop new

theorem hops_foldl_withHop : (hops.foldl withHop r).hops = r.hops ++ hops := by
  induction hops generalizing r
  case nil              => exact (List.append_nil _).symm
  case cons hop hops hi =>
    rw [List.foldl_cons, hi, withHop, List.append_assoc, List.singleton_append]

theorem learn_of_mem {versions : List String} {w : String} (h : w ∈ versions) :
    learn versions w = versions :=
  if_pos h

theorem prefix_learn {versions : List String} {w : String} : versions <+: learn versions w := by
  rw [learn]
  split
  case isTrue  => exact List.prefix_rfl
  case isFalse => exact List.prefix_append versions [w]

theorem mem_learn_iff {versions : List String} {w : String} :
    v ∈ learn versions w ↔ v ∈ versions ∨ v = w := by
  rw [learn]
  split
  case isTrue h => exact ⟨.inl, fun hv => hv.elim id (· ▸ h)⟩
  case isFalse  => rw [List.mem_append, List.mem_singleton]

theorem nodup_learn {versions : List String} (h : versions.Nodup) (w : String) :
    (learn versions w).Nodup := by
  rw [learn]
  split
  case isTrue     => exact h
  case isFalse hw =>
    have apart : ∀ v ∈ versions, ∀ w' ∈ [w], v ≠ w' :=
      fun v hv w' hw' => List.mem_singleton.mp hw' ▸ ne_of_mem_of_not_mem hv hw
    exact List.nodup_append.mpr ⟨h, List.nodup_singleton w, apart⟩

theorem mem_versions_foldl_withHop : v ∈ (hops.foldl withHop r).versions ↔
    v ∈ r.versions ∨ v ∈ hops.map Hop.source ∨ v ∈ hops.map Hop.target := by
  induction hops generalizing r
  case nil              => simp
  case cons hop hops hi =>
    simp only [List.foldl_cons, hi, withHop, mem_learn_iff, List.map_cons, List.mem_cons]
    tauto

theorem nodup_versions_foldl_withHop (h : r.versions.Nodup) :
    (hops.foldl withHop r).versions.Nodup := by
  induction hops generalizing r
  case nil              => exact h
  case cons hop hops hi => exact hi <| nodup_learn (nodup_learn h _) _

theorem rank?_of_mem (h : v ∈ r.versions) : r.rank? v = some (r.versions.idxOf v) :=
  List.findIdx?_eq_some_of_exists ⟨v, h, beq_self_eq_true v⟩

-- Of the version of a graph and the one that it is moved to, the first must not be the newer one.
theorem migrate_eq {source target : String} (hs : source ∈ r.versions) (ht : target ∈ r.versions)
    (hg : g.schemaVersion? = some source) :
    r.migrate g (some target) =
      if r.versions.idxOf target < r.versions.idxOf source then .error (.noPath source target)
      else r.follow target r.hops.length source g := by
  simp only [Registry.migrate, hg, Option.getD_some, rank?_of_mem hs, rank?_of_mem ht]

-- Where no two hops start at the same version, it does not matter which comes first.
theorem hopFrom?_of_mem {hop : Hop} (hn : (r.hops.map Hop.source).Nodup) (h : hop ∈ r.hops) :
    r.hopFrom? hop.source = some hop := by
  cases hf : r.hopFrom? hop.source
  case none      => simpa using List.find?_eq_none.mp hf hop h
  case some hop' =>
    have hm := List.mem_of_find?_eq_some hf
    have hs : hop'.source = hop.source := by simpa using List.find?_some hf
    rw [List.inj_on_of_nodup_map hn hm h hs]

-- A walk along a chain meets its end at the end and not before.
theorem follow_chain {fuel : Nat} (hc : IsChain first part) (hf : part.length ≤ fuel)
    (hr : ∀ hop ∈ part, r.hopFrom? hop.source = some hop) :
    r.follow (lead first part) fuel first g =
      .ok (stamp (applyAll part g) (lead first part)) := by
  induction part generalizing first fuel g
  case nil              => rw [follow]; exact if_pos rfl
  case cons hop part hi =>
    obtain ⟨hs, hl⟩ := hc.linked
    obtain ⟨hn, hd⟩ := List.nodup_cons.mp hc.distinct
    obtain ⟨hh, hr⟩ := List.forall_mem_cons.mp hr
    have hne : first ≠ lead hop.target part := (ne_of_mem_of_not_mem Hop.lead_mem hn).symm
    cases fuel
    case zero      => cases hf
    case succ fuel =>
      rw [lead, follow, if_neg hne, ←hs, hh]
      exact hi ⟨hl, hd⟩ (Nat.le_of_succ_le_succ hf) hr

theorem perm_versions_register (hc : IsChain first chain) (hp : hops.Perm chain)
    (h₁ : firstVersion ∈ Hop.versions first chain) :
    (register hops).versions.Perm (Hop.versions first chain) := by
  have hd : (register hops).versions.Nodup :=
    nodup_versions_foldl_withHop <| List.nodup_singleton firstVersion
  apply (List.perm_ext_iff_of_nodup hd hc.distinct).mpr
  intro v
  rw [register, mem_versions_foldl_withHop, (hp.map _).mem_iff, (hp.map _).mem_iff]
  constructor
  case mp  =>
    intro h
    cases h
    case inl h => exact List.mem_singleton.mp h ▸ h₁
    case inr h =>
      cases h
      case inl h => exact Hop.map_source_append hc.linked ▸ List.mem_append_left _ h
      case inr h => exact .tail _ h
  case mpr =>
    intro h
    cases h
    case tail h => exact .inr <| .inr h
    case head   =>
      cases chain
      case nil            => exact .inl <| List.mem_singleton.mp h₁ ▸ .head _
      case cons hop chain => exact .inr <| .inl <| hc.linked.left ▸ .head _

theorem pairwise_idxOf_of_nodup {l : List String} (h : l.Nodup) :
    l.Pairwise fun v w => l.idxOf v ≤ l.idxOf w := by
  apply List.pairwise_iff_getElem.mpr
  intro i j hi hj hlt
  rw [h.idxOf_getElem, h.idxOf_getElem]
  exact Nat.le_of_lt hlt

theorem schemaVersion?_stamp : (stamp g v).schemaVersion? = some v := by
  simp [Graph.schemaVersion?, stamp, Json.string?]

theorem Walks.pairwise_idxOf (h : r.Walks first chain)
    (hm : ∀ v ∈ Hop.versions first chain, v ∈ r.versions) :
    (Hop.versions first chain).Pairwise fun v w => r.versions.idxOf v ≤ r.versions.idxOf w := by
  apply (Hop.pairwise_versions_iff fun _ => Nat.le_refl _).mpr
  intro before part after hs
  have ⟨source, target⟩ := Hop.lead_mem_of_eq first hs
  have := h.migrate before part after hs (stamp { name := "" } _) schemaVersion?_stamp
  rw [migrate_eq (hm _ source) (hm _ target) schemaVersion?_stamp] at this
  by_contra hlt
  rw [if_pos (Nat.not_le.mp hlt)] at this
  cases this

theorem Walks.versions_eq (hc : IsChain first chain) (hp : hops.Perm chain)
    (h₁ : firstVersion ∈ Hop.versions first chain) (h : (register hops).Walks first chain) :
    (register hops).versions = Hop.versions first chain := by
  have perm := perm_versions_register hc hp h₁
  have sorted := pairwise_idxOf_of_nodup <| perm.nodup_iff.mpr hc.distinct
  apply perm.eq_of_pairwise _ sorted <| h.pairwise_idxOf fun v hv => perm.mem_iff.mpr hv
  intro v w hv hw hvw hwv
  exact (List.idxOf_inj hv).mp <| Nat.le_antisymm hvw hwv

theorem walks_of_versions_eq (hc : IsChain first chain) (hp : hops.Perm chain)
    (hv : (register hops).versions = Hop.versions first chain) :
    (register hops).Walks first chain := by
  have sorted := pairwise_idxOf_of_nodup hc.distinct
  have ordered := (Hop.pairwise_versions_iff fun _ => Nat.le_refl _).mp sorted
  have hh : (register hops).hops = hops := hops_foldl_withHop
  have known : ∀ hop ∈ chain, (register hops).hopFrom? hop.source = some hop := by
    intro hop hm
    apply hopFrom?_of_mem
    · exact hh.symm ▸ (hp.map Hop.source).nodup_iff.mpr hc.nodup_sources
    · exact hh.symm ▸ hp.mem_iff.mpr hm
  constructor
  case current =>
    rw [currentVersion, hv, ←Hop.map_source_append hc.linked, List.getLast?_concat,
      Option.getD_some]
  case migrate =>
    intro before part after hs g hg
    obtain ⟨source, target⟩ := Hop.lead_mem_of_eq first hs
    have hl : part.length ≤ (register hops).hops.length := by
      rw [hh, hp.length_eq, hs, List.length_append, List.length_append]
      omega
    rw [migrate_eq (hv ▸ source) (hv ▸ target) hg, hv,
      if_neg (Nat.not_lt.mpr <| ordered before part after hs), Hop.lead_append]
    apply follow_chain (hs ▸ hc).append.left.append.right hl
    exact fun hop hm => known hop <| hs ▸ List.mem_append_left _ (List.mem_append_right _ hm)

theorem prefix_versions_foldl_withHop : r.versions <+: (hops.foldl withHop r).versions := by
  induction hops generalizing r
  case nil              => exact List.prefix_rfl
  case cons hop hops hi => exact (prefix_learn.trans prefix_learn).trans (hi (r := r.withHop hop))

-- A chain that starts at another version than the registry cannot be walked, in whatever order its
-- hops are registered.
theorem Walks.first_eq (hc : IsChain first chain) (hp : hops.Perm chain)
    (h₁ : firstVersion ∈ Hop.versions first chain) (h : (register hops).Walks first chain) :
    first = firstVersion := by
  have known : new.versions <+: (register hops).versions := prefix_versions_foldl_withHop
  rw [h.versions_eq hc hp h₁] at known
  exact (List.cons_prefix_cons.mp known).left.symm

theorem versions_foldl_withHop {known : List String} (hr : r.versions = known ++ [first])
    (hl : Hop.Linked first chain) (hd : (known ++ Hop.versions first chain).Nodup) :
    (chain.foldl withHop r).versions = known ++ Hop.versions first chain := by
  induction chain generalizing r first known
  case nil               => exact hr
  case cons hop chain hi =>
    have ⟨hs, hl⟩ := hl
    have hv : known ++ Hop.versions first (hop :: chain) =
        (known ++ [first]) ++ Hop.versions hop.target chain := by
      rw [List.append_assoc]
      rfl
    have hn : hop.target ∉ known ++ [first] :=
      fun hm => (List.nodup_append.mp <| hv ▸ hd).right.right _ hm _ (.head _) rfl
    rw [hv, List.foldl_cons]
    have hw : (r.withHop hop).versions = learn (learn r.versions hop.source) hop.target := rfl
    refine hi ?_ hl (hv ▸ hd)
    rw [hw, hr, hs, learn_of_mem <| List.mem_append_right _ (.head _), learn, if_neg hn]

-- One that starts there can be walked if its hops are registered from its start to its end.
theorem walks_register (hc : IsChain firstVersion chain) :
    (register chain).Walks firstVersion chain :=
  have hv := versions_foldl_withHop (r := new) (List.nil_append _).symm hc.linked hc.distinct
  walks_of_versions_eq hc (.refl _) hv

-- A chain can be walked from any version to any later one, exactly if its versions became known in
-- the order of the chain.
theorem walks_iff (hc : IsChain first chain) (hp : hops.Perm chain)
    (h₁ : firstVersion ∈ Hop.versions first chain) :
    (register hops).Walks first chain ↔ (register hops).versions = Hop.versions first chain :=
  ⟨Walks.versions_eq hc hp h₁, walks_of_versions_eq hc hp⟩

-- A hop that leaves its mark on the graphs that it moves.
def tagging (source target : String) : Hop where
  source := source
  target := target
  apply g := {
    g with
    metadata    := g.metadata.insert "tagged" (.bool true)
    description := g.description ++ "+tag" }

-- The first hop may be registered last.
theorem walks_tagging :
    (register [tagging "1.1" "2.0", tagging "1.0" "1.1"]).Walks "1.0"
      [tagging "1.0" "1.1", tagging "1.1" "2.0"] := by
  have hc : IsChain "1.0" [tagging "1.0" "1.1", tagging "1.1" "2.0"] :=
    ⟨⟨rfl, rfl, trivial⟩, by decide⟩
  exact (walks_iff hc (.swap ..) (.head _)).mpr (by decide)

theorem not_walks_tagging :
    let hop := tagging "0.9" "1.0"
    IsChain "0.9" [hop] ∧ firstVersion ∈ Hop.versions "0.9" [hop] ∧
      (register [hop]).currentVersion = "0.9" ∧
      (register [hop]).migrate (stamp { name := "g" } "0.9") (some "1.0") =
        .error (.noPath "0.9" "1.0") :=
  ⟨⟨⟨rfl, trivial⟩, by decide⟩, by decide, by decide, rfl⟩

end Registry

end SignalFlow
