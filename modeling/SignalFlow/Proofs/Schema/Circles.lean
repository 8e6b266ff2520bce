import Mathlib.Data.List.Perm.Subperm
import SignalFlow.Proofs.Schema.Chain

/-!
Moving a graph by hops of which nothing is known, not even that they lead to newer versions. A walk
is determined by where it starts. So either it meets no version twice, and then it ends, or it runs
in a circle, and then it never does.
-/

namespace SignalFlow

namespace Registry

open Hop (lead applyAll)

-- The hops that a walk takes from a version on. It takes none from its target.
inductive Takes (r : Registry) (target : String) : String → List Hop → Prop
  | nil {v} : Takes r target v []
  | cons {v hop part} (ne : v ≠ target) (first : r.hopFrom? v = some hop)
      (rest : Takes r target hop.target part) : Takes r target v (hop :: part)

variable {r : Registry} {target v : String} {hop : Hop} {before after part : List Hop}

-- The walk gets back to a version where it has been.
def Circles (r : Registry) (target v : String) : Prop :=
  ∃ before circle, circle ≠ [] ∧ r.Takes target v (before ++ circle) ∧
    lead v (before ++ circle) = lead v before

theorem source_of_hopFrom? (h : r.hopFrom? v = some hop) : hop.source = v := by
  simpa using List.find?_some h

theorem mem_of_hopFrom? (h : r.hopFrom? v = some hop) : hop ∈ r.hops :=
  List.mem_of_find?_eq_some h

namespace Takes

theorem append (hb : r.Takes target v before) (ha : r.Takes target (lead v before) after) :
    r.Takes target v (before ++ after) := by
  induction hb
  case nil                   => exact ha
  case cons ne first rest hi => exact .cons ne first (hi ha)

theorem linked (h : r.Takes target v part) : Hop.Linked v part := by
  induction h
  case nil                => trivial
  case cons ne first _ hi => exact ⟨source_of_hopFrom? first, hi⟩

theorem subset (h : r.Takes target v part) : part ⊆ r.hops := by
  induction h
  case nil                => exact List.nil_subset _
  case cons ne first _ hi => exact List.cons_subset.mpr ⟨mem_of_hopFrom? first, hi⟩

theorem of_append (h : r.Takes target v (before ++ after)) : r.Takes target v before := by
  induction before generalizing v
  case nil                => exact .nil
  case cons hop before hi =>
    cases h
    case cons ne first rest => exact .cons ne first (hi rest)

-- Where a walk has come to its end, it cannot have got any further.
theorem length_le (h : r.Takes target v part) (h' : r.Takes target v after)
    (stop : lead v part = target ∨ r.hopFrom? (lead v part) = none) :
    after.length ≤ part.length := by
  induction h' generalizing part
  case nil                    => exact Nat.zero_le _
  case cons ne' first' _ hi =>
    cases h
    case nil              => simp [lead, ne', first'] at stop
    case cons rest _ first =>
      cases Option.some.inj <| first.symm.trans first'
      exact Nat.succ_le_succ (hi rest stop)

end Takes

theorem Circles.cons (ne : v ≠ target) (first : r.hopFrom? v = some hop)
    (h : r.Circles target hop.target) : r.Circles target v := by
  obtain ⟨before, circle, hc, ht, hl⟩ := h
  exact ⟨hop :: before, circle, hc, .cons ne first ht, hl⟩

-- Once around, a circle starts one hop later.
theorem Circles.next (h : r.Circles target v) :
    ∃ hop, v ≠ target ∧ r.hopFrom? v = some hop ∧ r.Circles target hop.target := by
  obtain ⟨before, circle, hc, ht, hl⟩ := h
  cases before
  case cons hop before =>
    cases ht
    case cons ne first rest => exact ⟨hop, ne, first, before, circle, hc, rest, hl⟩
  case nil =>
    cases circle
    case nil           => exact absurd rfl hc
    case cons hop part =>
      have hl : lead hop.target part = v := hl
      have around : r.Takes target (lead hop.target part) (hop :: part) := hl.symm ▸ ht
      cases ht
      case cons ne first rest =>
        have back : lead hop.target (part ++ hop :: part) = lead hop.target part := by
          rw [Hop.lead_append, lead]
        exact ⟨hop, ne, first, part, hop :: part, List.cons_ne_nil _ _, rest.append around, back⟩

theorem Circles.exists_takes (h : r.Circles target v) (n : Nat) :
    ∃ part, part.length = n ∧ r.Takes target v part := by
  induction n generalizing v
  case zero      => exact ⟨[], rfl, .nil⟩
  case succ n hi =>
    have ⟨hop, ne, first, hc⟩ := h.next
    have ⟨part, hl, ht⟩ := hi hc
    exact ⟨hop :: part, congrArg Nat.succ hl, .cons ne first ht⟩

-- Two hops with the same source are the two ends of a circle.
theorem Takes.nodup_or_circles (h : r.Takes target v part) :
    (part.map Hop.source).Nodup ∨ r.Circles target v := by
  induction h
  case nil                                   => exact .inl List.nodup_nil
  case cons v hop part ne first rest hi =>
    cases hi
    case inr hc => exact .inr <| hc.cons ne first
    case inl hn =>
      by_cases hm : v ∈ part.map Hop.source
      case neg =>
        rw [List.map_cons, source_of_hopFrom? first]
        exact .inl <| List.nodup_cons.mpr ⟨hm, hn⟩
      case pos =>
        obtain ⟨again, ha, hv⟩ := List.mem_map.mp hm
        obtain ⟨part, after, rfl⟩ := List.append_of_mem ha
        have back : lead hop.target part = v := hv ▸ (Hop.linked_append rest.linked).right.left.symm
        exact .inr ⟨[], hop :: part, List.cons_ne_nil _ _, .cons ne first rest.of_append, back⟩

theorem Takes.subperm_or_circles (h : r.Takes target v part) :
    part.Subperm r.hops ∨ r.Circles target v :=
  h.nodup_or_circles.imp_left fun hn => List.subperm_of_subset hn.of_map h.subset

-- What following the hops tells is true of the walk, however many hops it may follow.
theorem follow_cases (r : Registry) (target : String) (fuel : Nat) (v : String) (g : Graph) :
    (∃ part, r.Takes target v part ∧ lead v part = target ∧
      r.follow target fuel v g = .ok (stamp (applyAll part g) target)) ∨
    (∃ part, r.Takes target v part ∧ r.hopFrom? (lead v part) = none ∧
      r.follow target fuel v g = .error (.noPath (lead v part) target)) ∨
    (∃ part, r.Takes target v part ∧ part.length = fuel + 1 ∧
      ∃ w, r.follow target fuel v g = .error (.endless w target)) := by
  rw [follow]
  by_cases hv : v = target
  case pos => exact .inl ⟨[], .nil, hv, if_pos hv⟩
  case neg =>
    rw [if_neg hv]
    cases hf : r.hopFrom? v
    case none     => exact .inr <| .inl ⟨[], .nil, hf, rfl⟩
    case some hop =>
      cases fuel
      case zero      => exact .inr <| .inr ⟨[hop], .cons hv hf .nil, rfl, v, rfl⟩
      case succ fuel =>
        obtain ⟨part, ht, h⟩ | ⟨part, ht, h⟩ | ⟨part, ht, hl, h⟩ :=
          follow_cases r target fuel hop.target (hop.apply g)
        · exact .inl ⟨hop :: part, .cons hv hf ht, h⟩
        · exact .inr <| .inl ⟨hop :: part, .cons hv hf ht, h⟩
        · exact .inr <| .inr ⟨hop :: part, .cons hv hf ht, congrArg Nat.succ hl, h⟩

theorem Takes.not_circles (h : r.Takes target v part)
    (stop : lead v part = target ∨ r.hopFrom? (lead v part) = none) : ¬r.Circles target v := by
  intro hc
  have ⟨after, hl, ha⟩ := hc.exists_takes (part.length + 1)
  exact Nat.not_succ_le_self _ <| hl ▸ h.length_le ha stop

theorem Takes.idxOf_le (h : r.Takes target v part)
    (hr : ∀ hop ∈ r.hops, r.versions.idxOf hop.source < r.versions.idxOf hop.target) :
    r.versions.idxOf v + part.length ≤ r.versions.idxOf (lead v part) := by
  induction h
  case nil                   => exact Nat.le_refl _
  case cons _ first _ hi =>
    have := hr _ <| mem_of_hopFrom? first
    rw [source_of_hopFrom? first] at this
    rw [lead, List.length_cons]
    omega

-- Hops that lead to newer versions only do not get back.
theorem not_circles_of_lt
    (hr : ∀ hop ∈ r.hops, r.versions.idxOf hop.source < r.versions.idxOf hop.target) :
    ¬r.Circles target v := by
  intro hc
  have ⟨part, hl, ht⟩ := hc.exists_takes (r.versions.length + 1)
  have := ht.idxOf_le hr
  have : r.versions.idxOf (lead v part) ≤ r.versions.length := List.idxOf_le_length
  omega

-- The version that a graph is moved from.
def versionOf (r : Registry) (g : Graph) : String :=
  g.schemaVersion?.getD r.currentVersion

-- The version that it is moved to.
def targetOf (r : Registry) (target? : Option String) : String :=
  target?.getD r.currentVersion

-- Moving a graph comes to an end: there is no walk to go on, or there is one that takes each of the
-- registered hops at most once.
inductive Ends (r : Registry) (g : Graph) (target? : Option String) : Prop
  | unsupported {version} (named : version = r.targetOf target? ∨ version = r.versionOf g)
      (unknown : version ∉ r.versions)
      (answer : r.migrate g target? = .error (.unsupportedVersion version))
  | backwards (older : r.versions.idxOf (r.targetOf target?) < r.versions.idxOf (r.versionOf g))
      (answer : r.migrate g target? = .error (.noPath (r.versionOf g) (r.targetOf target?)))
  | stuck {walk} (takes : r.Takes (r.targetOf target?) (r.versionOf g) walk)
      (once : walk.Subperm r.hops) (stop : r.hopFrom? (lead (r.versionOf g) walk) = none)
      (answer : r.migrate g target? =
        .error (.noPath (lead (r.versionOf g) walk) (r.targetOf target?)))
  | arrives {walk} (takes : r.Takes (r.targetOf target?) (r.versionOf g) walk)
      (once : walk.Subperm r.hops) (stop : lead (r.versionOf g) walk = r.targetOf target?)
      (answer : r.migrate g target? = .ok (stamp (applyAll walk g) (r.targetOf target?)))

-- The walk is begun, since the target is none of the older versions, and it runs in a circle.
structure Endless (r : Registry) (g : Graph) (target? : Option String) : Prop where
  source  : r.versionOf g ∈ r.versions
  target  : r.targetOf target? ∈ r.versions
  newer   : r.versions.idxOf (r.versionOf g) ≤ r.versions.idxOf (r.targetOf target?)
  circles : r.Circles (r.targetOf target?) (r.versionOf g)

variable {g : Graph} {target? : Option String}

theorem rank?_of_not_mem (h : v ∉ r.versions) : r.rank? v = none :=
  List.findIdx?_eq_none_iff.mpr fun w hw => by simpa using ne_of_mem_of_not_mem hw h

theorem migrate_of_mem (hs : r.versionOf g ∈ r.versions) (ht : r.targetOf target? ∈ r.versions) :
    r.migrate g target? =
      if r.versions.idxOf (r.targetOf target?) < r.versions.idxOf (r.versionOf g)
      then .error (.noPath (r.versionOf g) (r.targetOf target?))
      else r.follow (r.targetOf target?) r.hops.length (r.versionOf g) g := by
  rw [versionOf] at hs
  rw [targetOf] at ht
  simp only [migrate, rank?_of_mem hs, rank?_of_mem ht, versionOf, targetOf]
  rfl

theorem Endless.exists_follow (h : r.Endless g target?) :
    ∃ v, r.migrate g target? = .error (.endless v (r.targetOf target?)) := by
  rw [migrate_of_mem h.source h.target, if_neg <| Nat.not_lt.mpr h.newer]
  obtain ⟨part, ht, hs, _⟩ | ⟨part, ht, hs, _⟩ | ⟨_, _, _, hv⟩ := follow_cases r _ _ _ g
  · exact absurd h.circles <| ht.not_circles (.inl hs)
  · exact absurd h.circles <| ht.not_circles (.inr hs)
  · exact hv

theorem Ends.not_endless (h : r.Ends g target?) : ¬r.Endless g target? := by
  intro he
  cases h
  case unsupported named unknown _ =>
    exact unknown <| named.elim (· ▸ he.target) (· ▸ he.source)
  case backwards older _           => exact Nat.not_le.mpr older he.newer
  case stuck takes _ stop _        => exact takes.not_circles (.inr stop) he.circles
  case arrives takes _ stop _      => exact takes.not_circles (.inl stop) he.circles

theorem ends_or_endless (r : Registry) (g : Graph) (target? : Option String) :
    r.Ends g target? ∨ r.Endless g target? := by
  by_cases ht : r.targetOf target? ∈ r.versions
  case neg =>
    have := rank?_of_not_mem ht
    rw [targetOf] at this
    exact .inl <| .unsupported (.inl rfl) ht (by simp only [migrate, this, targetOf])
  by_cases hs : r.versionOf g ∈ r.versions
  case neg =>
    have hr := rank?_of_not_mem hs
    rw [targetOf] at ht
    rw [versionOf] at hr
    exact .inl <| .unsupported (.inr rfl) hs (by simp only [migrate, rank?_of_mem ht, hr, versionOf])
  have answer := migrate_of_mem hs ht
  by_cases older : r.versions.idxOf (r.targetOf target?) < r.versions.idxOf (r.versionOf g)
  case pos => exact .inl <| .backwards older <| answer.trans (if_pos older)
  case neg =>
    rw [if_neg older] at answer
    have endless (hc : r.Circles (r.targetOf target?) (r.versionOf g)) : r.Endless g target? :=
      ⟨hs, ht, Nat.not_lt.mp older, hc⟩
    obtain ⟨part, hp, stop, h⟩ | ⟨part, hp, stop, h⟩ | ⟨part, hp, hl, _⟩ :=
      follow_cases r (r.targetOf target?) r.hops.length (r.versionOf g) g
    all_goals
      cases hp.subperm_or_circles
      case inr hc => exact .inr <| endless hc
    · exact .inl <| .arrives hp ‹_› stop <| answer.trans h
    · exact .inl <| .stuck hp ‹_› stop <| answer.trans h
    · have : part.length ≤ r.hops.length := List.Subperm.length_le ‹_›
      omega

-- Moving a graph ends, with each hop applied at most once, unless the walk runs in a circle. Then
-- there is no end to it. Hops that all lead to newer versions leave no room for a circle.
theorem ends_iff (r : Registry) (g : Graph) (target? : Option String) :
    (r.Ends g target? ↔ ¬r.Endless g target?) ∧
    (r.Endless g target? →
      (∃ v, r.migrate g target? = .error (.endless v (r.targetOf target?))) ∧
      ∀ n, ∃ part, part.length = n ∧ r.Takes (r.targetOf target?) (r.versionOf g) part) ∧
    ((∀ hop ∈ r.hops, r.versions.idxOf hop.source < r.versions.idxOf hop.target) →
      r.Ends g target?) := by
  have ends (h : ¬r.Endless g target?) : r.Ends g target? :=
    (ends_or_endless r g target?).resolve_right h
  refine ⟨⟨Ends.not_endless, ends⟩, ?endless, ?newer⟩
  case endless => exact fun h => ⟨h.exists_follow, h.circles.exists_takes⟩
  case newer   => exact fun hr => ends fun h => not_circles_of_lt hr h.circles

theorem ends_tagging :
    let r := register [tagging "1.1" "2.0", tagging "1.0" "1.1", tagging "1.0" "2.0"]
    (∀ hop ∈ r.hops, r.versions.idxOf hop.source < r.versions.idxOf hop.target) ∧
      r.Ends (stamp { name := "g" } "1.0") (some "2.0") := by
  intro r
  have newer : ∀ hop ∈ r.hops, r.versions.idxOf hop.source < r.versions.idxOf hop.target := by
    decide
  exact ⟨newer, (ends_iff r _ _).right.right newer⟩

-- A hop from a version to itself keeps a graph from the hop behind it.
theorem endless_self_hop :
    let hop (target : String) : Hop := { source := "1.0", target := target, apply := id }
    let r := register [hop "1.0", hop "2.0"]
    let g := stamp { name := "g" } "1.0"
    r.migrate g (some "2.0") = .error (.endless "1.0" "2.0") ∧ ¬r.Ends g (some "2.0") ∧
      ∀ n, ∃ part, part.length = n ∧ r.Takes "2.0" "1.0" part := by
  intro hop r g
  have circles : r.Circles "2.0" "1.0" :=
    ⟨[], [hop "1.0"], List.cons_ne_nil _ _, .cons (by decide) rfl .nil, rfl⟩
  have endless : r.Endless g (some "2.0") := ⟨by decide, by decide, by decide, circles⟩
  exact ⟨rfl, fun h => h.not_endless endless, circles.exists_takes⟩

end Registry

end SignalFlow
