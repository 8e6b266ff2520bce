import SignalFlow.Proofs.Schema.Circles
import SignalFlow.Proofs.Schema.Hydration

/-!
The form in which a graph is compiled: it tells the current version, and it gives every parameter
for which its kinds have a default. A graph gets there in one go, and then it is not changed any more.
-/

namespace SignalFlow

namespace Parameter

variable {p : Parameter} {values : Dict Json}

-- The parameter is given, or there is nothing to fill in.
def Settled (p : Parameter) (values : Dict Json) : Prop :=
  p.default.isSome → values.Gives p.name

theorem hydrate_of_settled (h : p.Settled values) : p.hydrate values = values := by
  apply Dict.ext_get?
  intro k
  rw [get?_hydrate]
  split
  case isFalse   => rfl
  case isTrue hk =>
    cases hd : p.default
    case none   => rw [hk, filled_of_default_eq_none hd]
    case some _ => rw [hk, filled_of_gives <| h <| hd ▸ rfl]

end Parameter

theorem Catalog.default_ne_null : ∀ d ∈ all, ∀ p ∈ d.parameters, ∀ v ∈ p.default, v ≠ .null :=
  fun d hd p hp v hv hn => Parameter.not_admits_null <| hn ▸ admits_default d hd p hp v hv

namespace Definition

variable {d : Definition} {values : Dict Json}

theorem hydrate_of_settled (h : ∀ p ∈ d.parameters, p.Settled values) :
    d.hydrate values = values := by
  unfold hydrate
  generalize d.parameters = parameters at h
  induction parameters
  case nil          => rfl
  case cons p ps hi =>
    have ⟨hp, hps⟩ := List.forall_mem_cons.mp h
    rw [List.foldl_cons, Parameter.hydrate_of_settled hp, hi hps]

-- A default is a value.
theorem settled_hydrate (hd : d ∈ Catalog.all) :
    ∀ p ∈ d.parameters, p.Settled (d.hydrate values) := by
  intro p hp hs
  have ⟨v, hv⟩ := Option.isSome_iff_exists.mp hs
  rw [Dict.Gives, get?_hydrate hd hp]
  by_cases hg : values.Gives p.name
  case pos => exact Parameter.filled_of_gives hg ▸ hg
  case neg => exact ⟨v, Parameter.filled_of_not_gives hg hv, Catalog.default_ne_null d hd p hp v hv⟩

end Definition

namespace Node

variable {n m : Node} {d : Definition} {name : String} {v : Json}

theorem hydrate_of_settled (h : ∀ d, n.Declared d → ∀ p ∈ d.parameters, p.Settled n.parameters) :
    n.hydrate = n := by
  unfold hydrate
  split
  case h_1      => rfl
  case h_2 d hd => rw [Definition.hydrate_of_settled <| h d <| declared_iff.mpr hd]

theorem hydrate_hydrate : n.hydrate.hydrate = n.hydrate := by
  apply hydrate_of_settled
  intro d hd
  have hd : n.Declared d := by simpa [Declared] using hd
  exact hd.hydrate_parameters ▸ Definition.settled_hydrate hd.left

-- The kind of the node has that default for the parameter of that name.
def Defaults (n : Node) (name : String) (v : Json) : Prop :=
  ∃ d, n.Declared d ∧ ∃ p ∈ d.parameters, p.name = name ∧ p.default = some v

-- What a node is turned into when its defaults are filled in: it is the node itself with a default
-- for each parameter that has one and is not given.
structure Filled (n m : Node) : Prop where
  rest   : m = { n with parameters := m.parameters }
  given  : ∀ name, n.parameters.Gives name →
    m.parameters.get? name = n.parameters.get? name
  filled : ∀ name v, n.Defaults name v → ¬n.parameters.Gives name →
    m.parameters.get? name = some v
  others : ∀ name, (∀ v, ¬n.Defaults name v) →
    m.parameters.get? name = n.parameters.get? name

-- Nothing happens under a name if what is declared under that name is not filled in.
theorem get?_hydrate_of_filled (h : ∀ d, n.Declared d → ∀ p ∈ d.parameters, p.name = name →
    p.filled n.parameters = n.parameters.get? p.name) :
    n.hydrate.parameters.get? name = n.parameters.get? name := by
  by_cases hk : ∃ d, n.Declared d
  case neg => rw [hydrate_of_settled fun d hd => absurd ⟨d, hd⟩ hk]
  case pos =>
    have ⟨d, hd⟩ := hk
    by_cases hn : name ∈ d.parameters.map Parameter.name
    case neg => exact hd.get?_hydrate_of_not_mem hn
    case pos =>
      obtain ⟨p, hp, rfl⟩ := List.mem_map.mp hn
      rw [hd.get?_hydrate hp, h d hd p hp rfl]

theorem filled_hydrate (n : Node) : n.Filled n.hydrate := by
  constructor
  case rest   =>
    unfold hydrate
    split <;> rfl
  case given  =>
    intro name hg
    apply get?_hydrate_of_filled
    intro d hd p hp hn
    exact Parameter.filled_of_gives <| hn ▸ hg
  case filled =>
    intro name v ⟨d, hd, p, hp, hn, hv⟩ hg
    rw [←hn] at hg ⊢
    rw [hd.get?_hydrate hp, Parameter.filled_of_not_gives hg hv]
  case others =>
    intro name ho
    apply get?_hydrate_of_filled
    intro d hd p hp hn
    apply Parameter.filled_of_default_eq_none
    exact Option.eq_none_iff_forall_ne_some.mpr fun v hv => ho v ⟨d, hd, p, hp, hn, hv⟩

end Node

namespace Graph

-- The same for each node of a graph, and for nothing else of it.
structure Filled (g m : Graph) : Prop where
  rest  : m = { g with nodes := m.nodes }
  nodes : List.Forall₂ Node.Filled g.nodes m.nodes

theorem filled_hydrate (g : Graph) : g.Filled g.hydrate where
  rest  := rfl
  nodes := List.forall₂_map_right_iff.mpr <| List.forall₂_same.mpr fun n _ => n.filled_hydrate

theorem hydrate_hydrate (g : Graph) : g.hydrate.hydrate = g.hydrate := by
  have hn : Node.hydrate ∘ Node.hydrate = Node.hydrate := funext fun _ => Node.hydrate_hydrate
  rw [hydrate, hydrate_nodes, List.map_map, hn]
  rfl

end Graph

namespace Registry

variable {r : Registry} {g m : Graph} {target? : Option String} {v : String}

theorem stamp_of_schemaVersion? (h : g.schemaVersion? = some v) : stamp g v = g := by
  rw [stamp, Dict.insert_of_get? <| Graph.schemaVersion?_eq_some_iff.mp h]

-- Wherever a graph is moved from, it gets to a version that is known, and tells so.
theorem schemaVersion?_of_migrate (h : r.migrate g target? = .ok m) :
    m.schemaVersion? = some (r.targetOf target?) ∧ r.targetOf target? ∈ r.versions := by
  have known : r.targetOf target? ∈ r.versions := by
    by_contra hn
    have hr := rank?_of_not_mem hn
    rw [targetOf] at hr
    simp [migrate, hr] at h
  refine ⟨?_, known⟩
  cases ends_or_endless r g target?
  case inr he =>
    obtain ⟨_, he⟩ := he.exists_follow
    cases h.symm.trans he
  case inl he =>
    cases he
    case arrives answer =>
      cases h.symm.trans answer
      exact schemaVersion?_stamp
    all_goals
      cases h.symm.trans ‹_ = Except.error _›

-- At the current version there is nowhere to go.
theorem migrate_of_current (h : g.schemaVersion? = some r.currentVersion)
    (hm : r.currentVersion ∈ r.versions) : r.migrate g none = .ok g := by
  have hv : r.versionOf g = r.currentVersion := by rw [versionOf, h, Option.getD_some]
  have ht : r.targetOf none = r.currentVersion := rfl
  rw [migrate_of_mem (hv ▸ hm) (ht ▸ hm), hv, ht, if_neg (Nat.lt_irrefl _), follow, if_pos rfl,
    stamp_of_schemaVersion? h]

theorem migrate_hydrate (h : r.migrate g none = .ok m) :
    r.migrate m.hydrate none = .ok m.hydrate :=
  have ⟨hv, hm⟩ := schemaVersion?_of_migrate h
  migrate_of_current (g := m.hydrate) hv hm

end Registry

-- What is filled in is filled in once and for all, and nothing else is changed. Whatever a registry
-- makes of the graph before that, it makes nothing else of it afterwards.
structure Graph.Settles (g : Graph) : Prop where
  once   : g.hydrate.hydrate = g.hydrate
  filled : g.Filled g.hydrate
  moved  : ∀ r m, Registry.migrate r g none = .ok m →
    r.migrate m.hydrate none = .ok m.hydrate ∧ m.hydrate.hydrate = m.hydrate

theorem Graph.settles (g : Graph) : g.Settles where
  once   := g.hydrate_hydrate
  filled := g.filled_hydrate
  moved  := fun _ m h => ⟨Registry.migrate_hydrate h, m.hydrate_hydrate⟩

-- A parameter that is set to null, on a graph that a hop is registered for.
example :
    let r := Registry.register [Registry.tagging "1.0" "1.1"]
    let buy : Node :=
      { id := "buy", nodeType := "buy_signal", parameters := Dict.ofList [("confidence", .null)] }
    ∃ m, r.migrate (Registry.stamp { name := "g", nodes := [buy] } "1.0") none = .ok m ∧
      m.hydrate.schemaVersion? = some "1.1" ∧
      m.hydrate.nodes.map (·.parameters.get? "confidence") = [Catalog.confidence.default] :=
  ⟨_, rfl, rfl, rfl⟩

end SignalFlow
