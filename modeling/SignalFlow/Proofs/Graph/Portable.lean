import SignalFlow.Graph.Portable
import SignalFlow.Proofs.Json.Fields
import SignalFlow.Proofs.Json.Integers
import SignalFlow.Proofs.Json.Reading

/-!
The portable form of graphs says all there is to a graph. Its value is read as the same graph, as
long as positions are finite and the values that are carried along are in order; every graph that
was read is of that kind, and no deeper than a text may be.
-/

namespace SignalFlow

open Document (ofJson)

def Position.Finite (p : Position) : Prop :=
  p.x.isFinite = true ∧ p.y.isFinite = true

-- The objects among the values of a map list their members in order.
def Dict.Ordered (d : Dict Json) : Prop :=
  ∀ e ∈ d.entries, e.2.Ordered

structure Node.Ordered (n : Node) : Prop where
  parameters : n.parameters.Ordered
  metadata   : n.metadata.Ordered

structure Graph.Ordered (g : Graph) : Prop where
  nodes    : ∀ n ∈ g.nodes, n.Ordered
  metadata : g.metadata.Ordered

-- The node, or the graph, can be told in a text with that much room, and its value tells all of it.
structure Node.Portable (room : Nat) (n : Node) : Prop where
  finite  : n.position.Finite
  ordered : n.Ordered
  within  : n.toJson.Within room

structure Graph.Portable (room : Nat) (g : Graph) : Prop where
  finite  : ∀ n ∈ g.nodes, n.position.Finite
  ordered : g.Ordered
  within  : g.toJson.Within room

section Writing

theorem Position.ofDocument?_toJson {p : Position} (h : p.Finite) :
    ofDocument? (ofJson p.toJson) = some p := by
  have hx : Json.ofFloat p.x = .num (.float p.x h.left) := by
    simp [Json.ofFloat, Number.ofFloat?, h.left]
  have hy : Json.ofFloat p.y = .num (.float p.y h.right) := by
    simp [Json.ofFloat, Number.ofFloat?, h.right]
  rw [toJson, hx, hy]
  rfl

theorem Edge.ofDocument?_toJson (e : Edge) : ofDocument? (ofJson e.toJson) = some e :=
  rfl

theorem Dict.ofDocument?_toJson {d : Dict Json} (h : d.Ordered) :
    (ofJson (.ofDict (fun j => j) d)).dict? Document.json? = some d :=
  Document.dict?_ofJson fun e he => Document.json?_ofJson (h e he)

theorem Node.ofDocument?_toJson {n : Node} (hf : n.position.Finite) (ho : n.Ordered) :
    ofDocument? (ofJson n.toJson) = some n := by
  have position := Position.ofDocument?_toJson hf
  have parameters := Dict.ofDocument?_toJson ho.parameters
  have metadata := Dict.ofDocument?_toJson ho.metadata
  change (do
    some {
      id := n.id
      nodeType := n.nodeType
      position := ← Position.ofDocument? (ofJson n.position.toJson)
      parameters := ← (ofJson (.ofDict (fun j => j) n.parameters)).dict? Document.json?
      metadata := ← (ofJson (.ofDict (fun j => j) n.metadata)).dict? Document.json? }) = some n
  rw [position, parameters, metadata]
  rfl

theorem Graph.ofJson?_toJson {g : Graph} (hf : ∀ n ∈ g.nodes, n.position.Finite) (ho : g.Ordered) :
    ofJson? g.toJson = some g := by
  have nodes := Document.list?_ofJson fun n hn => Node.ofDocument?_toJson (hf n hn) (ho.nodes n hn)
  have edges := Document.list?_ofJson fun e (_ : e ∈ g.edges) => e.ofDocument?_toJson
  have metadata := Dict.ofDocument?_toJson ho.metadata
  change (do
    some {
      name := g.name
      version := g.version
      description := g.description
      nodes := ← (ofJson (.arr (g.nodes.map Node.toJson))).list? Node.ofDocument?
      edges := ← (ofJson (.arr (g.edges.map Edge.toJson))).list? Edge.ofDocument?
      metadata := ← (ofJson (.ofDict (fun j => j) g.metadata)).dict? Document.json? }) = some g
  rw [nodes, edges, metadata]
  rfl

end Writing

section Reading

variable {d : Document} {room : Nat}

theorem Position.finite_of_ofDocument? {p : Position} (h : ofDocument? d = some p) : p.Finite := by
  have ⟨f, _, h⟩ := Option.bind_eq_some_iff.mp h
  have ⟨x, hx, h⟩ := Option.bind_eq_some_iff.mp h
  have ⟨y, hy, h⟩ := Option.bind_eq_some_iff.mp h
  have ⟨_, _, hx⟩ := Option.bind_eq_some_iff.mp hx
  have ⟨_, _, hy⟩ := Option.bind_eq_some_iff.mp hy
  cases h
  exact ⟨Document.isFinite_of_float? hx, Document.isFinite_of_float? hy⟩

-- What was read of a map is in order, and no deeper than there was room for it.
theorem Dict.ordered_within_of_withDefault {known : List String} {f : Document.Fields}
    {name : String} {m : Dict Json} (hw : d.Within (room + 2)) (hf : d.fields? known = some f)
    (h : f.withDefault name ∅ (Document.dict? Document.json?) = some m) :
    m.Ordered ∧ (Json.ofDict (fun j => j) m).Within (room + 1) := by
  have entry : ∀ e ∈ m.entries, e.2.Ordered ∧ e.2.Within room := by
    cases Document.exists_of_withDefault h
    case inl h => subst h; rintro _ ⟨⟩
    case inr h =>
      intro e he
      have ⟨_, hp, hr⟩ := Document.exists_of_required hw hf h
      have ⟨_, hv, h⟩ := Document.exists_of_dict? hp hr he
      exact ⟨Document.ordered_of_json? h, Document.within_of_json? hv h⟩
  refine ⟨fun e he => (entry e he).left, .obj fun e he => ?_⟩
  have ⟨e', he', h⟩ := List.mem_map.mp he
  exact h ▸ (entry e' he').right

theorem Position.within_toJson {p : Position} : p.toJson.Within (room + 1) :=
  .obj <| by simp [Json.within_ofFloat]

theorem Node.portable_of_ofDocument? {n : Node} (hw : d.Within (room + 3))
    (h : ofDocument? d = some n) : n.Portable (room + 3) := by
  have ⟨f, hf, h⟩ := Option.bind_eq_some_iff.mp h
  have ⟨id, _, h⟩ := Option.bind_eq_some_iff.mp h
  have ⟨nodeType, _, h⟩ := Option.bind_eq_some_iff.mp h
  have ⟨position, hp, h⟩ := Option.bind_eq_some_iff.mp h
  have ⟨parameters, hps, h⟩ := Option.bind_eq_some_iff.mp h
  have ⟨metadata, hm, h⟩ := Option.bind_eq_some_iff.mp h
  have ⟨_, _, hp⟩ := Option.bind_eq_some_iff.mp hp
  have ⟨parametersOrdered, parametersWithin⟩ := Dict.ordered_within_of_withDefault hw hf hps
  have ⟨metadataOrdered, metadataWithin⟩ := Dict.ordered_within_of_withDefault hw hf hm
  cases h
  refine ⟨Position.finite_of_ofDocument? hp, ⟨parametersOrdered, metadataOrdered⟩, .obj ?_⟩
  simp only [List.forall_mem_cons, List.not_mem_nil, false_implies, implies_true, and_true]
  exact ⟨.str, .str, Position.within_toJson, parametersWithin, metadataWithin⟩

theorem Edge.within_toJson (e : Edge) : e.toJson.Within (room + 1) :=
  .obj <| by simp [Json.Within.str]

theorem Graph.portable_of_ofDocument? {g : Graph} (hw : d.Within (room + 5))
    (h : ofDocument? d = some g) : g.Portable (room + 5) := by
  have ⟨f, hf, h⟩ := Option.bind_eq_some_iff.mp h
  have ⟨name, _, h⟩ := Option.bind_eq_some_iff.mp h
  have ⟨version, _, h⟩ := Option.bind_eq_some_iff.mp h
  have ⟨description, _, h⟩ := Option.bind_eq_some_iff.mp h
  have ⟨nodes, hn, h⟩ := Option.bind_eq_some_iff.mp h
  have ⟨edges, _, h⟩ := Option.bind_eq_some_iff.mp h
  have ⟨metadata, hm, h⟩ := Option.bind_eq_some_iff.mp h
  have ⟨metadataOrdered, metadataWithin⟩ := Dict.ordered_within_of_withDefault hw hf hm
  cases h
  have node : ∀ n ∈ nodes, n.Portable (room + 3) := by
    cases Document.exists_of_withDefault hn
    case inl h => subst h; rintro _ ⟨⟩
    case inr h =>
      intro n hm
      have ⟨_, hp, hr⟩ := Document.exists_of_required hw hf h
      have ⟨_, hd, h⟩ := Document.exists_of_list? hp hr hm
      exact Node.portable_of_ofDocument? hd h
  refine ⟨fun n hm => (node n hm).finite, ⟨fun n hm => (node n hm).ordered, metadataOrdered⟩, ?_⟩
  have nodesWithin : (Json.arr (nodes.map Node.toJson)).Within (room + 4) :=
    .arr <| List.forall_mem_map.mpr fun n hm => (node n hm).within
  have edgesWithin : (Json.arr (edges.map Edge.toJson)).Within (room + 4) :=
    .arr <| List.forall_mem_map.mpr fun e _ => e.within_toJson
  apply Json.Within.obj
  simp only [List.forall_mem_cons, List.not_mem_nil, false_implies, implies_true, and_true]
  exact ⟨.str, .str, .str, nodesWithin, edgesWithin, metadataWithin⟩

theorem Graph.parse?_text {g : Graph} (hf : ∀ n ∈ g.nodes, n.position.Finite) (ho : g.Ordered)
    (hw : g.toJson.Within Json.depthLimit) (hr : ∀ x ∈ g.toJson.floats, x.ReadsBack) :
    parse? g.text = some g := by
  rw [parse?, text, Document.parse?_pretty hw hr]
  exact ofJson?_toJson hf ho

-- The portable form loses nothing. A graph that was read from a text writes a text that is read as
-- the same graph, provided that the floats in it are read as they are written. The value of a graph
-- is read as the same graph whatever its floats are, and the same goes for the text of any graph
-- that is not too deep for a text.
theorem Graph.text_lossless :
    (∀ t g, parse? t = some g → (∀ x ∈ g.toJson.floats, x.ReadsBack) → parse? g.text = some g) ∧
    (∀ g, (∀ n ∈ g.nodes, n.position.Finite) → g.Ordered → ofJson? g.toJson = some g ∧
      (g.toJson.Within Json.depthLimit → (∀ x ∈ g.toJson.floats, x.ReadsBack) →
        parse? g.text = some g)) := by
  constructor
  case right => exact fun g hf ho => ⟨ofJson?_toJson hf ho, parse?_text hf ho⟩
  case left  =>
    intro t g h hr
    have ⟨d, hd, hg⟩ := Option.bind_eq_some_iff.mp h
    have hp := portable_of_ofDocument? (Document.within_of_parse? hd) hg
    exact parse?_text hp.finite hp.ordered hp.within hr

-- A node without the names of its fields, a member that nobody knows and that has no value, and
-- nothing about edges and all the rest.
def Graph.sketchText : String :=
  "\x7b\"hue\": 1e999, \"name\": \"g\", \"nodes\":
    [[\"a\", \"x\", [1, -0.0], \x7b\"k\": [0.1, \x7b\"\\u00e9\": null\x7d]\x7d]]\x7d"

def Graph.sketch : Graph where
  name  := "g"
  nodes := [{
    id         := "a"
    nodeType   := "x"
    position   := ⟨1, -0.0⟩
    parameters := .ofList [("k", .arr [.ofFloat 0.1, .obj [("é", .null)]])] }]

theorem Graph.parse?_sketchText : parse? sketchText = some sketch := by
  have tokens : Json.tokens? sketchText.toList = some
      [.openObject, .str (some "hue"), .colon, .num none, .comma,
        .str (some "name"), .colon, .str (some "g"), .comma,
        .str (some "nodes"), .colon, .openList, .openList, .str (some "a"), .comma,
          .str (some "x"), .comma,
          .openList, .num (Number.ofInt? 1), .comma, .num (Number.ofFloat? (-0.0)), .closeList,
            .comma,
          .openObject, .str (some "k"), .colon, .openList, .num (Number.ofFloat? 0.1), .comma,
            .openObject, .str (some "é"), .colon, .null, .closeObject, .closeList, .closeObject,
          .closeList, .closeList,
        .closeObject] := by decide +kernel
  rw [parse?, Document.parse?, tokens]
  rfl

theorem Graph.text_lossless_sketch :
    parse? sketchText = some sketch ∧ (∀ x ∈ sketch.toJson.floats, x.ReadsBack) ∧
    parse? sketch.text = some sketch ∧
    (∀ n ∈ sketch.nodes, n.position.Finite) ∧ sketch.Ordered ∧
    ofJson? sketch.toJson = some sketch ∧ sketch.toJson.Within Json.depthLimit := by
  have floats : ∀ x ∈ sketch.toJson.floats, x.ReadsBack := by decide +kernel
  have ⟨_, hd, hg⟩ := Option.bind_eq_some_iff.mp parse?_sketchText
  have ⟨finite, ordered, within⟩ := portable_of_ofDocument? (Document.within_of_parse? hd) hg
  exact ⟨parse?_sketchText, floats, text_lossless.left _ _ parse?_sketchText floats, finite,
    ordered, (text_lossless.right _ finite ordered).left, within⟩

end Reading

end SignalFlow
