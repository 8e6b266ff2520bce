import SignalFlow.Graph.Portable
import SignalFlow.Proofs.Json.Fields
import SignalFlow.Schema.Shape

/-!
Graphs that are read, against the shape that is asked of their portable form. The shape asks for
more than reading does: both lists have to be there, and the fields of nodes and edges have to stand
under their names. It asks for nothing else that reading does without.
-/

namespace SignalFlow

open Document (ofJson)

namespace Shape

-- The fields stand under their names.
def named (item : Json) : Bool :=
  item.members?.isSome

-- The list is there, and its items have names for their fields.
def Spelled (raw : Json) (field : String) : Prop :=
  ∃ items, raw.member? field = some (.arr items) ∧ ∀ item ∈ items, named item

-- The list is left out, or each of its items has names for its fields or is a list of them.
def Listed (raw : Json) (field : String) : Prop :=
  raw.member? field = none ∨ ∃ items, raw.member? field = some (.arr items) ∧
    ∀ item ∈ items, named item ∨ item.items?.isSome

-- What is missing if no more is asked for than lists and names.
def unspelled (raw : Json) : List Problem :=
  listProblems raw "nodes" (missingFields .node nodeFields fun item _ => named item)
    ++ listProblems raw "edges" (missingFields .edge edgeFields fun item _ => named item)

section Lists

variable {part : Part} {fields : List String} {has has' : Json → String → Bool} {items : List Json}

theorem missingFields_congr (h : ∀ item ∈ items, ∀ field ∈ fields, has item field = has' item field) :
    missingFields part fields has items = missingFields part fields has' items := by
  refine List.flatMap_congr fun (item, index) hi => congrArg _ <| List.filter_congr fun field hf => ?_
  rw [h item (List.fst_mem_of_mem_zipIdx hi) field hf]

theorem missingFields_eq_nil_iff : missingFields part fields has items = [] ↔
    ∀ item ∈ items, ∀ field ∈ fields, has item field := by
  have hi := List.forall_mem_map (l := items.zipIdx) (f := Prod.fst)
    (P := fun item => ∀ field ∈ fields, has item field)
  rw [List.zipIdx_map_fst] at hi
  rw [hi, missingFields, List.flatMap_eq_nil_iff]
  simp [List.filter_eq_nil_iff]

variable {α : Type} {read : Document → Option α} {known : List String} {f : Document.Fields}
  {members : List (String × Json)} {field : String} {l : List α}

-- A list that is read may not be there, though.
theorem exists_items_of_withDefault (hf : (ofJson (.obj members)).fields? known = some f)
    (hk : field ∈ known) (h : f.withDefault field [] (Document.list? read) = some l) :
    (Json.obj members).member? field = none ∨
      ∃ items, (Json.obj members).member? field = some (.arr items) ∧
        ∀ item ∈ items, ∃ a, read (ofJson item) = some a := by
  rw [Document.Fields.withDefault, Document.get?_of_fields? hf hk] at h
  change members.lookup field = none ∨ ∃ items, members.lookup field = some (.arr items) ∧ _
  cases hl : members.lookup field
  case none   => exact .inl rfl
  case some j =>
    rw [hl, Option.map_some] at h
    cases j
    case arr items =>
      rw [ofJson, Document.ofItems_eq] at h
      exact .inr ⟨items, rfl, fun item hi => exists_of_mapM_of_mem h <| List.mem_map_of_mem hi⟩
    all_goals cases h

-- Items that are read are not asked for anything but names.
theorem listProblems_eq_of_withDefault
    (hh : ∀ item a, read (ofJson item) = some a → ∀ field ∈ fields, has item field = named item)
    (hf : (ofJson (.obj members)).fields? known = some f) (hk : field ∈ known)
    (h : f.withDefault field [] (Document.list? read) = some l) :
    listProblems (.obj members) field (missingFields part fields has) =
      listProblems (.obj members) field (missingFields part fields fun item _ => named item) := by
  rcases exists_items_of_withDefault hf hk h with hn | ⟨items, hm, hr⟩
  · rw [listProblems, listProblems, hn]
    rfl
  · rw [listProblems, listProblems, hm]
    refine missingFields_congr fun item hi field hf => ?_
    obtain ⟨a, ha⟩ := hr item hi
    exact hh item a ha field hf

theorem named_or_of_fields? {item : Json} (h : (ofJson item).fields? known = some f) :
    named item ∨ item.items?.isSome := by
  cases item
  case obj => exact .inl rfl
  case arr => exact .inr rfl
  all_goals cases h

theorem listed_of_withDefault
    (hh : ∀ item a, read (ofJson item) = some a → named item ∨ item.items?.isSome)
    (hf : (ofJson (.obj members)).fields? known = some f) (hk : field ∈ known)
    (h : f.withDefault field [] (Document.list? read) = some l) : Listed (.obj members) field := by
  refine (exists_items_of_withDefault hf hk h).imp_right fun ⟨items, hm, hr⟩ => ?_
  refine ⟨items, hm, fun item hi => ?_⟩
  have ⟨a, ha⟩ := hr item hi
  exact hh item a ha

theorem listProblems_named_eq_nil_iff (hn : fields ≠ []) {raw : Json} :
    listProblems raw field (missingFields part fields fun item _ => named item) = [] ↔
      Spelled raw field := by
  have ⟨name, hname⟩ := List.exists_mem_of_ne_nil fields hn
  rw [listProblems, Spelled]
  split
  case h_1 items h =>
    have ⟨j, hj, he⟩ := Option.bind_eq_some_iff.mp h
    cases j <;> cases he
    rw [missingFields_eq_nil_iff, hj]
    constructor
    case mp  => exact fun h => ⟨items, rfl, fun item hi => h item hi name hname⟩
    case mpr =>
      rintro ⟨_, ⟨⟩, h⟩ item hi _ _
      exact h item hi
  case h_2 h =>
    refine ⟨nofun, fun ⟨items, hj, _⟩ => ?_⟩
    rw [hj] at h
    cases h

end Lists

section Records

variable {α : Type} {read : Document → Option α} {known : List String} {f : Document.Fields}
  {members : List (String × Json)} {name : String} {a : α}

-- Whatever a required field is read from is there under its name.
theorem exists_of_required (hf : (ofJson (.obj members)).fields? known = some f) (hk : name ∈ known)
    (h : f.required name read = some a) :
    ∃ j, (Json.obj members).member? name = some j ∧ read (ofJson j) = some a := by
  have ⟨_, hg, hr⟩ := Option.bind_eq_some_iff.mp h
  have ⟨j, hl, he⟩ := Option.map_eq_some_iff.mp <| Document.get?_of_fields? hf hk ▸ hg
  exact ⟨j, hl, he ▸ hr⟩

theorem hasText_of_required (hf : (ofJson (.obj members)).fields? known = some f)
    (hk : name ∈ known) {s : String} (h : f.required name Document.string? = some s) :
    hasText (.obj members) name ∧ hasValue (.obj members) name := by
  have ⟨j, hm, hr⟩ := exists_of_required hf hk h
  cases j <;> cases hr
  simp [hasText, hasValue, hm, Json.isString, Json.isNull]

theorem hasValue_position_of_required (hf : (ofJson (.obj members)).fields? known = some f)
    (hk : name ∈ known) {p : Position} (h : f.required name Position.ofDocument? = some p) :
    hasValue (.obj members) name := by
  have ⟨j, hm, hr⟩ := exists_of_required hf hk h
  cases j
  case null => cases hr
  all_goals simp [hasValue, hm, Json.isNull]

end Records

end Shape

theorem Node.hasValue_eq_named {item : Json} {n : Node} (h : ofDocument? (ofJson item) = some n) :
    ∀ field ∈ Shape.nodeFields, Shape.hasValue item field = Shape.named item := by
  intro field hf
  cases item
  case obj members =>
    have ⟨f, hk, h⟩ := Option.bind_eq_some_iff.mp h
    have ⟨id, hi, h⟩ := Option.bind_eq_some_iff.mp h
    have ⟨nodeType, ht, h⟩ := Option.bind_eq_some_iff.mp h
    have ⟨position, hp, h⟩ := Option.bind_eq_some_iff.mp h
    have id := (Shape.hasText_of_required hk (by decide) hi).right
    have nodeType := (Shape.hasText_of_required hk (by decide) ht).right
    have position := Shape.hasValue_position_of_required hk (by decide) hp
    simp only [Shape.nodeFields, List.mem_cons, List.not_mem_nil, or_false] at hf
    rcases hf with rfl | rfl | rfl
    · exact id
    · exact nodeType
    · exact position
  case arr => rfl
  all_goals cases h

theorem Edge.hasText_eq_named {item : Json} {e : Edge} (h : ofDocument? (ofJson item) = some e) :
    ∀ field ∈ Shape.edgeFields, Shape.hasText item field = Shape.named item := by
  intro field hf
  cases item
  case obj members =>
    have ⟨f, hk, h⟩ := Option.bind_eq_some_iff.mp h
    have ⟨_, sourceNode, h⟩ := Option.bind_eq_some_iff.mp h
    have ⟨_, sourcePort, h⟩ := Option.bind_eq_some_iff.mp h
    have ⟨_, targetNode, h⟩ := Option.bind_eq_some_iff.mp h
    have ⟨_, targetPort, _⟩ := Option.bind_eq_some_iff.mp h
    simp only [Shape.edgeFields, List.mem_cons, List.not_mem_nil, or_false] at hf
    rcases hf with rfl | rfl | rfl | rfl
    · exact (Shape.hasText_of_required hk (by decide) sourceNode).left
    · exact (Shape.hasText_of_required hk (by decide) sourcePort).left
    · exact (Shape.hasText_of_required hk (by decide) targetNode).left
    · exact (Shape.hasText_of_required hk (by decide) targetPort).left
  case arr => rfl
  all_goals cases h

namespace Graph

variable {g : Graph} {members : List (String × Json)}

theorem exists_fields_of_ofJson? (h : ofJson? (.obj members) = some g) : ∃ known f,
    (ofJson (.obj members)).fields? known = some f ∧ "nodes" ∈ known ∧ "edges" ∈ known ∧
      f.withDefault "nodes" [] (Document.list? Node.ofDocument?) = some g.nodes ∧
      f.withDefault "edges" [] (Document.list? Edge.ofDocument?) = some g.edges := by
  have ⟨f, hf, h⟩ := Option.bind_eq_some_iff.mp h
  have ⟨name, _, h⟩ := Option.bind_eq_some_iff.mp h
  have ⟨version, _, h⟩ := Option.bind_eq_some_iff.mp h
  have ⟨description, _, h⟩ := Option.bind_eq_some_iff.mp h
  have ⟨nodes, hn, h⟩ := Option.bind_eq_some_iff.mp h
  have ⟨edges, he, h⟩ := Option.bind_eq_some_iff.mp h
  have ⟨metadata, _, h⟩ := Option.bind_eq_some_iff.mp h
  cases h
  exact ⟨_, f, hf, by decide, by decide, hn, he⟩

-- Of a graph that is read, nothing is found missing but lists and names.
theorem problems_eq_unspelled (h : ofJson? (.obj members) = some g) :
    Shape.problems (.obj members) = Shape.unspelled (.obj members) := by
  have ⟨known, f, hf, nodes, edges, hn, he⟩ := exists_fields_of_ofJson? h
  rw [Shape.problems, Shape.unspelled,
    Shape.listProblems_eq_of_withDefault (fun _ _ => Node.hasValue_eq_named) hf nodes hn,
    Shape.listProblems_eq_of_withDefault (fun _ _ => Edge.hasText_eq_named) hf edges he]

theorem listed_of_ofJson? (h : ofJson? (.obj members) = some g) :
    Shape.Listed (.obj members) "nodes" ∧ Shape.Listed (.obj members) "edges" := by
  have ⟨known, f, hf, nodes, edges, hn, he⟩ := exists_fields_of_ofJson? h
  refine ⟨Shape.listed_of_withDefault (fun item n h => ?_) hf nodes hn,
    Shape.listed_of_withDefault (fun item e h => ?_) hf edges he⟩
  all_goals
    have ⟨_, hf, _⟩ := Option.bind_eq_some_iff.mp h
    exact Shape.named_or_of_fields? hf

-- The graph with nothing but a name is read, and does not have the shape.
theorem problems_bare :
    ofJson? (.obj [("name", .str "g")]) = some { name := "g" } ∧
    Shape.problems (.obj [("name", .str "g")]) = [.notAList "nodes", .notAList "edges"] :=
  ⟨rfl, rfl⟩

-- Lists of a graph that is read may be left out, and its nodes and edges may be lists of their fields.
-- The graph has the shape exactly if both lists are there and its nodes and edges are written with
-- the names of their fields, and this is all that is found missing otherwise.
theorem problems_of_ofJson? (h : ofJson? (.obj members) = some g) :
    (Shape.Listed (.obj members) "nodes" ∧ Shape.Listed (.obj members) "edges") ∧
    Shape.problems (.obj members) = Shape.unspelled (.obj members) ∧
    (Shape.problems (.obj members) = [] ↔
      Shape.Spelled (.obj members) "nodes" ∧ Shape.Spelled (.obj members) "edges") := by
  have hu := problems_eq_unspelled h
  refine ⟨listed_of_ofJson? h, hu, ?_⟩
  rw [hu, Shape.unspelled, List.append_eq_nil_iff]
  exact and_congr (Shape.listProblems_named_eq_nil_iff (by decide))
    (Shape.listProblems_named_eq_nil_iff (by decide))

-- The fields of one node stand under their names, those of the other one and of the edge do not.
def mixed : List (String × Json) :=
  [("name", .str "g"),
    ("nodes", .arr [
      .obj [("position", .arr [.ofInt 0, .ofInt 0]), ("node_type", .str "or_gate"), ("id", .str "a")],
      .arr [.str "b", .str "or_gate", .obj [("x", .ofInt 0), ("y", .ofInt 0)]]]),
    ("edges", .arr [.arr [.str "a", .str "result", .str "b", .str "inputs"]])]

theorem problems_mixed :
    (∃ g, ofJson? (.obj mixed) = some g ∧ g.nodes.map Node.id = ["a", "b"]) ∧
    Shape.problems (.obj mixed) =
      Shape.nodeFields.map (.missing .node 1) ++ Shape.edgeFields.map (.missing .edge 0) ∧
    ¬(Shape.Spelled (.obj mixed) "nodes" ∧ Shape.Spelled (.obj mixed) "edges") := by
  have ⟨g, hg⟩ : ∃ g, ofJson? (.obj mixed) = some g := ⟨_, rfl⟩
  have ⟨_, hu, hs⟩ := problems_of_ofJson? hg
  exact ⟨⟨_, rfl, rfl⟩, hu.trans rfl, mt hs.mpr <| hu ▸ by decide⟩

end Graph

end SignalFlow
