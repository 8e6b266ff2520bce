import SignalFlow.Json.Fields
import SignalFlow.Proofs.Json.Integers
import SignalFlow.Proofs.Json.Values

/-!
Records, lists and maps as they are read from documents and written into values. What is read of one
of them was read from a part of the document, where there is room for one level less.
-/

namespace SignalFlow

namespace Document

variable {α : Type} {read : Document → Option α} {d : Document} {f : Fields} {name : String}
  {room : Nat}

section Parts

variable {known : List String}

theorem exists_of_mem_knownMembers {members : List (Option String × Document)}
    {given : List (String × Document)} (h : knownMembers known members = some given)
    {e : String × Document} (he : e ∈ given) : ∃ m ∈ members, m.2 = e.2 := by
  induction members generalizing given
  case nil              => cases h; cases he
  case cons m members hi =>
    have ⟨name?, d⟩ := m
    have ⟨name, _, h⟩ := Option.bind_eq_some_iff.mp h
    have ⟨others, ho, h⟩ := Option.bind_eq_some_iff.mp h
    have other (he : e ∈ others) : ∃ m ∈ (name?, d) :: members, m.2 = e.2 :=
      have ⟨m, hm, he⟩ := hi ho he
      ⟨m, .tail _ hm, he⟩
    split at h
    case isFalse => cases h; exact other he
    case isTrue  =>
      split at h
      case isTrue  => cases h
      case isFalse =>
        cases h
        cases he
        case head    => exact ⟨_, .head _, rfl⟩
        case tail he => exact other he

-- Of the members that belong to a record, each is found under its name.
theorem lookup_knownMembers {members : List (Option String × Document)}
    {given : List (String × Document)} (h : knownMembers known members = some given)
    (hn : name ∈ known) : given.lookup name = members.lookup (some name) := by
  induction members generalizing given
  case nil             => cases h; rfl
  case cons m members hi =>
    have ⟨name?, d⟩ := m
    obtain ⟨name', rfl, h⟩ := Option.bind_eq_some_iff.mp h
    obtain ⟨others, ho, h⟩ := Option.bind_eq_some_iff.mp h
    by_cases hk : name = name'
    case pos =>
      subst hk
      rw [if_pos hn] at h
      split at h <;> cases h
      simp
    case neg =>
      have hne : (name == name') = false := beq_false_of_ne hk
      have hl : List.lookup (some name) ((some name', d) :: members) = others.lookup name := by
        rw [hi ho]
        simp [List.lookup_cons, hne]
      rw [hl]
      split at h
      case isFalse => cases h; rfl
      case isTrue  => split at h <;> cases h; simp [List.lookup_cons, hne]

theorem lookup_ofMembers {members : List (String × Json)} :
    (ofMembers members).lookup (some name) = (members.lookup name).map ofJson := by
  induction members
  case nil               => rfl
  case cons m members hi =>
    have ⟨name', j⟩ := m
    by_cases hk : name = name'
    case pos => simp [ofMembers, hk]
    case neg => simp [ofMembers, List.lookup_cons, beq_false_of_ne hk, hi]

-- What a field of a record was read from is the member of that name.
theorem get?_of_fields? {members : List (String × Json)}
    (hf : (ofJson (.obj members)).fields? known = some f) (hn : name ∈ known) :
    f.get? name = (members.lookup name).map ofJson := by
  have ⟨given, hk, he⟩ := Option.map_eq_some_iff.mp hf
  cases he
  exact (lookup_knownMembers hk hn).trans lookup_ofMembers

variable (known) in
theorem exists_knownMembers {members : List (String × Json)}
    (hn : (members.map Prod.fst).Nodup) :
    ∃ given, knownMembers known (ofMembers members) = some given := by
  induction members
  case nil               => exact ⟨[], rfl⟩
  case cons m members hi =>
    have ⟨hm, hl⟩ := List.nodup_cons.mp hn
    have ⟨others, ho⟩ := hi hl
    by_cases hk : m.1 ∈ known
    case neg => exact ⟨others, by simp [ofMembers, knownMembers, ho, hk]⟩
    case pos =>
      have hno : others.lookup m.1 = none := by
        rw [lookup_knownMembers ho hk, lookup_ofMembers, Option.map_eq_none_iff]
        cases h : members.lookup m.1
        case none   => rfl
        case some j =>
          have hj := (Dict.mem_iff_lookup_of_nodup hl).mpr h
          exact absurd (List.mem_map.mpr ⟨_, hj, rfl⟩) hm
      exact ⟨(m.1, ofJson m.2) :: others, by simp [ofMembers, knownMembers, ho, hk, hno]⟩

variable (known) in
-- A record whose members have different names is read, in whatever order they are.
theorem exists_fields? {written members : List (String × Json)} (hp : written.Perm members)
    (hw : (written.map Prod.fst).Nodup) :
    ∃ f, (ofJson (.obj members)).fields? known = some f ∧
      ∀ m ∈ written, m.1 ∈ known → f.get? m.1 = some (ofJson m.2) := by
  have hn : (members.map Prod.fst).Nodup := (hp.map Prod.fst).nodup_iff.mp hw
  have ⟨given, hg⟩ := exists_knownMembers known hn
  have hf : (ofJson (.obj members)).fields? known = some ⟨true, given⟩ := by
    rw [ofJson, fields?, hg, Option.map_some]
  refine ⟨_, hf, fun m hm hk => ?_⟩
  rw [get?_of_fields? hf hk, (Dict.mem_iff_lookup_of_nodup hn).mp <| hp.mem_iff.mp hm,
    Option.map_some]

theorem within_of_get? (hw : d.Within (room + 1)) (h : d.fields? known = some f) {part : Document}
    (hg : f.get? name = some part) : part.Within room := by
  have hp : (name, part) ∈ f.given := by
    have ⟨_, _, he, _⟩ := List.lookup_eq_some_iff.mp hg
    rw [he]
    exact List.mem_append_right _ <| .head _
  cases d
  case obj members =>
    have ⟨given, hk, hf⟩ := Option.map_eq_some_iff.mp h
    cases hf
    have ⟨m, hm, (hd : m.2 = part)⟩ := exists_of_mem_knownMembers hk hp
    cases hw with | obj parts => exact hd ▸ parts m hm
  case arr items   =>
    rw [fields?] at h
    split at h
    case isFalse => cases h
    case isTrue  =>
      cases h
      cases hw with | arr parts => exact parts part (List.of_mem_zip hp).right
  all_goals cases h

theorem exists_of_withDefault {default a : α} (h : f.withDefault name default read = some a) :
    a = default ∨ f.required name read = some a := by
  rw [Fields.withDefault] at h
  split at h
  case h_1 hg => exact .inr <| by rw [Fields.required, hg, Option.bind_some, h]
  case h_2    => exact .inl (Option.some.inj h).symm

theorem isFinite_of_float? {x : Float} (h : d.float? = some x) : x.isFinite = true := by
  cases d
  case num n => cases h; exact n.isFinite_toFloat
  all_goals cases h

theorem exists_of_nullable {a? : Option α} (h : f.nullable name read = some a?) :
    ∀ a ∈ a?, ∃ part, read part = some a := by
  rintro a ⟨⟩
  rw [Fields.nullable] at h
  split at h
  case h_1 part _ =>
    rw [optional?.eq_def] at h
    split at h
    case h_1 => cases h
    case h_2 =>
      have ⟨_, hr, ha⟩ := Option.map_eq_some_iff.mp h
      cases ha
      exact ⟨part, hr⟩
  case h_2        => split at h <;> cases h

-- A field that is read is a part of the document.
theorem exists_of_required (hw : d.Within (room + 1)) (hf : d.fields? known = some f) {a : α}
    (h : f.required name read = some a) : ∃ part, part.Within room ∧ read part = some a :=
  have ⟨part, hg, hr⟩ := Option.bind_eq_some_iff.mp h
  ⟨part, within_of_get? hw hf hg, hr⟩

theorem exists_of_list? (hw : d.Within (room + 1)) {l : List α} (h : d.list? read = some l) {a : α}
    (ha : a ∈ l) : ∃ part, part.Within room ∧ read part = some a := by
  cases d
  case arr items =>
    have ⟨part, hp, hr⟩ := exists_of_mem_mapM h ha
    cases hw with | arr parts => exact ⟨part, parts part hp, hr⟩
  all_goals cases h

theorem exists_member_of_dict? {entries : Dict α} (h : d.dict? read = some entries)
    {e : String × α} (he : e ∈ entries.entries) :
    ∃ members, d = .obj members ∧ ∃ m ∈ members, read m.2 = some e.2 := by
  cases d
  case obj members =>
    have ⟨l, hl, hd⟩ := Option.map_eq_some_iff.mp h
    cases hd
    exact ⟨members, rfl, exists_member_of_mem_ofList hl he⟩
  all_goals cases h

theorem exists_of_dict? (hw : d.Within (room + 1)) {entries : Dict α}
    (h : d.dict? read = some entries) {e : String × α} (he : e ∈ entries.entries) :
    ∃ part, part.Within room ∧ read part = some e.2 := by
  have ⟨members, hd, m, hm, hr⟩ := exists_member_of_dict? h he
  cases hd
  cases hw with | obj parts => exact ⟨m.2, parts m hm, hr⟩

end Parts

-- What was written is read.

theorem float?_ofFloat {x : Float} (h : x.isFinite = true) :
    (ofJson (.ofFloat x)).float? = some x := by
  simp [Json.ofFloat, Number.ofFloat?, h, ofJson, float?, Number.toFloat]

theorem optional?_ofOption {a? : Option α} {write : α → Json} (hn : read .null = none)
    (h : ∀ a ∈ a?, read (ofJson (write a)) = some a) :
    optional? read (ofJson (.ofOption write a?)) = some a? := by
  cases a?
  case none   => rfl
  case some a =>
    have ha := h a rfl
    rw [Json.ofOption]
    cases hd : ofJson (write a) <;> rw [hd] at ha
    case null => rw [hn] at ha; cases ha
    all_goals rw [optional?, ha, Option.map_some]; simp

theorem required_of_get? {j : Json} {a : α} (hg : f.get? name = some (ofJson j))
    (hr : read (ofJson j) = some a) : f.required name read = some a := by
  rw [Fields.required, hg, Option.bind_some, hr]

theorem nullable_of_get? {a? : Option α} {write : α → Json}
    (hg : f.get? name = some (ofJson (.ofOption write a?))) (hn : read .null = none)
    (h : ∀ a ∈ a?, read (ofJson (write a)) = some a) : f.nullable name read = some a? := by
  rw [Fields.nullable, hg]
  exact optional?_ofOption hn h

theorem list?_ofJson {l : List α} {write : α → Json}
    (h : ∀ a ∈ l, read (ofJson (write a)) = some a) :
    list? read (ofJson (.arr (l.map write))) = some l := by
  have hm := mapM_map_eq_some (g := ofJson ∘ write) (h := id) h
  rw [ofJson, ofItems_eq, list?, List.map_map, hm, List.map_id]

theorem dict?_ofJson {entries : Dict α} {write : α → Json}
    (h : ∀ e ∈ entries.entries, read (ofJson (write e.2)) = some e.2) :
    dict? read (ofJson (.ofDict write entries)) = some entries := by
  have hm := mapM_map_eq_some (f := pair? read) (h := id)
    (g := fun e : String × α => (some e.1, ofJson (write e.2)))
    fun e he => pair?_eq_some_iff.mpr ⟨rfl, h e he⟩
  rw [List.map_id] at hm
  rw [Json.ofDict, ofJson, ofMembers_eq, List.map_map]
  change (List.mapM (pair? read) _).map Dict.ofList = _
  rw [show _ ∘ _ = fun e : String × α => (some e.1, ofJson (write e.2)) from rfl, hm,
    Option.map_some, Dict.ofList_of_perm (.refl _)]

end Document

end SignalFlow
