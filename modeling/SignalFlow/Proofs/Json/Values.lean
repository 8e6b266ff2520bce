import Mathlib.Data.List.Induction
import SignalFlow.Json.Document
import SignalFlow.Proofs.Dict

/-!
Structured values as they come out of documents. The members of their objects are in order, and they
are no deeper than the documents are. A value of that kind makes a document that has it as its value
again.
-/

namespace SignalFlow

section MapM

variable {α β γ : Type} {f : α → Option β} {l : List α} {l' : List β}

theorem mapM_eq_some_iff : l.mapM f = some l' ↔ l.Forall₂ (fun a b => f a = some b) l' := by
  induction l generalizing l'
  case nil         => cases l' <;> simp
  case cons a l hi =>
    rw [List.mapM_cons]
    constructor
    case mp  =>
      intro h
      have ⟨b, hb, h⟩ := Option.bind_eq_some_iff.mp h
      have ⟨bs, hbs, h⟩ := Option.bind_eq_some_iff.mp h
      cases h
      exact .cons hb <| hi.mp hbs
    case mpr =>
      intro h
      cases h
      case cons b bs hb hbs => rw [hb, Option.bind_eq_bind, Option.bind_some, hi.mpr hbs]; rfl

theorem exists_of_mem_mapM (h : l.mapM f = some l') {b : β} (hb : b ∈ l') :
    ∃ a ∈ l, f a = some b := by
  rw [mapM_eq_some_iff] at h
  induction h
  case nil                   => cases hb
  case cons a b' _ _ hf _ hi =>
    cases hb
    case head    => exact ⟨a, .head _, hf⟩
    case tail hb =>
      have ⟨a, ha, hf⟩ := hi hb
      exact ⟨a, .tail _ ha, hf⟩

theorem exists_of_mapM_of_mem (h : l.mapM f = some l') {a : α} (ha : a ∈ l) : ∃ b, f a = some b := by
  rw [mapM_eq_some_iff] at h
  induction h
  case nil             => cases ha
  case cons b _ _ hf _ hi =>
    cases ha
    case head    => exact ⟨b, hf⟩
    case tail ha => exact hi ha

theorem exists_mapM (h : ∀ a ∈ l, ∃ b, f a = some b) : ∃ l', l.mapM f = some l' := by
  induction l
  case nil         => exact ⟨[], rfl⟩
  case cons a l hi =>
    have ⟨b, hb⟩ := h a (.head _)
    have ⟨bs, hbs⟩ := hi fun a ha => h a (.tail _ ha)
    exact ⟨b :: bs, by rw [List.mapM_cons, hb, hbs]; rfl⟩

theorem mapM_map_eq_some {f : β → Option γ} {g : α → β} {h : α → γ}
    (hf : ∀ a ∈ l, f (g a) = some (h a)) : (l.map g).mapM f = some (l.map h) := by
  rw [mapM_eq_some_iff, List.forall₂_map_left_iff, List.forall₂_map_right_iff]
  exact List.forall₂_same.mpr hf

end MapM

namespace Dict

variable {α : Type} {l : List (String × α)} {k : String} {v : α}

theorem insertEntry_of_lt (h : ∀ e ∈ l, e.1 < k) : insertEntry k v l = l ++ [(k, v)] := by
  induction l
  case nil         => rfl
  case cons e l hi =>
    have he := h e (.head _)
    have hne : k ≠ e.1 := fun hk => String.lt_irrefl _ (hk ▸ he)
    rw [insertEntry, if_neg (String.lt_asymm he), if_neg hne, hi fun e hm => h e (.tail _ hm)]
    rfl

-- Entries that are in order come to stand as they are.
theorem entries_ofList (h : l.Pairwise (·.1 < ·.1)) : (ofList l).entries = l := by
  induction l using List.reverseRecOn
  case nil                    => rfl
  case append_singleton l e hi =>
    have ⟨hl, _, he⟩ := List.pairwise_append.mp h
    rw [ofList, List.foldl_concat]
    change insertEntry e.1 e.2 (ofList l).entries = _
    rw [hi hl, insertEntry_of_lt fun a ha => he a ha e (.head _)]

theorem insertEntry_perm (h : k ∉ l.map Prod.fst) : (insertEntry k v l).Perm ((k, v) :: l) := by
  induction l
  case nil         => exact .refl _
  case cons e l hi =>
    have ⟨he, hl⟩ := not_or.mp <| mt List.mem_cons.mpr h
    rw [insertEntry, if_neg (c := k = e.1) he]
    split
    case isTrue  => exact .refl _
    case isFalse => exact (hi hl |>.cons e).trans <| .swap _ _ _

theorem entries_ofList_perm (h : (l.map Prod.fst).Nodup) : (ofList l).entries.Perm l := by
  induction l using List.reverseRecOn
  case nil                     => exact .refl _
  case append_singleton l e hi =>
    rw [List.map_append, List.nodup_append] at h
    have hp := hi h.left
    have he : e.1 ∉ (ofList l).entries.map Prod.fst := fun hm =>
      h.right.right _ ((hp.map _).mem_iff.mp hm) _ (.head _) rfl
    rw [ofList, List.foldl_concat]
    exact (insertEntry_perm he).trans <| (hp.cons e).trans <| List.perm_append_singleton .. |>.symm

-- The order of entries with different keys does not matter.
theorem ofList_of_perm {d : Dict α} (h : l.Perm d.entries) : ofList l = d :=
  have hn := (h.map Prod.fst).nodup_iff.mpr d.nodup_keys
  eq_of_perm <| (entries_ofList_perm hn).trans h

theorem mem_of_mem_entries_ofList {e : String × α} (h : e ∈ (ofList l).entries) : e ∈ l := by
  induction l using List.reverseRecOn
  case nil                    => cases h
  case append_singleton l a hi =>
    rw [ofList, List.foldl_concat] at h
    cases mem_insertEntry h
    case inl he => exact List.mem_append_right _ <| List.mem_singleton.mpr he
    case inr h  => exact List.mem_append_left _ <| hi h

end Dict

namespace Json

-- What holds of a value whenever it holds of its parts holds of every value.
@[elab_as_elim, induction_eliminator]
theorem induction {motive : Json → Prop} (null : motive .null) (bool : ∀ b, motive (.bool b))
    (num : ∀ n, motive (.num n)) (str : ∀ s, motive (.str s))
    (arr : ∀ items, (∀ j ∈ items, motive j) → motive (.arr items))
    (obj : ∀ members, (∀ m ∈ members, motive m.2) → motive (.obj members)) (j : Json) :
    motive j :=
  match j with
  | .null        => null
  | .bool b      => bool b
  | .num n       => num n
  | .str s       => str s
  | .arr items   => arr items fun j _ => induction null bool num str arr obj j
  | .obj members => obj members fun m _ => induction null bool num str arr obj m.2
termination_by sizeOf j
decreasing_by
  · have := List.sizeOf_lt_of_mem ‹_ ∈ items›
    simp
    omega
  · have := List.sizeOf_lt_of_mem ‹_ ∈ members›
    cases m
    simp at this ⊢
    omega

-- The members of every object within the value are in strictly increasing order of their names.
inductive Ordered : Json → Prop
  | null : Ordered .null
  | bool {b : Bool} : Ordered (.bool b)
  | num {n : Number} : Ordered (.num n)
  | str {s : String} : Ordered (.str s)
  | arr {items : List Json} (parts : ∀ j ∈ items, Ordered j) : Ordered (.arr items)
  | obj {members : List (String × Json)} (sorted : members.Pairwise (·.1 < ·.1))
      (parts : ∀ m ∈ members, Ordered m.2) :
    Ordered (.obj members)

-- There are no more lists and objects inside one another than there is room for.
inductive Within : Nat → Json → Prop
  | null {room : Nat} : Within room .null
  | bool {room : Nat} {b : Bool} : Within room (.bool b)
  | num {room : Nat} {n : Number} : Within room (.num n)
  | str {room : Nat} {s : String} : Within room (.str s)
  | arr {room : Nat} {items : List Json} (parts : ∀ j ∈ items, Within room j) :
    Within (room + 1) (.arr items)
  | obj {room : Nat} {members : List (String × Json)} (parts : ∀ m ∈ members, Within room m.2) :
    Within (room + 1) (.obj members)

section Scalars

variable {α : Type} {x : Float} {room : Nat}

theorem ordered_ofFloat : (ofFloat x).Ordered := by
  rw [ofFloat]
  split <;> constructor

theorem within_ofFloat : (ofFloat x).Within room := by
  rw [ofFloat]
  split <;> constructor

theorem holds_ofOption {motive : Json → Prop} {write : α → Json} {a? : Option α}
    (null : motive .null) (some : ∀ a, motive (write a)) : motive (ofOption write a?) := by
  cases a?
  case none   => exact null
  case some a => exact some a

end Scalars

-- The same value, but for the order of the members of an object.
def Shuffled : Json → Json → Prop
  | .obj members, .obj members' => members.Perm members'
  | j, j'                       => j = j'

theorem Shuffled.within {j j' : Json} {room : Nat} (h : j.Shuffled j') (hw : j.Within room) :
    j'.Within room := by
  cases j
  case obj members =>
    cases j'
    case obj members' =>
      cases hw with | obj parts =>
      exact .obj fun m hm => parts m <| List.Perm.mem_iff h |>.mpr hm
    all_goals cases h
  all_goals cases h; exact hw

end Json

namespace Document

-- The same of a document. What is unusable may be of any depth.
inductive Within : Nat → Document → Prop
  | null {room : Nat} : Within room .null
  | bool {room : Nat} {b : Bool} : Within room (.bool b)
  | num {room : Nat} {n : Number} : Within room (.num n)
  | str {room : Nat} {s : String} : Within room (.str s)
  | unusable {room : Nat} : Within room .unusable
  | arr {room : Nat} {items : List Document} (parts : ∀ d ∈ items, Within room d) :
    Within (room + 1) (.arr items)
  | obj {room : Nat} {members : List (Option String × Document)}
      (parts : ∀ m ∈ members, Within room m.2) :
    Within (room + 1) (.obj members)

theorem ofItems_eq (items : List Json) : ofItems items = items.map ofJson := by
  induction items
  case nil          => rfl
  case cons j l hi => rw [ofItems, hi]; rfl

theorem ofMembers_eq (members : List (String × Json)) :
    ofMembers members = members.map fun m => (some m.1, ofJson m.2) := by
  induction members
  case nil          => rfl
  case cons m l hi => rw [ofMembers, hi]; rfl

theorem items?_eq (items : List Document) : items? items = items.mapM json? := by
  induction items
  case nil          => rfl
  case cons d l hi => rw [items?, hi, List.mapM_cons]; rfl

-- A member, if it has a name and its contents can be read.
def pair? {α : Type} (read : Document → Option α) (m : Option String × Document) :
    Option (String × α) := do
  let name ← m.1
  let a ← read m.2
  some (name, a)

theorem pair?_eq_some_iff {α : Type} {read : Document → Option α} {m : Option String × Document}
    {e : String × α} : pair? read m = some e ↔ m.1 = some e.1 ∧ read m.2 = some e.2 := by
  have ⟨name?, d⟩ := m
  have ⟨name, a⟩ := e
  simp only [pair?, bind, Option.bind_eq_some_iff, Option.some.injEq, Prod.mk.injEq]
  constructor
  case mp  => rintro ⟨_, hn, _, ha, rfl, rfl⟩; exact ⟨hn, ha⟩
  case mpr => exact fun ⟨hn, ha⟩ => ⟨_, hn, _, ha, rfl, rfl⟩

theorem members?_eq (members : List (Option String × Document)) :
    members? members = members.mapM (pair? json?) := by
  induction members
  case nil         => rfl
  case cons m l hi =>
    rw [List.mapM_cons, ←hi]
    have ⟨name?, d⟩ := m
    cases name? <;> cases h : d.json? <;> simp [members?, pair?, h]

-- The value of an object has its members in order.
theorem json?_ofJson_obj {members : List (String × Json)}
    (h : ∀ m ∈ members, (ofJson m.2).json? = some m.2) :
    (ofJson (.obj members)).json? = some (.obj (Dict.ofList members).entries) := by
  have hm := mapM_map_eq_some (g := fun m : String × Json => (some m.1, ofJson m.2)) (h := id)
    fun m hm => pair?_eq_some_iff.mpr ⟨rfl, h m hm⟩
  rw [ofJson, ofMembers_eq, json?, members?_eq, hm, List.map_id, Option.map_some]

-- A value is that of the document that it makes.
theorem json?_ofJson {j : Json} (h : j.Ordered) : (ofJson j).json? = some j := by
  induction h
  case null | bool | num | str => rfl
  case arr items _ hi          =>
    have hm := mapM_map_eq_some (h := id) hi
    rw [ofJson, ofItems_eq, json?, items?_eq, hm, List.map_id, Option.map_some]
  case obj members hs _ hi     => rw [json?_ofJson_obj hi, Dict.entries_ofList hs]

-- The value of an object says the same as the object.
theorem exists_shuffled {members : List (String × Json)} (hn : (members.map Prod.fst).Nodup)
    (ho : ∀ m ∈ members, m.2.Ordered) :
    ∃ j, (ofJson (.obj members)).json? = some j ∧ (Json.obj members).Shuffled j :=
  ⟨_, json?_ofJson_obj fun m hm => json?_ofJson (ho m hm), (Dict.entries_ofList_perm hn).symm⟩

-- There is a value whatever the order of the members is.
theorem exists_json?_ofJson (j : Json) : ∃ v, (ofJson j).json? = some v := by
  induction j
  case null | bool | num | str => exact ⟨_, rfl⟩
  case arr items hi            =>
    have ⟨js, hjs⟩ := exists_mapM (List.forall_mem_map.mpr hi)
    exact ⟨.arr js, by rw [ofJson, ofItems_eq, json?, items?_eq, hjs, Option.map_some]⟩
  case obj members hi          =>
    have hm : ∀ m ∈ members.map fun m => (some m.1, ofJson m.2), ∃ e, pair? json? m = some e :=
      List.forall_mem_map.mpr fun m hm =>
        have ⟨v, hv⟩ := hi m hm
        ⟨(m.1, v), pair?_eq_some_iff.mpr ⟨rfl, hv⟩⟩
    have ⟨l, hl⟩ := exists_mapM hm
    exact ⟨.obj (Dict.ofList l).entries, by
      rw [ofJson, ofMembers_eq, json?, members?_eq, hl, Option.map_some]⟩

-- What holds of a document whenever it holds of its parts holds of every document.
@[elab_as_elim, induction_eliminator]
theorem induction {motive : Document → Prop} (null : motive .null) (bool : ∀ b, motive (.bool b))
    (num : ∀ n, motive (.num n)) (str : ∀ s, motive (.str s))
    (arr : ∀ items, (∀ d ∈ items, motive d) → motive (.arr items))
    (obj : ∀ members, (∀ m ∈ members, motive m.2) → motive (.obj members))
    (unusable : motive .unusable) (d : Document) : motive d :=
  match d with
  | .null        => null
  | .bool b      => bool b
  | .num n       => num n
  | .str s       => str s
  | .arr items   => arr items fun d _ => induction null bool num str arr obj unusable d
  | .obj members => obj members fun m _ => induction null bool num str arr obj unusable m.2
  | .unusable    => unusable
termination_by sizeOf d
decreasing_by
  · have := List.sizeOf_lt_of_mem ‹_ ∈ items›
    simp
    omega
  · have := List.sizeOf_lt_of_mem ‹_ ∈ members›
    cases m
    simp at this ⊢
    omega

theorem exists_member_of_mem_ofList {α : Type} {read : Document → Option α}
    {members : List (Option String × Document)} {l : List (String × α)}
    (h : members.mapM (pair? read) = some l) {e : String × α} (he : e ∈ (Dict.ofList l).entries) :
    ∃ m ∈ members, read m.2 = some e.2 := by
  have ⟨m, hm, hp⟩ := exists_of_mem_mapM h <| Dict.mem_of_mem_entries_ofList he
  exact ⟨m, hm, (pair?_eq_some_iff.mp hp).right⟩

-- The value of a document is in order.
theorem ordered_of_json? {d : Document} {j : Json} (h : d.json? = some j) : j.Ordered := by
  induction d generalizing j
  case null | bool | num | str => cases h; constructor
  case unusable                => cases h
  case arr items hi            =>
    rw [json?, items?_eq] at h
    have ⟨js, hjs, hj⟩ := Option.map_eq_some_iff.mp h
    cases hj
    refine .arr fun j hj => ?_
    have ⟨d, hd, hj⟩ := exists_of_mem_mapM hjs hj
    exact hi d hd hj
  case obj members hi          =>
    rw [json?, members?_eq] at h
    have ⟨l, hl, hj⟩ := Option.map_eq_some_iff.mp h
    cases hj
    refine .obj (Dict.ofList l).sorted fun e he => ?_
    have ⟨m, hm, he⟩ := exists_member_of_mem_ofList hl he
    exact hi m hm he

-- It is no deeper than the document.
theorem within_of_json? {d : Document} {j : Json} {room : Nat} (hw : d.Within room)
    (h : d.json? = some j) : j.Within room := by
  induction d generalizing j room
  case null | bool | num | str => cases h; constructor
  case unusable                => cases h
  case arr items hi            =>
    rw [json?, items?_eq] at h
    have ⟨js, hjs, hj⟩ := Option.map_eq_some_iff.mp h
    cases hj
    cases hw with | arr parts =>
    refine .arr fun j hj => ?_
    have ⟨d, hd, hj⟩ := exists_of_mem_mapM hjs hj
    exact hi d hd (parts d hd) hj
  case obj members hi          =>
    rw [json?, members?_eq] at h
    have ⟨l, hl, hj⟩ := Option.map_eq_some_iff.mp h
    cases hj
    cases hw with | obj parts =>
    refine .obj fun e he => ?_
    have ⟨m, hm, he⟩ := exists_member_of_mem_ofList hl he
    exact hi m hm (parts m hm) he

end Document

end SignalFlow
