/-!
Finite maps whose keys are text. The entries stand in strictly increasing order of their keys, so
maps with equal contents are equal and a listing is sorted from the start.
-/

namespace SignalFlow

structure Dict (α : Type) where
  entries : List (String × α)
  sorted : entries.Pairwise (fun a b => a.1 < b.1)

namespace Dict

variable {α β : Type}

theorem ext_entries {d e : Dict α} (h : d.entries = e.entries) : d = e := by
  cases d; cases e; cases h; rfl

instance [DecidableEq α] : DecidableEq (Dict α) := fun d e =>
  decidable_of_iff (d.entries = e.entries) ⟨ext_entries, fun h => h ▸ rfl⟩

instance [BEq α] : BEq (Dict α) := ⟨fun d e => d.entries == e.entries⟩

def empty : Dict α := ⟨[], .nil⟩

instance : EmptyCollection (Dict α) := ⟨empty⟩

instance : Inhabited (Dict α) := ⟨empty⟩

def get? (d : Dict α) (key : String) : Option α :=
  d.entries.lookup key

def contains (d : Dict α) (key : String) : Bool :=
  (d.get? key).isSome

def keys (d : Dict α) : List String :=
  d.entries.map Prod.fst

def values (d : Dict α) : List α :=
  d.entries.map Prod.snd

def isEmpty (d : Dict α) : Bool :=
  d.entries.isEmpty

def size (d : Dict α) : Nat :=
  d.entries.length

-- The two functions below keep a list of entries sorted; `insert` and `erase` carry the proof.

def insertEntry (key : String) (value : α) : List (String × α) → List (String × α)
  | [] => [(key, value)]
  | e :: rest =>
    if key < e.1 then (key, value) :: e :: rest
    else if key = e.1 then (key, value) :: rest
    else e :: insertEntry key value rest

def eraseEntry (key : String) : List (String × α) → List (String × α)
  | [] => []
  | e :: rest => if key = e.1 then rest else e :: eraseEntry key rest

theorem mem_insertEntry {key : String} {value : α} {e : String × α} {l : List (String × α)}
    (h : e ∈ insertEntry key value l) : e = (key, value) ∨ e ∈ l := by
  induction l
  case nil            => exact .inl <| List.mem_singleton.mp h
  case cons a rest hi =>
    rw [insertEntry] at h
    split at h
    case isTrue  => exact List.mem_cons.mp h
    case isFalse =>
      split at h
      case isTrue  => exact (List.mem_cons.mp h).imp_right (.tail _)
      case isFalse =>
        cases h
        case head   => exact .inr <| .head _
        case tail h => exact (hi h).imp_right (.tail _)

theorem lt_of_not_lt_of_ne {a b : String} (h : ¬a < b) (hne : a ≠ b) : b < a :=
  Decidable.not_not.mp fun hb =>
    hne <| String.le_antisymm (String.not_lt.mp hb) (String.not_lt.mp h)

theorem sorted_insertEntry (key : String) (value : α) {l : List (String × α)}
    (h : l.Pairwise (fun a b => a.1 < b.1)) :
    (insertEntry key value l).Pairwise (fun a b => a.1 < b.1) := by
  induction l
  case nil            => exact List.pairwise_singleton ..
  case cons a rest hi =>
    have ⟨ha, hrest⟩ := List.pairwise_cons.mp h
    rw [insertEntry]
    split
    case isTrue hlt =>
      refine List.pairwise_cons.mpr ⟨fun b hb => ?_, h⟩
      cases hb
      case head    => exact hlt
      case tail hb => exact String.lt_trans hlt (ha b hb)
    case isFalse hn =>
      split
      case isTrue heq  => exact List.pairwise_cons.mpr ⟨fun b hb => heq ▸ ha b hb, hrest⟩
      case isFalse hne =>
        refine List.pairwise_cons.mpr ⟨fun b hb => ?_, hi hrest⟩
        cases mem_insertEntry hb
        case inl hb => exact hb ▸ lt_of_not_lt_of_ne hn hne
        case inr hb => exact ha b hb

theorem eraseEntry_sublist (key : String) (l : List (String × α)) :
    (eraseEntry key l).Sublist l := by
  induction l
  case nil            => exact .slnil
  case cons a rest hi =>
    rw [eraseEntry]
    split
    case isTrue  => exact List.sublist_cons_self ..
    case isFalse => exact hi.cons_cons _

def insert (d : Dict α) (key : String) (value : α) : Dict α :=
  ⟨insertEntry key value d.entries, sorted_insertEntry key value d.sorted⟩

def erase (d : Dict α) (key : String) : Dict α :=
  ⟨eraseEntry key d.entries, d.sorted.sublist (eraseEntry_sublist key d.entries)⟩

-- Of entries with one key the last stays.
def ofList (entries : List (String × α)) : Dict α :=
  entries.foldl (fun d e => d.insert e.1 e.2) empty

def map (f : α → β) (d : Dict α) : Dict β :=
  ⟨d.entries.map (fun e => (e.1, f e.2)), by
    simpa [List.pairwise_map] using d.sorted⟩

def filterMap (f : String → α → Option β) (d : Dict α) : Dict β :=
  ⟨d.entries.filterMap (fun e => (f e.1 e.2).map (e.1, ·)), by
    rw [List.pairwise_filterMap]
    refine d.sorted.imp fun {a b} hab x hx y hy => ?_
    have ⟨_, _, hx⟩ := Option.map_eq_some_iff.mp hx
    have ⟨_, _, hy⟩ := Option.map_eq_some_iff.mp hy
    exact hx ▸ hy ▸ hab⟩

def modify (d : Dict α) (key : String) (f : α → α) : Dict α :=
  ⟨d.entries.map (fun e => (e.1, if e.1 = key then f e.2 else e.2)), by
    simpa [List.pairwise_map] using d.sorted⟩

-- What each operation does to the view `get?`.

@[simp] theorem get?_empty (key : String) : (empty : Dict α).get? key = none := rfl

theorem lookup_cons_ite (a : String × α) (rest : List (String × α)) (key : String) :
    (a :: rest).lookup key = if key = a.1 then some a.2 else rest.lookup key := by
  have ⟨k, v⟩ := a
  by_cases h : key = k
  case pos => simp [h]
  case neg => simp [List.lookup_cons, h, beq_false_of_ne h]

theorem lookup_insertEntry (key : String) (value : α) (l : List (String × α)) (k : String) :
    (insertEntry key value l).lookup k = if k = key then some value else l.lookup k := by
  induction l
  case nil            => exact lookup_cons_ite ..
  case cons a rest hi =>
    rw [insertEntry]
    split
    case isTrue  => exact lookup_cons_ite ..
    case isFalse =>
      split
      case isTrue heq  =>
        rw [lookup_cons_ite, lookup_cons_ite, heq]
        split <;> rfl
      case isFalse hne =>
        rw [lookup_cons_ite, lookup_cons_ite, hi]
        by_cases h : k = a.1
        case neg => rw [if_neg h, if_neg h]
        case pos =>
          have hk : k ≠ key := fun hk => hne (hk ▸ h)
          rw [if_pos h, if_pos h, if_neg hk]

@[simp] theorem get?_insert (d : Dict α) (key : String) (value : α) (k : String) :
    (d.insert key value).get? k = if k = key then some value else d.get? k :=
  lookup_insertEntry key value d.entries k

theorem lookup_eq_none_of_lt {l : List (String × α)} {key : String}
    (h : ∀ e ∈ l, key < e.1) : l.lookup key = none := by
  induction l
  case nil            => rfl
  case cons a rest hi =>
    have hne : key ≠ a.1 := fun he => String.lt_irrefl key <| he ▸ h a (.head _)
    rw [lookup_cons_ite, if_neg hne, hi fun e he => h e (.tail _ he)]

@[simp] theorem get?_erase (d : Dict α) (key k : String) :
    (d.erase key).get? k = if k = key then none else d.get? k := by
  have ⟨l, hl⟩ := d
  change (eraseEntry key l).lookup k = if k = key then none else l.lookup k
  clear d
  induction l
  case nil            => exact (ite_self _).symm
  case cons a rest hi =>
    have ⟨ha, hrest⟩ := List.pairwise_cons.mp hl
    rw [eraseEntry, lookup_cons_ite]
    split
    case isTrue heq  =>
      by_cases h : k = key
      case pos => rw [if_pos h, h, lookup_eq_none_of_lt (heq ▸ ha)]
      case neg => rw [if_neg h, if_neg (heq ▸ h)]
    case isFalse hne =>
      rw [lookup_cons_ite, hi hrest]
      by_cases h : k = a.1
      case neg => rw [if_neg h, if_neg h]
      case pos =>
        have hk : k ≠ key := fun hk => hne (hk ▸ h)
        rw [if_pos h, if_pos h, if_neg hk]

theorem lookup_map_values (f : String → α → β) (l : List (String × α)) (key : String) :
    (l.map (fun e => (e.1, f e.1 e.2))).lookup key = (l.lookup key).map (f key) := by
  induction l
  case nil            => rfl
  case cons a rest hi =>
    rw [List.map_cons, lookup_cons_ite, lookup_cons_ite, hi]
    by_cases h : key = a.1
    case pos => rw [if_pos h, if_pos h, Option.map_some, h]
    case neg => rw [if_neg h, if_neg h]

@[simp] theorem get?_map (f : α → β) (d : Dict α) (key : String) :
    (d.map f).get? key = (d.get? key).map f :=
  lookup_map_values (fun _ => f) d.entries key

@[simp] theorem get?_modify (d : Dict α) (key : String) (f : α → α) (k : String) :
    (d.modify key f).get? k = (d.get? k).map (fun v => if k = key then f v else v) :=
  lookup_map_values (fun k' v => if k' = key then f v else v) d.entries k

end Dict

end SignalFlow
