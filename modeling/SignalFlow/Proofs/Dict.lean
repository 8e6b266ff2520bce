import Mathlib.Data.List.Nodup
import SignalFlow.Dict

/-!
What maps show of themselves through `get?`, and what it takes for a map that is built up entry by
entry to have each of the entries.
-/

namespace SignalFlow

namespace Dict

variable {α β : Type} {d : Dict α} {k : String} {v : α}

@[simp] theorem keys_empty : (∅ : Dict α).keys = [] := rfl

theorem mem_keys_iff : k ∈ d.keys ↔ ∃ v, d.get? k = some v := by
  unfold keys get?
  induction d.entries
  case nil => simp
  case cons e l hi =>
    rw [List.map_cons, List.mem_cons, hi, lookup_cons_ite]
    by_cases hk : k = e.1 <;> simp [hk]

theorem mem_keys_insert {key : String} : k ∈ (d.insert key v).keys ↔ k = key ∨ k ∈ d.keys := by
  simp only [mem_keys_iff, get?_insert]
  by_cases hk : k = key <;> simp [hk]

theorem contains_iff : d.contains k ↔ ∃ v, d.get? k = some v :=
  Option.isSome_iff_exists

theorem mem_iff_lookup_of_nodup {l : List (String × α)} (h : (l.map Prod.fst).Nodup) :
    (k, v) ∈ l ↔ l.lookup k = some v := by
  induction l
  case nil => simp
  case cons e l hi =>
    have ⟨he, hl⟩ := List.nodup_cons.mp h
    rw [List.mem_cons, hi hl, lookup_cons_ite]
    split
    case isFalse hk =>
      have hn : (k, v) ≠ e := fun h => hk (congrArg Prod.fst h)
      simp [hn]
    case isTrue hk =>
      subst hk
      have hn : l.lookup e.1 ≠ some v := fun h => he <| List.mem_map.mpr ⟨_, (hi hl).mpr h, rfl⟩
      simp [hn, Prod.ext_iff, eq_comm]

theorem nodup_keys (d : Dict α) : d.keys.Nodup :=
  List.pairwise_map.mpr <| d.sorted.imp String.ne_of_lt

theorem nodup_entries (d : Dict α) : d.entries.Nodup :=
  .of_map _ d.nodup_keys

-- Entries are in order, so that equal contents make equal maps.
theorem eq_of_perm {d e : Dict α} (h : d.entries.Perm e.entries) : d = e :=
  ext_entries <| h.eq_of_pairwise
    (fun _ _ _ _ hab hba => absurd (String.lt_trans hab hba) <| String.lt_irrefl _) d.sorted e.sorted

theorem ext_get? {d e : Dict α} (h : ∀ k, d.get? k = e.get? k) : d = e := by
  apply eq_of_perm
  apply (List.perm_ext_iff_of_nodup d.nodup_entries e.nodup_entries).mpr
  intro (k, v)
  rw [mem_iff_lookup_of_nodup d.nodup_keys, mem_iff_lookup_of_nodup e.nodup_keys]
  exact Eq.congr_left (h k)

-- Keys are searched in their order.
theorem least_of_find?_keys {f : String → Bool} (h : d.keys.find? f = some k) :
    k ∈ d.keys ∧ f k ∧ ∀ l ∈ d.keys, f l → k ≤ l := by
  have ⟨hk, before, after, hs, hb⟩ := List.find?_eq_some_iff_append.mp h
  have hd : d.keys.Pairwise (· < ·) := List.pairwise_map.mpr d.sorted
  rw [hs] at hd
  refine ⟨List.mem_of_find?_eq_some h, hk, fun l hl hf => String.not_lt.mp fun hlt => ?_⟩
  cases List.mem_append.mp (hs ▸ hl)
  case inl hl => exact absurd hf <| by simpa using hb l hl
  case inr hl =>
    have ⟨ha, _⟩ := List.pairwise_cons.mp (List.pairwise_append.mp hd).right.left
    cases hl
    case head    => exact String.lt_irrefl _ hlt
    case tail hl => exact String.lt_irrefl _ <| String.lt_trans hlt <| ha l hl

theorem insert_of_get? (h : d.get? k = some v) : d.insert k v = d := by
  apply ext_get?
  intro l
  rw [get?_insert]
  split
  case isTrue hl => rw [hl, h]
  case isFalse   => rfl

section Fold

-- One step of the construction has a say in the entry under one key only, and in what it does there
-- it does not look at other entries.
structure Local (step : Dict α → β → Dict α) (key : β → String) : Prop where
  frame : ∀ d b k, k ≠ key b → (step d b).get? k = d.get? k
  reads : ∀ d d' b, d.get? (key b) = d'.get? (key b) →
    (step d b).get? (key b) = (step d' b).get? (key b)

variable {step : Dict α → β → Dict α} {key : β → String} {l : List β}

theorem Local.get?_foldl_of_not_mem (h : Local step key) (hk : k ∉ l.map key) :
    (l.foldl step d).get? k = d.get? k := by
  induction l generalizing d
  case nil => rfl
  case cons b l hi =>
    have ⟨hb, hl⟩ := not_or.mp <| mt List.mem_cons.mpr hk
    rw [List.foldl_cons, hi hl, h.frame d b k hb]

theorem Local.get?_foldl_of_mem (h : Local step key) (hn : (l.map key).Nodup) {b : β} (hb : b ∈ l) :
    (l.foldl step d).get? (key b) = (step d b).get? (key b) := by
  induction l generalizing d
  case nil => cases hb
  case cons c l hi =>
    have ⟨hc, hl⟩ := List.nodup_cons.mp hn
    cases hb
    case head    => rw [List.foldl_cons, h.get?_foldl_of_not_mem hc]
    case tail hb =>
      have hne : key b ≠ key c := ne_of_mem_of_not_mem (List.mem_map_of_mem hb) hc
      rw [List.foldl_cons, hi hl hb]
      exact h.reads _ _ b <| h.frame d c _ hne

end Fold

end Dict

end SignalFlow
