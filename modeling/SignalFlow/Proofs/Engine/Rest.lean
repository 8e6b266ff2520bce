import Mathlib.Algebra.Order.BigOperators.Group.List
import Mathlib.Algebra.Order.Group.Nat
import Mathlib.Algebra.Order.Monoid.Prod
import Mathlib.Tactic.Abel
import SignalFlow.Proofs.Engine.Listening
import SignalFlow.Proofs.Engine.Names

/-!
By itself an engine comes to rest after some time. A step may well make more to do, but only of what
comes later in this order: strategies to start, updates to look at, sessions to wait for, nodes to
run, and signals and events to pass on.
-/

namespace SignalFlow

-- How much there is to do of each kind. What comes first in the order counts most.
abbrev Load : Type :=
  ℕ ×ₗ ℕ ×ₗ ℕ ×ₗ ℕ ×ₗ ℕ

namespace Load

variable {a b c d e a' b' c' d' e' : ℕ}

def of (a b c d e : ℕ) : Load :=
  toLex (a, toLex (b, toLex (c, toLex (d, e))))

theorem of_add_of : of a b c d e + of a' b' c' d' e' =
    of (a + a') (b + b') (c + c') (d + d') (e + e') :=
  rfl

theorem of_zero : of 0 0 0 0 0 = 0 :=
  rfl

theorem of_lt_of : of a b c d e < of a' b' c' d' e' ↔ a < a' ∨ a = a' ∧ (b < b' ∨ b = b' ∧
    (c < c' ∨ c = c' ∧ (d < d' ∨ d = d' ∧ e < e'))) := by
  simp only [of, Prod.Lex.toLex_lt_toLex]

theorem of_le_of (hb : b ≤ b') (hc : c ≤ c') (he : e ≤ e') :
    of a b c d e ≤ of a b' c' d e' :=
  Prod.Lex.toLex_mono ⟨le_rfl, Prod.Lex.toLex_mono ⟨hb, Prod.Lex.toLex_mono ⟨hc,
    Prod.Lex.toLex_mono ⟨le_rfl, he⟩⟩⟩⟩

end Load

section Moves

open Load

-- A signal is to be published by its session first, and to be passed by the loop then.
def Errand.load : Errand → Load
  | .due _                => of 0 0 1 0 0
  | .ticking _ _ _ rest   => of 0 0 0 (rest.length + 1) 0
  | .publishing _ signals => of 0 0 0 0 (2 * signals.length + 1)

-- An update that still looks through the table has so many sessions before it.
def Handling.load (table : List String) : Handling → Load
  | .collecting _ _ found => of 0 1 (table.filter (· ∉ found)).length 0 0
  | .running _ errands    => of 0 0 1 0 0 + (errands.map Errand.load).sum

def Task.load (table : List String) : Task → Load
  | .update h                    => h.load table
  | .start _ _ _                 => of 2 0 0 0 0
  | .deploying _ _ _             => of 1 0 0 0 0
  | .reload _ _                  => of 0 0 3 0 0
  | .stop _ | .awaiting _ _      => of 0 0 2 0 0
  | .stopping _ | .reloading _ _ => of 0 0 1 0 0

-- Whatever a step publishes is to be passed on.
def Deed.load (d : Deed) : Load :=
  of 0 0 0 0 d.event?.toList.length

variable {free : String → Prop} {x x' : Scene} {d : Deed}

theorem Errand.Moves.load_lt {snapshot : Snapshot} {errand : Errand} {errand? : Option Errand}
    (h : errand.Moves free snapshot x d x' errand?) :
    (errand?.toList.map Errand.load).sum + d.load < errand.load := by
  cases h
  all_goals
    simp [Errand.load, Deed.load, Deed.event?, of_add_of, ←of_zero, of_lt_of]
  all_goals omega

theorem Handling.Moves.load_lt {h h' : Handling} (hm : h.Moves free x d x' h') :
    h'.load x.names.1 + d.load < h.load x.names.1 := by
  cases hm
  case collect u present found s live _ new =>
    have fewer : (x.names.1.filter (· ∉ found ++ [s.id])).length <
        (x.names.1.filter (· ∉ found)).length := by
      have hf : x.names.1.filter (· ∉ found ++ [s.id]) =
          (x.names.1.filter (· ∉ found)).filter (· ≠ s.id) := by
        simp [List.filter_filter, and_comm]
      rw [hf, List.length_filter_lt_length_iff_exists]
      exact ⟨s.id, List.mem_filter.mpr ⟨List.mem_map_of_mem live, by simpa using new⟩, by simp⟩
    exact of_lt_of.mpr <| .inr ⟨rfl, .inr ⟨rfl, .inl fewer⟩⟩
  case spawn u present found _ =>
    have due : ((found.map Errand.due).map Errand.load).sum = of 0 0 found.length 0 0 := by
      clear * -
      induction found
      case nil          => rfl
      case cons _ _ hi =>
        rw [List.map_cons, List.map_cons, List.sum_cons, hi, Errand.load, of_add_of,
          List.length_cons, Nat.add_comm 1]
    simp only [Handling.load, due]
    exact of_lt_of.mpr <| .inr ⟨rfl, .inl Nat.one_pos⟩
  case errand u l r errand errand? hm =>
    simp only [Handling.load, List.map_append, List.map_cons, List.sum_append, List.sum_cons]
    calc
      _ = of 0 0 1 0 0 + (l.map Errand.load).sum + (r.map Errand.load).sum +
          ((errand?.toList.map Errand.load).sum + d.load) := by abel
      _ < of 0 0 1 0 0 + (l.map Errand.load).sum + (r.map Errand.load).sum + errand.load :=
        add_lt_add_right hm.load_lt _
      _ = _ := by abel

theorem Task.Moves.load_lt {t : Task} {t? : Option Task} (hm : t.Moves free x d x' t?) :
    (t?.toList.map (Task.load x.names.1)).sum + d.load < t.load x.names.1 := by
  cases hm
  case update hm => simpa [Task.load] using hm.load_lt
  all_goals
    simp [Task.load, Handling.load, Deed.load, Deed.event?, of_add_of, ←of_zero, of_lt_of]

theorem Handling.load_le_of_sublist {h : Handling} {table table' : List String}
    (hs : table'.Sublist table) : h.load table' ≤ h.load table := by
  cases h
  case running    => exact le_rfl
  case collecting => exact of_le_of le_rfl (hs.filter _).length_le le_rfl

theorem Handling.load_le {h : Handling} {table table' : List String} :
    h.load table' ≤ h.load table + of 0 0 table'.length 0 0 := by
  cases h
  case running => exact le_add_of_nonneg_right <| of_le_of le_rfl (Nat.zero_le _) le_rfl
  case collecting found =>
    have hf : (table'.filter (· ∉ found)).length ≤ table'.length := List.length_filter_le ..
    exact of_le_of le_rfl (hf.trans <| Nat.le_add_left ..) le_rfl

section Table

variable {t : Task} {table table' : List String}

theorem Task.load_le_of_sublist (hs : table'.Sublist table) : t.load table' ≤ t.load table := by
  cases t
  case update => exact Handling.load_le_of_sublist hs
  all_goals exact le_rfl

-- Another table may have more sessions for those who look through it.
theorem Task.load_le : t.load table' ≤ t.load table + of 0 0 table'.length 0 0 := by
  cases t
  case update => exact Handling.load_le
  all_goals exact le_add_of_nonneg_right <| of_le_of le_rfl (Nat.zero_le _) le_rfl

theorem Task.sum_load_le {jobs : List Task} : (jobs.map <| Task.load table').sum ≤
    (jobs.map <| Task.load table).sum + of 0 0 (jobs.length * table'.length) 0 0 := by
  induction jobs
  case nil               => exact of_le_of le_rfl (Nat.zero_le _) le_rfl
  case cons t jobs hi =>
    calc
      _ = t.load table' + (jobs.map <| Task.load table').sum := List.sum_cons ..
      _ ≤ _ := add_le_add Task.load_le hi
      _ = t.load table + (jobs.map <| Task.load table).sum +
          (of 0 0 (jobs.length * table'.length) 0 0 + of 0 0 table'.length 0 0) := by abel
      _ = _ := by rw [of_add_of, ←Nat.succ_mul]; rfl

end Table

-- The table grows with a session that is deployed, and in no other way.
theorem Task.Moves.table_sublist_or {t : Task} {t? : Option Task} (hm : t.Moves free x d x' t?) :
    x'.names.1.Sublist x.names.1 ∨
      d = .silent ∧ t? = none ∧ ∃ strategy graph plan, t = .deploying strategy graph plan := by
  cases hm
  case deploy              => exact .inr ⟨rfl, rfl, _, _, _, rfl⟩
  case update hm           => exact .inl <| hm.names ▸ .refl _
  case remove              => exact .inl <| Scene.names_remove ▸ List.filter_sublist
  case deactivate | replace =>
    rw [Scene.names_put]
    exact .inl <| .refl _
  all_goals exact .inl <| .refl _

end Moves

namespace World

open Load

variable {free : String → Prop} {d : Deed} {w w' : World}

-- What is on the bus for the loop. An update is to be taken first, and to be looked at then.
def coming (w : World) : Load :=
  of 0 (2 * w.waiting.length) 0 0 w.backlog

def load (w : World) : Load :=
  (w.jobs.map <| Task.load w.names.1).sum + w.coming

-- However a world goes on by itself, it comes to rest after finitely many steps.
def Halts (w : World) : Prop :=
  Acc (fun next w => ∃ d, w.Works d next) w

-- What a step publishes comes to the loop, but signals may push out what has been there before.
theorem Listens.coming_le (h : w.Listens) (ht : w.Tells d w'.toScene)
    (hu : w'.underway = w.underway) : w'.coming ≤ w.coming + d.load := by
  have waiting : w'.waiting.length ≤ w.waiting.length := by
    have order := (Hears.of_tells h ht hu).order.length_le
    simp only [ht.inner.told, hu, List.length_append, Option.toList_none, List.length_nil] at order
    omega
  have backlog : w'.backlog ≤ w.backlog + d.event?.toList.length := by
    rw [World.backlog, ht.bus, World.backlog]
    cases d.event?
    case none => exact Nat.le_refl _
    case some => exact (Bus.backlog_publish h.regular h.subscribed).le
  calc
    w'.coming ≤ of 0 (2 * w.waiting.length) 0 0 (w.backlog + d.event?.toList.length) :=
      of_le_of (Nat.mul_le_mul_left 2 waiting) le_rfl backlog
    _ = w.coming + d.load := rfl

-- A job that goes on has less to do, and the others have no more to do than before, unless it puts
-- a new session on the table: but then it is the last of a start.
theorem load_lt_of_moves {l r : List Task} {t : Task} {t? : Option Task} (h : w.Listens)
    (before : w.jobs = l ++ t :: r) (moves : t.Moves free w.toScene d w'.toScene t?)
    (after : w'.jobs = l ++ t?.toList ++ r) (hu : w'.underway = w.underway) :
    w'.load < w.load := by
  have coming := h.coming_le moves.tells hu
  let others := ((l ++ r).map <| Task.load w.names.1).sum
  have heavy : w.load = others + w.coming + t.load w.names.1 := by
    simp only [load, before, others, List.map_append, List.map_cons, List.sum_append, List.sum_cons]
    abel
  cases moves.table_sublist_or
  case inl hs =>
    calc
      w'.load ≤ (w'.jobs.map <| Task.load w.names.1).sum + (w.coming + d.load) :=
        add_le_add (List.sum_le_sum fun _ _ => Task.load_le_of_sublist hs) coming
      _ = others + w.coming + ((t?.toList.map <| Task.load w.names.1).sum + d.load) := by
        simp only [after, others, List.map_append, List.sum_append]
        abel
      _ < others + w.coming + t.load w.names.1 := add_lt_add_right moves.load_lt _
      _ = w.load := heavy.symm
  case inr hs =>
    obtain ⟨rfl, rfl, _, _, _, rfl⟩ := hs
    have jobs : w'.jobs = l ++ r := by simpa using after
    calc
      w'.load ≤ others + of 0 0 ((l ++ r).length * w'.names.1.length) 0 0 + (w.coming + 0) :=
        add_le_add (by rw [jobs]; exact Task.sum_load_le) coming
      _ = others + w.coming + of 0 0 ((l ++ r).length * w'.names.1.length) 0 0 := by abel
      _ < others + w.coming + of 1 0 0 0 0 :=
        add_lt_add_right (of_lt_of.mpr <| .inl Nat.one_pos) _
      _ = w.load := heavy.symm

-- An event that the loop takes is before it no more.
theorem Listens.backlog_lt {receipt : Bus.Receipt Event} {bus : Bus Event} (h : w.Listens)
    (hn : w.engine.bus.next? listener = some (receipt, bus)) : bus.backlog listener < w.backlog :=
  Bus.backlog_lt_of_gives h.regular <| Bus.gives_of_next? hn

theorem load_eq : w.load = (w.tasks.map <| Task.load w.names.1).sum +
    (w.loop.elim 0 (Handling.load w.names.1) + w.coming) := by
  rw [load, jobs]
  cases w.loop
  case none   => simp
  case some _ =>
    simp only [Option.map_some, Option.toList_some, List.singleton_append, List.map_cons,
      List.sum_cons, Option.elim_some, Task.load]
    abel

theorem load_lt_of_take {u : IndicatorUpdate} {present found : List String} (idle : w.loop = none)
    (busy : w'.loop = some (.collecting u present found)) (tasks : w'.tasks = w.tasks)
    (names : w'.names = w.names) (fewer : w'.waiting.length < w.waiting.length) :
    w'.load < w.load := by
  have lighter : 1 + 2 * w'.waiting.length < 0 + 2 * w.waiting.length := by omega
  rw [load_eq, load_eq, idle, busy, tasks, names]
  exact add_lt_add_right (of_lt_of.mpr <| .inr ⟨rfl, .inl lighter⟩) _

theorem load_lt_of_pass (idle : w.loop = none) (still : w'.loop = none)
    (tasks : w'.tasks = w.tasks) (names : w'.names = w.names)
    (waiting : w'.waiting.length ≤ w.waiting.length) (fewer : w'.backlog < w.backlog) :
    w'.load < w.load := by
  rw [load_eq, load_eq, idle, still, tasks, names]
  refine add_lt_add_right (add_lt_add_right (of_lt_of.mpr ?_) _) _
  omega

theorem Works.load_lt (hw : w.Works d w') (h : w.Listens) : w'.load < w.load := by
  have order := ((Step.works hw).hears h).order.length_le
  cases hw
  case task l r t x t? ht hm =>
    have before : w.jobs = (w.loop.map .update).toList ++ l ++ t :: r := by simp [jobs, ht]
    exact load_lt_of_moves h before hm (by simp [jobs]) rfl
  case handle h₀ h' x hb hm =>
    have before : w.jobs = [] ++ .update h₀ :: w.tasks := by simp [jobs, hb]
    refine load_lt_of_moves h before (.update hm) (by simp [jobs]) ?_
    simp [underway, hb, hm.tells.right]
  case take hi hn =>
    refine load_lt_of_take hi rfl rfl rfl <| Nat.lt_iff_add_one_le.mpr ?_
    simpa [underway, hi, Deed.told?, Deed.handled?] using order
  case pass hi hn =>
    exact load_lt_of_pass hi hi rfl rfl
      (by simpa [underway, hi, Deed.told?, Deed.handled?] using order) (h.backlog_lt hn)
  case lag hi hn =>
    exact load_lt_of_pass hi hi rfl rfl
      (by simpa [underway, hi, Deed.told?, Deed.handled?] using order) (h.backlog_lt hn)
  case finish u hb =>
    have lighter : of 0 0 0 0 0 < of 0 0 1 0 0 := of_lt_of.mpr <| by omega
    rw [load_eq, load_eq, hb]
    exact add_lt_add_right (add_lt_add_left lighter _) _

-- By itself a world comes to rest.
theorem Listens.halts (h : w.Listens) : w.Halts := by
  induction hl : w.load using WellFoundedLT.induction generalizing w
  case ind load hi =>
    refine .intro _ fun next hw => ?_
    obtain ⟨d, hw⟩ := hw
    exact hi _ (hl ▸ hw.load_lt h) ((Step.works hw).hears h).listens rfl

end World

end SignalFlow
