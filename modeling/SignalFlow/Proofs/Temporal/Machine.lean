import SignalFlow.Proofs.Temporal.Stamp
import SignalFlow.Temporal.Machine

/-!
Machines that can be taken back from where they are stored. A machine is written only if it differs
from what it was, number by number; for machines that are driven by a clock this is as good as
writing it whenever it differs at all.
-/

namespace SignalFlow

theorem countOf_le {greatest : Int} (h : 1 ≤ greatest) (x : Float) :
    (countOf greatest x : Int) ≤ greatest := by
  have hc : (Binary.ofFloat x).clamp 0 greatest ≤ greatest := by
    cases Binary.ofFloat x
    case nan        => simp only [Binary.clamp]; omega
    case infinity s => cases s <;> simp only [Binary.clamp, reduceIte] <;> omega
    case finite     => simp only [Binary.clamp]; omega
  rw [countOf]
  omega

namespace Sequence

theorem required_ofNode_lt (n : Node) : (Rule.ofNode n).required < 2 ^ 64 := by
  simp only [Rule.ofNode]
  cases n.float? "required_events"
  case none   => decide
  case some x =>
    have hg : 1 ≤ greatestUnsigned := by decide
    have := countOf_le hg x
    simp only [Option.map_some, Option.getD_some]
    rw [greatestUnsigned] at *
    omega

theorem State.current_eq (s : State Stamp) (rule : Rule Stamp) (now : Stamp) :
    s.current rule now = s.events ∨ s.current rule now = [] := by
  rw [current]
  split
  case h_1 => exact .inl rfl
  case h_2 =>
    split
    case isTrue  => exact .inr rfl
    case isFalse => exact .inl rfl

end Sequence

namespace Machine

-- No number of the machine is minus zero, and its events can be counted in 64 bits.
inductive Storable : Machine → Prop
  | duration {s : Hold.State Stamp} (elapsed : s.elapsed.IsPlain) : Storable (.duration s)
  | sequence {s : Sequence.State Stamp} (events : ∀ t ∈ s.events, t.IsPlain)
      (lastTrigger : ∀ t ∈ s.lastTrigger, t.IsPlain) (few : s.events.length < 2 ^ 64) :
    Storable (.sequence s)

-- The events of the machine can be counted in 64 bits.
def Countable : Machine → Prop
  | .duration _ => True
  | .sequence s => s.events.length < 2 ^ 64

variable {m : Machine} {n : Node} {input : Bool} {now : Stamp}

theorem Storable.countable (h : m.Storable) : m.Countable := by
  cases h
  case duration      => trivial
  case sequence _ hf => exact hf

theorem storable_zero (kind : MachineKind) : (zero kind).Storable := by
  cases kind
  case duration => exact .duration Stamp.isPlain_zero
  case sequence =>
    constructor
    case events | lastTrigger => simp [Sequence.State.zero]
    case few                  => decide

@[simp] theorem kind_zero (kind : MachineKind) : (zero kind).kind = kind := by
  cases kind <;> rfl

@[simp] theorem kind_advance : (m.advance n input now).1.kind = m.kind := by
  cases m <;> rfl

theorem isPlain_span (start now : Stamp) : (Hold.span start now).IsPlain := by
  rw [Hold.span]
  split
  case isTrue h => exact Stamp.isPlain_of_pos h
  case isFalse  => exact Stamp.isPlain_zero

theorem Storable.advance (h : m.Storable) (n : Node) (input : Bool) (hn : now.IsPlain) :
    (m.advance n input now).1.Storable := by
  cases h
  case duration s he =>
    apply Storable.duration
    simp only [Hold.State.update, Hold.State.observe]
    split
    case h_1 =>
      split
      case isTrue  => exact Stamp.isPlain_zero
      case isFalse => exact he
    case h_2 => exact isPlain_span _ _
    case h_3 => exact he
  case sequence s he ht hf =>
    have hr := Sequence.required_ofNode_lt n
    have hc : ∀ t ∈ s.current (.ofNode n) now, t.IsPlain := by
      cases s.current_eq (.ofNode n) now
      case inl hs => rwa [hs]
      case inr hs => simp [hs]
    have hl : (s.current (.ofNode n) now).length ≤ s.events.length := by
      cases s.current_eq (.ofNode n) now
      case inl hs => exact hs ▸ Nat.le_refl _
      case inr hs => simp [hs]
    simp only [Machine.advance, Sequence.State.update]
    split
    case isFalse => exact .sequence hc ht (by dsimp only; omega)
    case isTrue  =>
      split
      case isTrue  => exact .sequence (by simp) (by simpa using hn) (by simp)
      case isFalse =>
        constructor
        case events      => simpa [or_imp, forall_and] using ⟨hc, hn⟩
        case lastTrigger => exact ht
        case few         => simp; omega

theorem eq_of_sameTime {a b : Option Stamp} (h : sameTime a b) (ha : ∀ t ∈ a, t.IsPlain)
    (hb : ∀ t ∈ b, t.IsPlain) : a = b := by
  cases a <;> cases b
  case none.none     => rfl
  case some.some a b => exact congrArg some <| Stamp.eq_of_same h (ha a rfl) (hb b rfl)
  all_goals cases h

theorem eq_of_sameTimes {l l' : List Stamp} (h : sameTimes l l') (hl : ∀ t ∈ l, t.IsPlain)
    (hl' : ∀ t ∈ l', t.IsPlain) : l = l' := by
  induction l generalizing l' <;> cases l'
  case nil.nil             => rfl
  case cons.cons a l hi b l' =>
    have ⟨ha, hl⟩ := List.forall_mem_cons.mp hl
    have ⟨hb, hl'⟩ := List.forall_mem_cons.mp hl'
    have ⟨hs, h⟩ := Bool.and_eq_true_iff.mp h
    rw [Stamp.eq_of_same hs ha hb, hi h hl hl']
  all_goals cases h

theorem eq_of_same_sequence {s t : Sequence.State Stamp}
    (h : (Machine.sequence s).same (.sequence t)) (hs : (Machine.sequence s).Storable)
    (ht : (Machine.sequence t).Storable) : t = s := by
  cases hs
  case sequence hs hs' _ =>
    cases ht
    case sequence ht ht' _ =>
      have ⟨he, hl⟩ := Bool.and_eq_true_iff.mp h
      have he : s.events = t.events := eq_of_sameTimes he hs ht
      have hl : s.lastTrigger = t.lastTrigger := eq_of_sameTime hl hs' ht'
      cases s
      cases t
      simp only at he hl
      rw [he, hl]

theorem eq_none_of_sameTime {a : Option Stamp} (h : sameTime a none) : a = none := by
  cases a
  case none => rfl
  case some => cases h

-- An observation that starts a hold never leaves the machine the same, so there is no need to know
-- that the start is not minus zero.
theorem eq_of_same_observe {s : Hold.State Stamp} {rule : Hold.Rule Stamp}
    (h : (Machine.duration s).same (.duration (s.observe rule input now)))
    (hs : s.elapsed.IsPlain) : s.observe rule input now = s := by
  obtain ⟨active, startTime, elapsed⟩ := s
  have ⟨hat, he⟩ := Bool.and_eq_true_iff.mp h
  have ⟨hb, ht⟩ := Bool.and_eq_true_iff.mp hat
  have ha := eq_of_beq hb
  cases input
  case false =>
    simp only [Hold.State.observe] at ha ht he ⊢
    split
    case isTrue hr  =>
      rw [if_pos hr] at ha ht he
      have he : elapsed = 0 := Stamp.eq_of_same he hs Stamp.isPlain_zero
      cases ha
      cases eq_none_of_sameTime ht
      rw [he, Hold.State.zero]
    case isFalse hr =>
      rw [if_neg hr] at ha ht
      cases ha
      cases eq_none_of_sameTime ht
      rfl
  case true =>
    cases active
    case false => cases ha
    case true  =>
      cases startTime
      case none  => cases ht
      case some start =>
        simp only [Hold.State.observe] at he ⊢
        rw [←Stamp.eq_of_same he hs (isPlain_span start now)]

-- What is not written back is what is stored already.
theorem eq_of_same_advance (h : m.Storable) (hn : now.IsPlain)
    (hs : m.same (m.advance n input now).1) : (m.advance n input now).1 = m := by
  have ha := h.advance n input hn
  cases m
  case sequence s =>
    have hr : ((Machine.sequence s).advance n input now).1 =
      .sequence (s.update (.ofNode n) input now).1 := rfl
    rw [hr] at hs ha ⊢
    rw [eq_of_same_sequence hs h ha]
  case duration s =>
    have hr : ((Machine.duration s).advance n input now).1 =
      .duration (s.observe (.ofNode n) input now) := rfl
    rw [hr] at hs ⊢
    cases h
    case duration he => rw [eq_of_same_observe hs he]

end Machine

end SignalFlow
