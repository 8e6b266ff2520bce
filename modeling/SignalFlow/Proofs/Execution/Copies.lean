import Mathlib.Data.List.Permutation
import SignalFlow.Proofs.Execution.Independence
import SignalFlow.Proofs.Plan.Copies

/-!
Running a plan whose graph repeats its edges. All that becomes of copies is another order, and an
order makes no difference to what nodes come to.
-/

open scoped List

namespace SignalFlow

namespace Plan

-- The plan does what another one does, in an order of its own.
structure Echoes (p p' : Plan) : Prop where
  rest   : p' = { p with order := p'.order }
  order  : p.order ~ p'.order
  causal : p'.Causal
  runs   : ∀ moments moments' : List Moment,
    moments.map Moment.surroundings = moments'.map Moment.surroundings →
    (∀ t ∈ p.run moments, t.outcome.isSome) → (∀ t ∈ p'.run moments', t.outcome.isSome) →
    List.Forall₂ (fun t t' => ∃ o ∈ t.outcome, ∃ o' ∈ t'.outcome,
        Progress.Agrees .withoutIndicators ⟨t.plan, o⟩ ⟨t'.plan, o'⟩)
      (p.run moments) (p'.run moments')

variable {p p' : Plan}

theorem echoes_of_causal (hp : p.Causal) (hp' : p'.Causal) (hr : p' = { p with order := p'.order })
    (ho : p.order ~ p'.order) : p.Echoes p' := by
  refine ⟨hr, ho, hp', fun moments moments' hs he he' => ?_⟩
  have h : Abreast (fun _ => True) p p' p p' := by
    constructor
    case left   => rfl
    case right  => rfl
    case causal => exact ⟨hp, hp'⟩
    case closed => exact fun _ _ _ _ _ _ => trivial
    case agree  => rw [hr]; exact ⟨⟨rfl, rfl, rfl⟩, rfl, fun _ _ => rfl⟩
  refine h.run (fun p q s s' h ha hf => h.agrees_tick ho ha hf) ?_ he he'
  rw [←List.forall₂_eq_eq_eq, List.forall₂_map_left_iff, List.forall₂_map_right_iff] at hs
  refine hs.imp fun m m' hs => ?_
  rw [hs]
  exact ⟨⟨rfl, rfl, fun _ _ => rfl⟩, Surroundings.signalAlike_withoutIndicators⟩

end Plan

namespace Graph

variable {g g' : Graph} {setup : Setup} {services : Services} {strategy symbol : String} {p : Plan}

-- The vigil, told once more to buy. Now it gives notice before it does so.
def insistence : Graph :=
  { vigil with edges := vigil.edges ++ [⟨"held", "result", "buy", "trigger"⟩] }

theorem copies_insistence : vigil.Copies insistence :=
  ⟨vigil.edges, [], _, .tail _ <| .tail _ <| .head _, (List.append_nil _).symm, rfl⟩

end Graph

end SignalFlow
