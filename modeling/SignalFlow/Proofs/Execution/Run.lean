import Mathlib.Data.List.Forall2
import SignalFlow.Execution.Tick
import SignalFlow.Proofs.StateStore

/-!
Runs of a plan, tick after tick. Whatever happens between two ticks, to the market as well as to the
services, the next tick starts from the plan that the one before left, even if that one broke off.
-/

namespace SignalFlow

-- A tick in which the price is above a hundred, and some volume may be known.
def Moment.noon (volume : Option Float) : Moment where
  surroundings := {
    now      := ⟨1700000000, 0⟩
    snapshot := Dict.empty.insert "BTC" { price := some 120, volume }
    readings := fun _ => .absent
    timeout  := 5000 }
  ttl          := 3600
  services     := {}

namespace Plan

def run (p : Plan) : List Moment → List Ticked
  | []           => []
  | m :: moments => p.tickAt m :: (p.tickAt m).plan.run moments

end Plan

namespace Progress

-- A tick stops at a progress that its steps lead to. If it breaks off, the machine that could not
-- be stored has moved already.
theorem exists_of_runAll {motive : Progress → Prop} {s : Surroundings} {ttl : Nat} {p : Progress}
    {services : Services} {l : List String} (h : motive p)
    (step : ∀ p id, motive p → motive (p.step s id).1) :
    ∃ q machines, motive q ∧ (p.runAll s ttl services l).plan = { q.plan with machines } ∧
      ∀ o ∈ (p.runAll s ttl services l).outcome, o = q.outcome := by
  induction l generalizing p services
  case nil => exact ⟨p, p.plan.machines, h, rfl, fun o ho => (Option.some.inj ho).symm⟩
  case cons id l hi =>
    have hs := step p id h
    simp only [runAll]
    split
    case h_1 => exact hi hs
    case h_2 =>
      split
      case h_1 => exact hi hs
      case h_2 => exact ⟨p, _, h, rfl, by simp⟩

section Store

variable {s : Surroundings} {ttl : Nat} {p : Progress} {services : Services} {id : String}
  {ids : List String} {m : Machine} {l : StoreLink}

theorem runAll_of_eq_none (hm : (p.step s id).2 = none) :
    p.runAll s ttl services (id :: ids) = (p.step s id).1.runAll s ttl services ids := by
  simp only [runAll, hm]

theorem runAll_of_changed (hm : (p.step s id).2 = some m) :
    p.runAll s ttl services (id :: ids) =
      let stored := services.storeMachine (p.plan.stateKey id) m ttl
      if stored.1 then (p.step s id).1.runAll s ttl stored.2 ids
      else ⟨none, { p.plan with machines := (p.step s id).1.plan.machines }, stored.2⟩ := by
  simp only [runAll, hm]
  rcases services.storeMachine (p.plan.stateKey id) m ttl with ⟨_ | _, _⟩ <;> rfl

theorem runAll_of_eq_some (hm : (p.step s id).2 = some m) (hs : services.store = some l) :
    p.runAll s ttl services (id :: ids) =
      let written := l.write (p.plan.stateKey id) (.ofMachine m) ttl
      let services := { services with store := some written.2 }
      if written.1 then (p.step s id).1.runAll s ttl services ids
      else ⟨none, { p.plan with machines := (p.step s id).1.plan.machines }, services⟩ := by
  rw [runAll_of_changed hm, Services.storeMachine, hs]

-- What each write keeps of the link to the store holds of the link that a tick leaves.
theorem exists_store_runAll {motive : StoreLink → Prop} (hs : services.store = some l)
    (h : motive l) (write : ∀ l key blob, motive l → motive (l.write key blob ttl).2) :
    ∃ l', (p.runAll s ttl services ids).services.store = some l' ∧ motive l' := by
  induction ids generalizing p services l
  case nil            => exact ⟨l, hs, h⟩
  case cons id ids hi =>
    cases hm : (p.step s id).2
    case none   => rw [runAll_of_eq_none hm]; exact hi hs h
    case some m =>
      have hw := write l (p.plan.stateKey id) (.ofMachine m) h
      rw [runAll_of_eq_some hm hs]
      dsimp only
      split
      case isTrue  => exact hi rfl hw
      case isFalse => exact ⟨_, rfl, hw⟩

-- A tick breaks off for want of a time at which a machine may be forgotten, and for nothing else.
theorem isSome_outcome_runAll
    (h : ∀ l ∈ services.store, (StateStore.deadline? l.now ttl).isSome) :
    (p.runAll s ttl services ids).outcome.isSome := by
  induction ids generalizing p services
  case nil            => rfl
  case cons id ids hi =>
    cases hm : (p.step s id).2
    case none   => rw [runAll_of_eq_none hm]; exact hi h
    case some m =>
      cases hs : services.store
      case none   =>
        simp only [runAll, hm, Services.storeMachine, hs]
        exact hi h
      case some l =>
        rw [runAll_of_eq_some hm hs, if_pos <| StoreLink.fst_write <| h l hs]
        refine hi fun k hk => ?_
        cases hk
        rw [StoreLink.now_write]
        exact h l hs

end Store

end Progress

namespace Plan

variable {p : Plan}

theorem exists_of_tickAt {motive : Progress → Prop} (m : Moment) (h : motive { plan := p.reset })
    (step : ∀ q id, motive q → motive (q.step m.surroundings id).1) :
    ∃ q machines, motive q ∧ (p.tickAt m).plan = { q.plan with machines } ∧
      ∀ o ∈ (p.tickAt m).outcome, o = q.outcome :=
  Progress.exists_of_runAll h step

-- What every tick keeps of the plan holds at each tick of a run.
theorem exists_of_mem_run {motive : Plan → Prop} {moments : List Moment} {t : Ticked}
    (h : motive p) (tick : ∀ p m, motive p → motive (p.tickAt m).plan) (ht : t ∈ p.run moments) :
    ∃ q m, motive q ∧ t = q.tickAt m := by
  induction moments generalizing p
  case nil => cases ht
  case cons m moments hi =>
    cases ht
    case head    => exact ⟨p, m, h, rfl⟩
    case tail ht => exact hi (tick p m h) ht

theorem isSome_outcome_run {moments : List Moment}
    (h : ∀ m ∈ moments, ∀ l ∈ m.services.store, (StateStore.deadline? l.now m.ttl).isSome) :
    ∀ t ∈ p.run moments, t.outcome.isSome := by
  induction moments generalizing p
  case nil => simp [run]
  case cons m moments hi =>
    have ⟨hm, h⟩ := List.forall_mem_cons.mp h
    exact List.forall_mem_cons.mpr ⟨Progress.isSome_outcome_runAll hm, hi h⟩

-- Two runs side by side: what each tick keeps of a pair of plans holds at each pair of ticks.
theorem forall₂_run {p q : Plan} {motive : Plan → Plan → Prop} {meet : Moment → Moment → Prop}
    {conclusion : Ticked → Ticked → Prop} {moments moments' : List Moment} (h : motive p q)
    (tick : ∀ p q m m', motive p q → meet m m' →
      (p.tickAt m).outcome.isSome → (q.tickAt m').outcome.isSome →
      motive (p.tickAt m).plan (q.tickAt m').plan ∧ conclusion (p.tickAt m) (q.tickAt m'))
    (hm : List.Forall₂ meet moments moments') (hp : ∀ t ∈ p.run moments, t.outcome.isSome)
    (hq : ∀ t ∈ q.run moments', t.outcome.isSome) :
    List.Forall₂ conclusion (p.run moments) (q.run moments') := by
  induction hm generalizing p q
  case nil          => exact .nil
  case cons hm _ hi =>
    have ⟨hp, hps⟩ := List.forall_mem_cons.mp hp
    have ⟨hq, hqs⟩ := List.forall_mem_cons.mp hq
    have ⟨hn, hc⟩ := tick p q _ _ h hm hp hq
    exact .cons hc <| hi hn hps hqs

end Plan

end SignalFlow
