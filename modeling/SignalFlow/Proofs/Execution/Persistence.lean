import SignalFlow.Proofs.Plan.Recovery
import SignalFlow.Proofs.Temporal.Blob

/-!
The store knows the machines of a running plan: what is stored for a node gives its machine back,
bit for bit, although a machine is written only when it changes. A plan that is compiled anew from
the store goes on where the running one stands.
-/

namespace SignalFlow

theorem Compile.recover_ofMachine {m : Machine} (h : m.Storable) :
    recover m.kind (some (.ofMachine m)) = m := by
  simp [recover, Blob.machine?_ofMachine h.countable]

@[simp] theorem Compile.kind_recover (kind : MachineKind) (stored : Option Blob) :
    (recover kind stored).kind = kind := by
  rw [recover]
  split
  case h_2 => exact Machine.kind_zero kind
  case h_1 m _ =>
    split
    case isTrue h  => exact h
    case isFalse h => exact Machine.kind_zero kind

namespace Plan

-- The machines are those that would be recovered from the store, and they can be stored again.
structure Kept (p : Plan) (slots : String → Option (Blob × Int)) : Prop where
  machines : ∀ id, p.machines.get? id = p.recovered slots id
  storable : ∀ id m, p.machines.get? id = some m → m.Storable

variable {p q : Plan} {slots : String → Option (Blob × Int)} {id : String} {m : Machine}

theorem recovered_of_blank_eq (h : q.blank = p.blank) : q.recovered = p.recovered := by
  funext slots id
  rw [recovered, machineKind?_of_blank_eq h, recovered]

theorem Kept.congr (h : p.Kept slots) (hb : q.blank = p.blank) (hm : q.machines = p.machines) :
    q.Kept slots where
  machines id     := by rw [hm, h.machines, recovered_of_blank_eq hb]
  storable id m h' := h.storable id m (hm ▸ h')

theorem Kept.machineKind?_eq (h : p.Kept slots) (hm : p.machines.get? id = some m) :
    p.machineKind? id = some m.kind := by
  rw [h.machines, recovered] at hm
  obtain ⟨kind, hk, rfl⟩ := Option.map_eq_some_iff.mp hm
  rw [hk, Compile.kind_recover]

-- A machine that moved is stored under the key of its node.
theorem Kept.update (h : p.Kept slots) (hb : q.blank = p.blank) {before : Machine}
    (hbefore : p.machines.get? id = some before) (hkind : m.kind = before.kind)
    (hm : m.Storable) (deadline : Int)
    (hq : ∀ k, q.machines.get? k = if k = id then some m else p.machines.get? k) :
    q.Kept (Function.update slots id (some (.ofMachine m, deadline))) where
  machines k     := by
    rw [hq, recovered_of_blank_eq hb]
    split
    case isFalse hk => rw [h.machines, recovered, recovered, Function.update_of_ne hk]
    case isTrue hk  =>
      subst hk
      rw [recovered, h.machineKind?_eq hbefore, ←hkind, Function.update_self, Option.map_some,
        Option.map_some, Compile.recover_ofMachine hm]
  storable k m' hk := by
    rw [hq] at hk
    split at hk
    case isTrue  => cases hk; exact hm
    case isFalse => exact h.storable k m' hk

end Plan

namespace Progress

variable {p : Progress} {s : Surroundings} {id : String} {n : PlanNode} {m : Machine}
  {slots : String → Option (Blob × Int)}

theorem same_of_changed? {before after : Machine}
    (h : changed? (some before) (some after) = none) : before.same after := by
  rw [changed?] at h
  split at h
  case isTrue hs => exact hs
  case isFalse   => cases h

theorem eq_of_changed? {before after : Option Machine} (h : changed? before after = some m) :
    after = some m := by
  cases before <;> cases after
  case some.some before after =>
    rw [changed?] at h
    split at h
    case isTrue  => cases h
    case isFalse => exact h
  all_goals cases h

-- A node that does not run has nothing to store.
theorem step_snd (hn : p.plan.nodes.get? id = some n) :
    (p.step s id).2 = none ∧ (p.turn s id n).2 = p.plan.machines.get? id ∨
      (p.step s id).2 = changed? (p.plan.machines.get? id) (p.turn s id n).2 := by
  simp only [step, hn, turn]
  cases p.blocker? n
  case some => exact .inl ⟨rfl, rfl⟩
  case none =>
    dsimp only
    split <;> exact .inr rfl

theorem turn_machine_cases (p : Progress) (s : Surroundings) (id : String) (n : PlanNode) :
    (p.turn s id n).2 = p.plan.machines.get? id ∨ ∃ m node input,
      p.plan.machines.get? id = some m ∧
        (p.turn s id n).2 = some (m.advance node input (.ofFloat s.now.toFloat)).1 := by
  rw [turn]
  split
  case h_1 => exact .inl rfl
  case h_2 =>
    refine ((p.view id n).run_machine s n.kind (p.plan.machines.get? id)).imp_right ?_
    rintro ⟨m, input, hm, ha⟩
    exact ⟨m, _, input, hm, ha⟩

-- The machine of a node before and after its turn: it is still of its kind and can be stored, and
-- if it is the same number by number, then it is the same.
structure Moves (before after : Machine) : Prop where
  kind     : after.kind = before.kind
  storable : after.Storable
  same     : before.same after → after = before

theorem moves_turn (h : p.plan.Kept slots) (hm : (p.turn s id n).2 = some m) :
    ∃ before, p.plan.machines.get? id = some before ∧ Moves before m := by
  cases p.turn_machine_cases s id n
  case inl he =>
    have hb := he.symm.trans hm
    exact ⟨m, hb, rfl, h.storable id m hb, fun _ => rfl⟩
  case inr he =>
    have ⟨before, node, input, hb, he⟩ := he
    have hs := h.storable id before hb
    have hn := Stamp.isPlain_ofFloat_toFloat s.now
    cases he.symm.trans hm
    refine ⟨before, hb, ?_⟩
    constructor
    case kind     => exact Machine.kind_advance
    case storable => exact hs.advance node input hn
    case same     => exact Machine.eq_of_same_advance hs hn

-- What is not stored is stored already.
theorem kept_step_of_eq_none (h : p.plan.Kept slots) (hs : (p.step s id).2 = none) :
    (p.step s id).1.plan.Kept slots := by
  cases hn : p.plan.nodes.get? id
  case none   => rwa [step_of_get?_eq_none hn]
  case some n =>
    refine h.congr blank_step <| Dict.ext_get? fun k => ?_
    rw [get?_machines_step hn]
    split
    case isFalse    => rfl
    case isTrue hk =>
      subst hk
      cases step_snd (s := s) hn
      case inl hm => exact hm.right
      case inr hm =>
        cases ha : (p.turn s k n).2
        case none       => exact (turn_machine ha).symm
        case some after =>
          have ⟨before, hb, hmoves⟩ := moves_turn h ha
          rw [hs, hb, ha] at hm
          rw [hb, hmoves.same <| same_of_changed? hm.symm]

theorem kept_step_of_eq_some (h : p.plan.Kept slots) (hs : (p.step s id).2 = some m)
    (deadline : Int) :
    (p.step s id).1.plan.Kept (Function.update slots id (some (.ofMachine m, deadline))) := by
  cases hn : p.plan.nodes.get? id
  case none   => rw [step_of_get?_eq_none hn] at hs; cases hs
  case some n =>
    have ha : (p.turn s id n).2 = some m := by
      cases step_snd (s := s) hn
      case inl hm => cases hm.left.symm.trans hs
      case inr hm => exact eq_of_changed? <| hm.symm.trans hs
    have ⟨before, hb, hmoves⟩ := moves_turn h ha
    refine h.update blank_step hb hmoves.kind hmoves.storable deadline fun k => ?_
    rw [get?_machines_step hn, ha]

section RunAll

variable {ttl : Nat} {services : Services} {ids : List String} {l l' : StoreLink}

theorem calls_le_of_runAll (hs : services.store = some l)
    (hs' : (p.runAll s ttl services ids).services.store = some l') : l.calls ≤ l'.calls := by
  have ⟨k, hk, hle⟩ :
      ∃ k, (p.runAll s ttl services ids).services.store = some k ∧ l.calls ≤ k.calls := by
    refine exists_store_runAll hs (Nat.le_refl _) fun k key blob hk => ?_
    rw [StoreLink.calls_write]
    omega
  cases hk.symm.trans hs'
  exact hle

-- The store knows the machines after each node, provided that it takes what it is given.
theorem kept_runAll (h : p.plan.Kept (l.slots p.plan.strategy p.plan.symbol))
    (hs : services.store = some l) (ho : (p.runAll s ttl services ids).outcome.isSome)
    (hs' : (p.runAll s ttl services ids).services.store = some l') (hr : l.Reaches l') :
    (p.runAll s ttl services ids).plan.Kept (l'.slots p.plan.strategy p.plan.symbol) := by
  induction ids generalizing p services l
  case nil            => cases hs.symm.trans hs'; exact h
  case cons id ids hi =>
    have hb : (p.step s id).1.plan.blank = p.plan.blank := blank_step
    have hi {services l} := @hi (p.step s id).1 services l
    rw [Plan.strategy_eq_of_blank_eq hb, Plan.symbol_eq_of_blank_eq hb] at hi
    cases hm : (p.step s id).2
    case none   =>
      rw [runAll_of_eq_none hm] at ho hs' ⊢
      exact hi (kept_step_of_eq_none h hm) hs ho hs' hr
    case some m =>
      rw [runAll_of_eq_some hm hs] at ho hs' ⊢
      have hc := l.calls_write (p.plan.stateKey id) (.ofMachine m) ttl
      dsimp only at ho hs' ⊢
      split at ho
      case isFalse   => cases ho
      case isTrue hw =>
        rw [if_pos hw] at hs' ⊢
        have hle := calls_le_of_runAll rfl hs'
        have hup := hr l.calls (Nat.le_refl _) (by omega)
        have hslots := StoreLink.slots_write hup hw
        refine hi (hslots ▸ kept_step_of_eq_some h hm _) rfl ho hs' fun k hk hk' => ?_
        rw [StoreLink.condition_write]
        exact hr k (by omega) hk'

end RunAll

end Progress

namespace Plan

variable {p q : Plan} {slots : String → Option (Blob × Int)}

-- Where a plan stands after some ticks, and what the store holds for it then. Every tick finds in
-- its store what the one before left there, and the store takes each machine that it is given.
inductive Journey (p : Plan) : Plan → (String → Option (Blob × Int)) → Prop
  | start : Journey p p fun _ => none
  | tick {q : Plan} {m : Moment} {l l' : StoreLink}
      (before : Journey p q (l.slots p.strategy p.symbol))
      (given : m.services.store = some l)
      (ends : (q.tickAt m).outcome.isSome)
      (left : (q.tickAt m).services.store = some l')
      (taken : l.Reaches l') :
    Journey p (q.tickAt m).plan (l'.slots p.strategy p.symbol)

theorem Journey.blank_eq (h : p.Journey q slots) : q.blank = p.blank := by
  induction h
  case start       => rfl
  case tick hi => exact (blank_tickAt _ _).trans hi

theorem Journey.kept (h : p.Journey q slots) (hp : p.Kept fun _ => none) : q.Kept slots := by
  induction h
  case start                                    => exact hp
  case tick q m l l' before given ends left taken hi =>
    have hb := before.blank_eq
    rw [←strategy_eq_of_blank_eq hb, ←symbol_eq_of_blank_eq hb] at hi ⊢
    exact Progress.kept_runAll (hi.congr (q := q.reset) blank_reset rfl) given ends left taken

-- A run starts from the machines, not from the states that the nodes have come to.
theorem run_eq_of_blank_eq (hb : q.blank = p.blank) (hm : q.machines = p.machines)
    (moments : List Moment) : q.run moments = p.run moments := by
  cases moments
  case nil            => rfl
  case cons m moments =>
    have ht : q.tickAt m = p.tickAt m := by
      rw [tickAt, reset_eq_of_blank_eq hb hm, order_eq_of_blank_eq hb, tickAt]
    rw [run, ht, run]

section Compile

variable {g : Graph} {setup : Setup} {services services' : Services} {strategy symbol : String}
  {l : StoreLink}

-- A plan that is compiled anew, when all that is stored for it can be read.
theorem machines_of_compile (hc : (g.compile setup services strategy symbol).1 = .ok p)
    (hs : services.store = some l) (live : ∀ id, ∀ e ∈ l.slots strategy symbol id, l.now < e.2)
    (up : ∀ l' ∈ (g.compile setup services strategy symbol).2.store, l.Reaches l') :
    ∀ id, p.machines.get? id = p.recovered (l.slots strategy symbol) id :=
  (Graph.equipped_of_compile hc hs fun l' hl' _ => .inr ⟨up l' hl', live _⟩).right.right

-- A plan that is compiled for the first time.
theorem kept_of_compile (hc : (g.compile setup services strategy symbol).1 = .ok p)
    (hs : services.store = some l) (fresh : l.slots strategy symbol = fun _ => none) :
    p.Kept fun _ => none := by
  have ⟨_, _, hm⟩ := Graph.equipped_of_compile hc hs fun l' _ id => .inl <| congrFun fresh id
  rw [fresh] at hm
  refine ⟨hm, fun id m h => ?_⟩
  have ⟨kind, _, he⟩ := Option.map_eq_some_iff.mp <| (hm id).symm.trans h
  exact he ▸ Machine.storable_zero kind

-- A plan whose machines are stored as they change goes on where it stands when it is compiled anew:
-- it has the machines that it had, and each later run comes to the same.
theorem resumes_of_compile (hc : (g.compile setup services strategy symbol).1 = .ok p)
    {l₀ : StoreLink} (hs : services.store = some l₀)
    (fresh : l₀.slots strategy symbol = fun _ => none) (hj : p.Journey q slots)
    (hs' : services'.store = some l) (hl : l.slots strategy symbol = slots)
    (live : ∀ id, ∀ e ∈ slots id, l.now < e.2)
    (up : ∀ l' ∈ (g.compile setup services' strategy symbol).2.store, l.Reaches l') :
    ∃ p', (g.compile setup services' strategy symbol).1 = .ok p' ∧ p'.machines = q.machines ∧
      (∀ id, (p'.machines.get? id).map Machine.kind = p'.machineKind? id) ∧
      ∀ moments, p'.run moments = q.run moments := by
  subst hl
  have ⟨p', hc', hbare⟩ := Graph.exists_compile_bare hc services'
  have hb : q.blank = p'.blank := by
    rw [hj.blank_eq, blank_eq_reset_bare, blank_eq_reset_bare, hbare]
  have hm' := machines_of_compile hc' hs' live up
  have hm : p'.machines = q.machines := Dict.ext_get? fun id => by
    rw [hm', (hj.kept <| kept_of_compile hc hs fresh).machines, recovered_of_blank_eq hb]
  have kinds id : (p'.machines.get? id).map Machine.kind = p'.machineKind? id := by
    rw [hm', recovered, Option.map_map]
    cases p'.machineKind? id
    case none      => rfl
    case some kind => exact congrArg some <| Compile.kind_recover kind _
  exact ⟨p', hc', hm, kinds, run_eq_of_blank_eq hb.symm hm⟩

end Compile

-- A store that holds nothing yet, and that is always up.
def emptyShelf : Services where
  store := some { store := .empty }

theorem resumes_vigil :
    ∃ p, (Graph.vigil.compile {} emptyShelf "vigil" "BTC").1 = .ok p ∧
      let t := p.tickAt { Moment.noon none with services := emptyShelf }
      ∃ p', (Graph.vigil.compile {} t.services "vigil" "BTC").1 = .ok p' ∧
        p'.machines = t.plan.machines ∧
        (∀ id, (p'.machines.get? id).map Machine.kind = p'.machineKind? id) ∧
        ∀ moments, p'.run moments = t.plan.run moments := by
  have ⟨p, hc⟩ := Graph.exists_compile (fun v hv => by cases hv) Graph.wellFormed_vigil emptyShelf
    "vigil" "BTC"
  have ⟨hstrategy, hsymbol, _⟩ := Graph.equipped_of_compile hc rfl fun _ _ _ => .inl rfl
  refine ⟨p, hc, ?_⟩
  intro t
  have ends : t.outcome.isSome := Progress.isSome_outcome_runAll fun l hl => by cases hl; rfl
  have ⟨l, left, up, live⟩ :
      ∃ l, t.services.store = some l ∧ l.condition = (fun _ => .up) ∧ l.Live := by
    refine Progress.exists_store_runAll rfl ?_ ?_
    · exact ⟨rfl, fun text e he => by cases he⟩
    · intro l key blob ⟨up, live⟩
      exact ⟨(l.condition_write key blob _).trans up, live.write (by decide)⟩
  have journey : p.Journey t.plan (l.slots p.strategy p.symbol) :=
    .tick .start rfl ends left fun _ _ _ => rfl
  have hl : l.slots "vigil" "BTC" = l.slots p.strategy p.symbol := by rw [hstrategy, hsymbol]
  exact resumes_of_compile hc rfl rfl journey left hl (fun _ => live _) fun _ _ k _ _ => by rw [up]

end Plan

end SignalFlow
