import Mathlib.Data.List.Nodup
import SignalFlow.Engine.Basic
import SignalFlow.Proofs.Execution.Steps
import SignalFlow.Proofs.Plan.Recovery
import SignalFlow.Proofs.StateStore.Namespaces

/-!
Which sessions a live engine has side by side. A session is started without a look at the others, so
it is with those who start them that no strategy runs twice for one symbol. Where they see to it, no
session gets at the stored states of another one.
-/

namespace SignalFlow

namespace Session

variable {s t : Session}

-- What a session is deployed as.
def deployment (s : Session) : String × String :=
  (s.strategy, s.symbol)

-- The states of the session are stored under its deployment.
def Keyed (s : Session) : Prop :=
  ∀ node, s.plan.stateKey node = ⟨s.strategy, s.symbol, node⟩

-- Two sessions have nothing in common, in particular no place for the states of their machines. A
-- place is named by a triple; its text names it as well, unless there are colons about.
structure Apart (s t : Session) : Prop where
  id         : s.id ≠ t.id
  deployment : s.deployment ≠ t.deployment
  keys       : ∀ a b, s.plan.stateKey a ≠ t.plan.stateKey b
  texts      : ∀ a b, (s.plan.stateKey a).colons = (t.plan.stateKey b).colons →
    (s.plan.stateKey a).text ≠ (t.plan.stateKey b).text

theorem apart_of_ne (hs : s.Keyed) (ht : t.Keyed) (hi : s.id ≠ t.id)
    (hd : s.deployment ≠ t.deployment) : s.Apart t := by
  have keys (a b) : s.plan.stateKey a ≠ t.plan.stateKey b := by
    intro hk
    rw [hs, ht, StateKey.mk.injEq] at hk
    exact hd <| Prod.ext hk.left hk.right.left
  exact ⟨hi, hd, keys, fun a b hc ht => keys a b <| StateKey.eq_of_text_eq ht hc⟩

-- What of a session the counting of outcomes has no part in.
def core (s : Session) : String × String × String × Bool × Plan :=
  (s.id, s.strategy, s.symbol, s.active, s.plan)

theorem core_recordOutcome (s : Session) (o : Outcome) (now : Instant) :
    (s.recordOutcome o now).core = s.core := by
  rw [recordOutcome]
  refine List.foldlRecOn (motive := fun t : Session => t.core = s.core) _ _ ?_ fun _ h _ _ => h
  exact List.foldlRecOn (motive := fun t : Session => t.core = s.core) _ _ rfl fun _ h _ _ => h

theorem core_run (s : Session) (config : Config) (services : Services) (now : Instant)
    (snapshot : Snapshot) :
    (s.run config services now snapshot).2.core =
      (s.id, s.strategy, s.symbol, s.active,
        (s.plan.execute config services now snapshot).plan) := by
  rw [run]
  cases (s.plan.execute config services now snapshot).outcome
  case none   => rfl
  case some o => exact core_recordOutcome _ o now

theorem Keyed.run (h : s.Keyed) (config : Config) (services : Services) (now : Instant)
    (snapshot : Snapshot) : (s.run config services now snapshot).2.Keyed := by
  have hc := core_run s config services now snapshot
  simp only [core, Prod.mk.injEq] at hc
  have ⟨_, hstrategy, hsymbol, _, hp⟩ := hc
  have hb : (s.plan.execute config services now snapshot).plan.blank = s.plan.blank := by
    rw [Plan.execute, Plan.blank_tickAt]
  intro node
  rw [hstrategy, hsymbol, hp, ←h node, Plan.stateKey, Plan.stateKey,
    Plan.strategy_eq_of_blank_eq hb, Plan.symbol_eq_of_blank_eq hb]

end Session

-- What may happen to an engine.
inductive EngineCall where
  | start (strategy : String) (graph : Graph) (symbol : String)
  | stop (id : String)
  | reload (id : String) (graph : Graph)
  | update (update : IndicatorUpdate)
  -- time passes, and others use the services
  | meanwhile (services : Services) (clock : Instant)

namespace Engine

def call (e : Engine) : EngineCall → Engine
  | .start strategy graph symbol => (e.start strategy graph symbol).2
  | .stop id                     => (e.stop id).2
  | .reload id graph             => (e.reload id graph).2
  | .update update               => (e.update update).2
  | .meanwhile services clock    => { e with services, clock }

def after (e : Engine) (calls : List EngineCall) : Engine :=
  calls.foldl call e

-- The live sessions, and what they are deployed as.
def roster (e : Engine) : List (String × String × String) :=
  e.sessions.map fun s => (s.id, s.deployment)

-- What holds of an engine at any time.
structure Consistent (e : Engine) : Prop where
  distinct : (e.roster.map Prod.fst).Nodup
  numbered : ∀ x ∈ e.roster, ∃ n, n ≤ e.started ∧ x.1 = sessionId n
  keyed    : ∀ s ∈ e.sessions, s.Keyed

-- No two live sessions have anything in common.
def Exclusive (e : Engine) : Prop :=
  e.sessions.Pairwise Session.Apart

-- No live session is deployed so.
def Free (e : Engine) (deployment : String × String) : Prop :=
  ∀ s ∈ e.sessions, s.deployment ≠ deployment

-- What the call deploys. It deploys nothing unless it is a start, and one that succeeds.
def deploys? (e : Engine) : EngineCall → Option (String × String)
  | .start strategy graph symbol =>
    match graph.compile e.setup e.services strategy symbol with
    | (.ok _, _)    => some (strategy, symbol)
    | (.error _, _) => none
  | _ => none

-- The sessions stay the ones that they were, whatever they have come to.
structure Keeps (e e' : Engine) : Prop where
  roster  : e'.roster = e.roster
  started : e'.started = e.started
  keyed   : ∀ s ∈ e'.sessions, s.Keyed

-- What a call does to the sessions.
inductive Change (e : Engine) (c : EngineCall) (e' : Engine) : Prop
  | kept (idle : e.deploys? c = none) (keeps : e.Keeps e')
  | started (s : Session) (deploys : e.deploys? c = some s.deployment)
    (id : s.id = sessionId (e.started + 1)) (keyed : s.Keyed)
    (sessions : e'.sessions = e.sessions ++ [s]) (count : e'.started = e.started + 1)
  | stopped (idle : e.deploys? c = none) (id : String)
    (sessions : e'.sessions = e.sessions.filter (·.id ≠ id)) (count : e'.started = e.started)

variable {e e' : Engine} {s : Session} {c : EngineCall}

theorem sessionId_inj {m n : Nat} (h : sessionId m = sessionId n) : m = n := by
  have h := (String.append_right_inj _).mp h
  rw [Nat.toString_eq_ofList_toDigits, Nat.toString_eq_ofList_toDigits, String.ofList_inj] at h
  have h := congrArg (Nat.ofDigitChars 10 · 0) h
  rwa [Nat.ofDigitChars_ten_toDigits, Nat.ofDigitChars_ten_toDigits] at h

theorem session?_some {id : String} (h : e.session? id = some s) : s ∈ e.sessions ∧ s.id = id :=
  ⟨List.mem_of_find?_eq_some h, by simpa using List.find?_some h⟩

theorem roster_concat (h : e'.sessions = e.sessions ++ [s]) :
    e'.roster = e.roster ++ [(s.id, s.deployment)] := by
  rw [roster, roster, h, List.map_append]
  rfl

theorem roster_sublist {keep : Session → Bool} (h : e'.sessions = e.sessions.filter keep) :
    e'.roster.Sublist e.roster := by
  rw [roster, roster, h]
  exact List.filter_sublist.map _

theorem Consistent.congr (h : e.Consistent) (hk : e.Keeps e') : e'.Consistent where
  distinct := hk.roster ▸ h.distinct
  numbered := hk.roster ▸ hk.started ▸ h.numbered
  keyed    := hk.keyed

-- Whatever is not in the sessions does not matter.
theorem Consistent.keeps_of_eq (h : e.Consistent) (hs : e'.sessions = e.sessions)
    (hn : e'.started = e.started) : e.Keeps e' :=
  ⟨by rw [roster, roster, hs], hn, hs ▸ h.keyed⟩

theorem Consistent.keeps_replaceSession (h : e.Consistent) (hm : (s.id, s.deployment) ∈ e.roster)
    (hk : s.Keyed) : e.Keeps (e.replaceSession s) := by
  constructor
  case started => rfl
  case keyed   =>
    intro t ht
    have ⟨old, ho, ht⟩ := List.mem_map.mp ht
    split at ht
    case isTrue  => exact ht ▸ hk
    case isFalse => exact ht ▸ h.keyed old ho
  case roster  =>
    rw [roster, replaceSession, List.map_map, roster]
    apply List.map_congr_left
    intro old ho
    rw [Function.comp_apply]
    split
    case isTrue hi =>
      exact List.inj_on_of_nodup_map h.distinct hm (List.mem_map_of_mem ho) hi.symm
    case isFalse => rfl

theorem Keeps.trans {e'' : Engine} (h : e.Keeps e') (h' : e'.Keeps e'') : e.Keeps e'' :=
  ⟨h'.roster.trans h.roster, h'.started.trans h.started, h'.keyed⟩

theorem Consistent.keeps_runSession (h : e.Consistent) (hm : (s.id, s.deployment) ∈ e.roster)
    (hk : s.Keyed) (snapshot : Snapshot) : e.Keeps (e.runSession snapshot s).2 := by
  have hc := s.core_run e.setup.config e.services e.clock snapshot
  have hk := hk.run e.setup.config e.services e.clock snapshot
  rw [runSession]
  generalize s.run e.setup.config e.services e.clock snapshot = ran at hc hk
  simp only [Session.core, Prod.mk.injEq] at hc
  have ⟨hid, hstrategy, hsymbol, _⟩ := hc
  have hm : (ran.2.id, ran.2.deployment) ∈ e.roster := by
    rwa [Session.deployment, hid, hstrategy, hsymbol]
  have hr (services bus) : e.Keeps { e with services, bus } := h.keeps_of_eq rfl rfl
  exact (hr _ _).trans <| (h.congr <| hr _ _).keeps_replaceSession hm hk

-- A session that has its turn late in an update may have been replaced by then, but not by one that
-- is deployed as something else.
theorem Consistent.keeps_update (h : e.Consistent) (u : IndicatorUpdate) :
    e.Keeps (e.update u).2 := by
  rw [update]
  refine List.foldlRecOn (motive := fun state : List Signal × Engine => e.Keeps state.2) _ _
    (h.keeps_of_eq rfl rfl) ?_
  intro state hs s hm
  have hm := List.mem_of_mem_filter hm
  have mem : (s.id, s.deployment) ∈ state.2.roster := hs.roster ▸ List.mem_map_of_mem hm
  exact hs.trans <| (h.congr hs).keeps_runSession mem (h.keyed s hm) _

-- Everything that a call can do to the sessions.
theorem Consistent.change (h : e.Consistent) (c : EngineCall) : e.Change c (e.call c) := by
  cases c
  case start strategy graph symbol =>
    cases hc : graph.compile e.setup e.services strategy symbol
    case mk compiled services =>
      cases compiled
      case error error =>
        simp only [call, start, hc]
        exact .kept (by simp only [deploys?, hc]) <| h.keeps_of_eq rfl rfl
      case ok p =>
        have hk := Graph.stateKey_of_compile (congrArg Prod.fst hc)
        have hsymbol : p.symbol = symbol := congrArg StateKey.symbol (hk "")
        simp only [call, start, hc]
        refine .started (.new _ strategy graph p e.setup.config) ?_ rfl ?_ rfl rfl
        · simp only [deploys?, hc, Session.deployment, Session.new, hsymbol]
        · exact fun node => (hk node).trans <| hsymbol ▸ rfl
  case stop id =>
    rw [call, stop]
    split
    case h_1 => exact .kept rfl <| h.keeps_of_eq rfl rfl
    case h_2 => exact .stopped rfl id rfl rfl
  case reload id graph =>
    rw [call, reload]
    split
    case h_1 => exact .kept rfl <| h.keeps_of_eq rfl rfl
    case h_2 s hs =>
      have hm : s ∈ e.sessions := List.mem_of_find?_eq_some hs
      split
      case h_1 => exact .kept rfl <| h.keeps_of_eq rfl rfl
      case h_2 p services hc =>
        have hr : e.Keeps { e with services } := h.keeps_of_eq rfl rfl
        have hk := Graph.stateKey_of_compile (congrArg Prod.fst hc)
        refine .kept rfl <| hr.trans <| (h.congr hr).keeps_replaceSession ?_ hk
        exact List.mem_map_of_mem (f := fun s => (s.id, s.deployment)) hm
  case update u                 => exact .kept rfl <| h.keeps_update u
  case meanwhile services clock => exact .kept rfl <| h.keeps_of_eq rfl rfl

theorem Consistent.call (h : e.Consistent) (c : EngineCall) : (e.call c).Consistent := by
  cases h.change c
  case kept _ hk              => exact h.congr hk
  case stopped _ id hs hn     =>
    have hr := roster_sublist hs
    constructor
    case distinct => exact (hr.map _).nodup h.distinct
    case numbered => exact hn ▸ fun x hx => h.numbered x <| hr.subset hx
    case keyed    => exact hs ▸ fun s hm => h.keyed s <| List.mem_of_mem_filter hm
  case started s _ hi hk hs hn =>
    have hr := roster_concat hs
    constructor
    case distinct =>
      rw [hr, List.map_append]
      refine List.nodup_append.mpr ⟨h.distinct, List.nodup_singleton _, ?_⟩
      intro id hid _ hs he
      cases List.mem_singleton.mp hs
      have ⟨x, hx, hid⟩ := List.mem_map.mp hid
      have ⟨n, hn, hx⟩ := h.numbered x hx
      have := sessionId_inj <| hx.symm.trans <| hid.trans <| he.trans hi
      omega
    case numbered =>
      intro x hx
      rw [hr, List.mem_append, List.mem_singleton] at hx
      cases hx
      case inl hx =>
        have ⟨n, hle, hx⟩ := h.numbered x hx
        exact ⟨n, hn ▸ Nat.le_succ_of_le hle, hx⟩
      case inr hx => exact ⟨e.started + 1, hn ▸ Nat.le_refl _, hx ▸ hi⟩
    case keyed    =>
      intro t ht
      rw [hs, List.mem_append, List.mem_singleton] at ht
      exact ht.elim (h.keyed t) (· ▸ hk)

theorem consistent_new (setup : Setup) (services : Services) (clock : Instant) :
    (new setup services clock).Consistent :=
  ⟨.nil, nofun, nofun⟩

theorem Consistent.after (h : e.Consistent) (calls : List EngineCall) :
    (e.after calls).Consistent :=
  List.foldlRecOn (motive := Consistent) _ _ h fun _ h c _ => h.call c

-- Of two sessions that are deployed as different things, all the rest differs, too.
theorem Consistent.exclusive_iff (h : e.Consistent) :
    e.Exclusive ↔ (e.roster.map Prod.snd).Nodup := by
  have hid := h.distinct
  rw [roster, List.map_map, List.Nodup, List.pairwise_map] at hid
  rw [Exclusive, roster, List.map_map, List.Nodup, List.pairwise_map]
  constructor
  case mp  => exact fun he => he.imp Session.Apart.deployment
  case mpr =>
    intro hd
    apply (hid.and hd).imp_of_mem
    exact fun hs ht hn => Session.apart_of_ne (h.keyed _ hs) (h.keyed _ ht) hn.left hn.right

-- Of all calls only a start can end it that sessions have nothing in common, and it does if it
-- succeeds with a strategy that runs for the symbol already.
theorem Consistent.exclusive_call (h : e.Consistent) (he : e.Exclusive) :
    (e.call c).Exclusive ↔ ∀ d ∈ e.deploys? c, e.Free d := by
  have he := h.exclusive_iff.mp he
  rw [(h.call c).exclusive_iff]
  cases h.change c
  case kept hc hk         => simp [hc, hk.roster, he]
  case stopped hc id hs _ =>
    have hr := roster_sublist hs
    simp [hc, (hr.map _).nodup he]
  case started s hc _ _ hs _ =>
    have hf : e.Free s.deployment ↔ ∀ d ∈ e.roster.map Prod.snd, d ≠ s.deployment := by
      simp [Free, roster]
    simp [hc, roster_concat hs, hf, List.nodup_append, he]

-- As long as every start that succeeds is that of a strategy which does not run for the symbol yet,
-- no two sessions have anything in common, and no longer.
theorem exclusive_iff_free (setup : Setup) (services : Services) (clock : Instant)
    (calls : List EngineCall) :
    let e := new setup services clock
    (∀ done, done <+: calls → (e.after done).Exclusive) ↔
      ∀ done c, done ++ [c] <+: calls → ∀ d ∈ (e.after done).deploys? c, (e.after done).Free d := by
  intro e
  have step (done) (c) (he : (e.after done).Exclusive) :=
    ((consistent_new setup services clock).after done).exclusive_call (c := c) he
  have last (done) (c) : e.after (done ++ [c]) = (e.after done).call c := by
    rw [after, List.foldl_append]
    rfl
  constructor
  case mp  =>
    intro he done c hc
    have hd := (List.prefix_append done [c]).trans hc
    exact (step done c <| he done hd).mp <| last done c ▸ he _ hc
  case mpr =>
    intro hf done hd
    induction done using List.reverseRecOn
    case nil                       => exact .nil
    case append_singleton done c hi =>
      have he := hi <| (List.prefix_append done [c]).trans hd
      exact last done c ▸ (step done c he).mpr (hf done c hd)

theorem Consistent.exists_started (h : e.Consistent) {d : String × String}
    (hd : e.deploys? c = some d) :
    ∃ s, (e.call c).sessions = e.sessions ++ [s] ∧ s.deployment = d ∧ s.Keyed := by
  cases h.change c
  case kept hc _              => cases hc.symm.trans hd
  case stopped hc _ _ _       => cases hc.symm.trans hd
  case started s hc _ hk hs _ => exact ⟨s, hs, Option.some.inj <| hc.symm.trans hd, hk⟩

theorem deploys?_vigil (he : e.setup = {}) :
    e.deploys? (.start "vigil" Graph.vigil "BTC") = some ("vigil", "BTC") := by
  have ⟨p, hc⟩ := Graph.exists_compile (fun v hv => by cases hv) Graph.wellFormed_vigil e.services
    "vigil" "BTC"
  rw [←he] at hc
  rw [deploys?]
  split
  case h_1            => rfl
  case h_2 error _ he => rw [he] at hc; cases hc

-- A strategy may be started twice for one symbol. Its states are then stored in the same places.
theorem exists_same_deployment :
    let start := EngineCall.start "vigil" Graph.vigil "BTC"
    ∃ s t, ((new {} {} .epoch).after [start, start]).sessions = [s, t] ∧ s.id ≠ t.id ∧
      s.deployment = ("vigil", "BTC") ∧ t.deployment = ("vigil", "BTC") ∧
      s.plan.stateKey "held" = t.plan.stateKey "held" := by
  intro start
  have h := consistent_new {} {} .epoch
  have setup : ((new {} {} .epoch).call start).setup = {} := by
    simp only [start, call, Engine.start]
    split <;> rfl
  have ⟨s, hs, hd, hk⟩ := h.exists_started (deploys?_vigil rfl)
  have ⟨t, hs', hd', hk'⟩ := (h.call start).exists_started (deploys?_vigil setup)
  have sessions : ((new {} {} .epoch).after [start, start]).sessions = [s, t] :=
    hs'.trans <| hs ▸ rfl
  refine ⟨s, t, sessions, ?_, hd, hd', ?_⟩
  case refine_1 =>
    have hn := (h.after [start, start]).distinct
    rw [roster, sessions] at hn
    simpa using hn
  case refine_2 =>
    have := Prod.ext_iff.mp <| hd.trans hd'.symm
    rw [hk, hk']
    exact congrArg₂ (StateKey.mk · · "held") this.left this.right

end Engine

end SignalFlow
