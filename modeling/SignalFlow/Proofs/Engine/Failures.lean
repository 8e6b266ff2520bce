import SignalFlow.Proofs.Engine.Deployments
import SignalFlow.Proofs.Plan.Requests

/-!
Deployments that fail. Everything that may go wrong goes wrong before a service is asked for
anything, and the engine takes a plan over only when it has one.
-/

open Relation

namespace SignalFlow

namespace Engine

variable {e : Engine} {strategy symbol id : String} {g : Graph} {error : EngineError}

theorem snd_start_of_error (h : (e.start strategy g symbol).1 = .error error) :
    (e.start strategy g symbol).2 = e := by
  rw [start] at h ⊢
  split at h
  case h_1 _ services hc =>
    have hs : services = e.services :=
      (congrArg Prod.snd hc).symm.trans <| Graph.services_of_compile_error <| congrArg Prod.fst hc
    rw [hs]
  case h_2 => cases h

theorem snd_reload_of_error (h : (e.reload id g).1 = .error error) : (e.reload id g).2 = e := by
  rw [reload] at h ⊢
  split at h
  case h_1 => rfl
  case h_2 =>
    split at h
    case h_1 _ services hc =>
      have hs : services = e.services :=
        (congrArg Prod.snd hc).symm.trans <| Graph.services_of_compile_error <| congrArg Prod.fst hc
      rw [hs]
    case h_2 => cases h

theorem fst_reload_of_compile_error {s : Session} {error : CompileError}
    (hs : e.session? id = some s)
    (h : (g.compile e.setup e.services s.strategy s.symbol).1 = .error error) :
    (e.reload id g).1 = .error (.compile error) := by
  rw [reload, hs]
  dsimp only
  split
  case h_1 _ _ hc =>
    cases (congrArg Prod.fst hc).symm.trans h
    rfl
  case h_2 hc => cases (congrArg Prod.fst hc).symm.trans h

theorem fst_start_of_compile_error {error : CompileError}
    (h : (g.compile e.setup e.services strategy symbol).1 = .error error) :
    (e.start strategy g symbol).1 = .error (.compile error) := by
  rw [start]
  split
  case h_1 _ _ hc =>
    cases (congrArg Prod.fst hc).symm.trans h
    rfl
  case h_2 hc => cases (congrArg Prod.fst hc).symm.trans h

-- Compilation asks the services for all that the plan needs or, if there is no plan, for nothing.
-- So an engine that fails to start or to reload a session is the one that it was, with its services
-- and all of its sessions.
theorem unchanged_of_error :
    (∀ (g : Graph) (setup : Setup) (services : Services) (strategy symbol : String),
      let compiled := g.compile setup services strategy symbol
      (∀ error, compiled.1 = .error error → compiled.2 = services) ∧
      (∀ p, compiled.1 = .ok p → compiled.2 = p.serve services)) ∧
    (∀ (e : Engine) (strategy : String) (g : Graph) (symbol : String) (error : EngineError),
      (e.start strategy g symbol).1 = .error error → (e.start strategy g symbol).2 = e) ∧
    (∀ (e : Engine) (id : String) (g : Graph) (error : EngineError),
      (e.reload id g).1 = .error error → (e.reload id g).2 = e) :=
  ⟨fun _ _ _ _ _ =>
      ⟨fun _ => Graph.services_of_compile_error, fun _ => Graph.services_of_compile⟩,
    fun _ _ _ _ _ => snd_start_of_error, fun _ _ _ _ => snd_reload_of_error⟩

-- Here what the price has to hold depends on whether it held.
def vigilInCircles : Graph :=
  Graph.vigil.addEdge ⟨"held", "result", "above", "value"⟩

theorem not_wellFormed_vigilInCircles :
    ¬(Registry.stamp vigilInCircles Registry.firstVersion).WellFormed := by
  intro hw
  have hw := Graph.wellFormed_stamp_iff.mp hw
  have feeds (e : Edge) (he : e ∈ vigilInCircles.edges) :
      vigilInCircles.Feeds e.sourceNode e.targetNode := ⟨e, he, rfl, rfl⟩
  exact hw.acyclic "above" <| .tail
    (.single <| feeds ⟨"above", "result", "held", "condition"⟩ <| by decide)
    (feeds ⟨"held", "result", "above", "value"⟩ <| by decide)

-- A session that watches the price stays as it is when it is to run in circles instead. Nothing is
-- read for it, and nothing is registered.
theorem unchanged_vigil :
    let services : Services := { store := some { store := .empty }, feed := some {} }
    let e := (new {} services .epoch).call (.start "vigil" Graph.vigil "BTC")
    (∃ s, e.session? "s1" = some s ∧ s.deployment = ("vigil", "BTC")) ∧
      (e.reload "s1" vigilInCircles).2 = e ∧ (e.start "again" vigilInCircles "ETH").2 = e ∧
      (vigilInCircles.compile {} services "again" "ETH").2 = services ∧
      ∃ p : Plan, (Graph.vigil.compile {} services "vigil" "BTC").2 = p.serve services := by
  intro services e
  have ⟨compiled, started, reloaded⟩ := unchanged_of_error
  have hm : ({} : Setup).registry.migrate vigilInCircles none = .ok _ :=
    Registry.migrate_new fun v hv => by cases hv
  have fails (services : Services) (strategy symbol : String) :=
    Graph.compile_of_not_wellFormed services strategy symbol hm not_wellFormed_vigilInCircles
  have ⟨p, hc⟩ := Graph.exists_compile (fun v hv => by cases hv) Graph.wellFormed_vigil services
    "vigil" "BTC"
  have hs := compiled _ _ _ _ _ |>.right _ hc
  have he : e = { new {} services .epoch with
      services := p.serve services
      sessions := [.new "s1" "vigil" Graph.vigil p {}]
      started  := 1 } := by
    have hc : Graph.vigil.compile {} services "vigil" "BTC" = (.ok p, p.serve services) :=
      Prod.ext hc hs
    simp only [e, call, start, new, hc]
    rfl
  have setup : e.setup = {} := he ▸ rfl
  have live : e.session? "s1" = some (.new "s1" "vigil" Graph.vigil p {}) := he ▸ rfl
  have hd : p.symbol = "BTC" := congrArg StateKey.symbol <| Graph.stateKey_of_compile hc ""
  refine ⟨⟨_, live, Prod.ext rfl hd⟩, ?reload, ?start, ?refused, p, hs⟩
  case reload  => exact reloaded e _ _ _ <| fst_reload_of_compile_error live <| setup ▸ fails ..
  case start   => exact started e _ _ _ _ <| fst_start_of_compile_error <| setup ▸ fails ..
  case refused => exact compiled _ _ _ _ _ |>.left _ <| fails ..

end Engine

end SignalFlow
