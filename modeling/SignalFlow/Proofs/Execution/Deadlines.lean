import SignalFlow.Config
import SignalFlow.Proofs.Execution.Observations
import SignalFlow.Proofs.Execution.Turns
import SignalFlow.Proofs.Json.Numerals
import SignalFlow.Proofs.Plan.Wiring

/-!
How long machines are kept. A configuration may ask for any number of seconds in 64 bits without a
sign, and times are counted in 64 bits with one. So there are configurations under which a store has
no deadline for what it is given, and a tick breaks off as soon as there is a machine to store.
-/

namespace SignalFlow

theorem Document.unsigned?_le {d : Document} {n : Nat} (h : d.unsigned? = some n) :
    (n : Int) ≤ greatestUnsigned := by
  cases d
  case num x =>
    cases x
    case float    => cases h
    case int i hi =>
      simp only [unsigned?, Number.unsigned?] at h
      split at h
      case isFalse     => cases h
      case isTrue hpos => cases h; exact (Int.toNat_of_nonneg hpos).symm ▸ hi.right
  all_goals cases h

namespace Config

-- A configuration that can be had: the default one or what is in a file, and on top of it what the
-- environment says.
inductive Loads (config : Config) : Prop
  | default {env : String → Option String} (overridden : withEnvironment {} env = .ok config)
  | file {text : String} {c : Config} {env : String → Option String} (parsed : parse? text = .ok c)
    (overridden : c.withEnvironment env = .ok config)

variable {c config : Config} {n ttl : Nat}

theorem unsignedText?_le {value : String} (h : unsignedText? value = some n) :
    (n : Int) ≤ greatestUnsigned := by
  simp only [unsignedText?, Option.ite_none_left_eq_some, Option.ite_none_right_eq_some] at h
  have ⟨_, hn, he⟩ := h
  exact Option.some.inj he ▸ hn

theorem unsignedText?_plus (h : (n : Int) ≤ greatestUnsigned) :
    unsignedText? ("+" ++ toString n) = some n := by
  have hs : ("+" ++ toString n).toList = '+' :: Nat.toDigits 10 n := by simp [toString, Nat.repr]
  have hd : (Nat.toDigits 10 n).all Char.isDigit :=
    List.all_eq_true.mpr fun c hc => Nat.isDigit_of_mem_toDigits (by decide) (by decide) hc
  have hv : (Nat.toDigits 10 n).foldl (fun n c => 10 * n + (c.toNat - '0'.toNat)) 0 = n :=
    Json.digitsValue_toDigits n
  have hne : (Nat.toDigits 10 n).isEmpty = false := by simp
  simp only [unsignedText?, hs, hd, hv, hne, h, Bool.not_true, Bool.or_false, if_true]
  rfl

theorem stateTtl_le_of_withEnvironment {env : String → Option String}
    (hc : (c.stateTtl : Int) ≤ greatestUnsigned) (h : c.withEnvironment env = .ok config) :
    (config.stateTtl : Int) ≤ greatestUnsigned := by
  have sets : ∀ setting ∈ overrides, ∀ (c : Config) n,
      (setting.2 c n).stateTtl = n ∨ (setting.2 c n).stateTtl = c.stateTtl := by
    simp [overrides]
  refine Compile.of_foldlM_eq_ok (motive := fun c => (c.stateTtl : Int) ≤ greatestUnsigned) h hc ?_
  intro c setting hm c' h hc
  simp only [override] at h
  split at h
  case h_1 => cases h; exact hc
  case h_2 =>
    split at h
    case h_2    => cases h
    case h_1 hn =>
      cases h
      cases sets setting hm c _
      case inl he => exact he ▸ unsignedText?_le hn
      case inr he => exact he ▸ hc

theorem stateTtl_le_of_parse? {text : String} (h : parse? text = .ok c) :
    (c.stateTtl : Int) ≤ greatestUnsigned := by
  rw [parse?] at h
  split at h
  case h_2    => cases h
  case h_1 hd =>
    cases h
    have ⟨d, _, hd⟩ := Option.bind_eq_some_iff.mp hd
    simp only [ofDocument?, bind, Option.bind_eq_some_iff] at hd
    obtain ⟨f, _, _, _, ttl, ht, _, _, _, _, _, _, _, _, _, _, he⟩ := hd
    cases he
    rw [Document.Fields.withDefault] at ht
    split at ht
    case h_1 => exact Document.unsigned?_le ht
    case h_2 => cases ht; exact (by decide : ((86400 : Nat) : Int) ≤ greatestUnsigned)

theorem Loads.stateTtl_le (h : config.Loads) : (config.stateTtl : Int) ≤ greatestUnsigned := by
  cases h
  case default ho => exact stateTtl_le_of_withEnvironment (by decide) ho
  case file hp ho => exact stateTtl_le_of_withEnvironment (stateTtl_le_of_parse? hp) ho

-- The environment may ask for any number of seconds that can be counted.
theorem loads_stateTtl (h : (ttl : Int) ≤ greatestUnsigned) :
    ({ stateTtl := ttl } : Config).Loads := by
  have ht := unsignedText?_plus h
  generalize "+" ++ toString ttl = text at ht
  let env (name : String) : Option String :=
    if name = "STRATEGY_GRAPH_STATE_TTL_SECS" then some text else none
  have overridden : withEnvironment {} env = .ok { stateTtl := ttl } := by
    simp [withEnvironment, overrides, override, env, variablePrefix, ht, bind, Except.bind, pure,
      Except.pure]
  exact .default overridden

theorem exists_loads_iff :
    (∃ config : Config, config.Loads ∧ config.stateTtl = ttl) ↔ (ttl : Int) ≤ greatestUnsigned := by
  constructor
  case mp  => exact fun ⟨config, h, he⟩ => he ▸ h.stateTtl_le
  case mpr => exact fun h => ⟨_, loads_stateTtl h, rfl⟩

-- To keep things for longer than any time that can be counted.
def forever : Config where
  stateTtl := 0x8000000000000000

end Config

theorem StateStore.isSome_deadline?_iff {now : Int} {ttl : Nat} :
    (deadline? now ttl).isSome ↔ now + ttl ≤ latestTime := by
  rw [deadline?]
  split
  case isTrue h  => exact iff_of_true rfl h
  case isFalse h => exact iff_of_false Bool.false_ne_true h

namespace Progress

variable {p : Progress} {s : Surroundings} {ttl : Nat} {services : Services} {id : String}
  {ids : List String} {n : PlanNode}

-- Where no write comes to an end, a tick does if it gets by without one.
theorem isSome_outcome_runAll_iff (h : services.breaksOff ttl = fun _ => true) :
    (p.runAll s ttl services ids).outcome.isSome ↔
      ∀ done id rest, ids = done ++ id :: rest →
        ((done.foldl (fun p id => (p.step s id).1) p).step s id).2 = none := by
  induction ids generalizing p
  case nil            => exact iff_of_true rfl fun done id rest hi => by cases done <;> cases hi
  case cons id ids hi =>
    cases hm : (p.step s id).2
    case none   =>
      rw [runAll_of_eq_none hm, hi]
      constructor
      case mp  =>
        intro hr done k rest he
        cases done
        case nil         => cases he; exact hm
        case cons d done => cases he; exact hr done k rest rfl
      case mpr => exact fun hr done k rest he => hr (id :: done) k rest (he ▸ rfl)
    case some m =>
      rw [runAll_of_changed hm]
      refine iff_of_false ?_ fun hr => ?_
      · simp [Services.fst_storeMachine, h]
      · cases hm.symm.trans <| hr [] id ids rfl

-- What a node that runs has to store, and one that is skipped has not.
theorem snd_step (hn : p.plan.nodes.get? id = some n) :
    (p.step s id).2 =
      if (p.blocker? n).isSome then none
      else changed? (p.plan.machines.get? id) (p.turn s id n).2 := by
  simp only [step, hn, turn]
  cases p.blocker? n
  case some => rfl
  case none =>
    dsimp only
    split <;> rfl

end Progress

namespace Plan

-- The node ran in the tick, and its machine is not what it was.
def Stirs (before after : Plan) (id : String) : Prop :=
  ¬after.WasSkipped id ∧
    (Progress.changed? (before.machines.get? id) (after.machines.get? id)).isSome

variable {p : Plan} {s : Surroundings} {id : String} {done rest : List String}

theorem isSome_snd_step_upTo (h : p.Causal) (ho : p.order = done ++ id :: rest) :
    ((p.upTo s done).step s id).2.isSome ↔ p.Stirs (p.tick s).plan id := by
  have ⟨_, n₀, hn₀⟩ := h.next ho
  have ⟨n, hn, _⟩ := exists_get?_of_blank_eq (blank_tick h s).symm hn₀
  have ⟨m, hm, he, hbefore, hafter⟩ := exists_turn_upTo h ho hn
  rw [Progress.snd_step hm, Stirs, WasSkipped, hbefore, hafter]
  have hs : n.state = ((p.upTo s done).turn s id m).1 := congrArg PlanNode.state he
  cases hb : (p.upTo s done).blocker? m
  case some d =>
    rw [Progress.turn, hb] at hs
    simp [hn, hs]
  case none   =>
    have ran : ¬∃ error, n.state = .skipped error := by
      rw [hs, Progress.turn, hb]
      dsimp only
      cases ((p.upTo s done).view id m).run s m.kind _ |>.1 <;> simp [NodeState.ofResult]
    simp [hn, ran]

-- A tick with a store that is always up comes to an end, unless there is no deadline for a machine
-- that it has to store.
theorem isSome_outcome_tickAt_iff (h : p.Causal) {m : Moment} {l : StoreLink}
    (hs : m.services.store = some l) (up : ∀ k, l.condition k = .up) :
    (p.tickAt m).outcome.isSome ↔
      l.now + m.ttl ≤ StateStore.latestTime ∨
        ∀ id ∈ p.order, ¬p.Stirs (p.tick m.surroundings).plan id := by
  rw [←StateStore.isSome_deadline?_iff]
  cases hd : StateStore.deadline? l.now m.ttl
  case some deadline =>
    refine iff_of_true (Progress.isSome_outcome_runAll fun k hk => ?_) (.inl rfl)
    cases hs.symm.trans hk
    rw [hd]
    rfl
  case none          =>
    have breaks : m.services.breaksOff m.ttl = fun _ => true := by
      funext k
      simp [Services.breaksOff, hs, up, hd]
    rw [tickAt, Progress.isSome_outcome_runAll_iff breaks]
    constructor
    case mp  =>
      intro hr
      refine .inr fun id hid hstirs => ?_
      obtain ⟨done, rest, ho⟩ := List.append_of_mem hid
      have hstored := (isSome_snd_step_upTo h ho).mpr hstirs
      rw [upTo, hr done id rest ho] at hstored
      cases hstored
    case mpr =>
      intro hr done id rest ho
      have hm : id ∈ p.order := ho ▸ List.mem_append_right _ (.head _)
      have hn := mt (isSome_snd_step_upTo h ho).mp <| hr.resolve_left Bool.false_ne_true id hm
      exact Option.not_isSome_iff_eq_none.mp hn

variable {g : Graph} {setup : Setup} {services services' : Services} {strategy symbol : String}
  {l : StoreLink} {config : Config}

-- Under a configuration that was loaded, a tick of a compiled plan comes to an end exactly if the
-- machines that it has to store can be kept for as long as the configuration says.
theorem ends_iff_of_compile (hc : (g.compile setup services strategy symbol).1 = .ok p)
    (moments : List Moment) (hl : config.Loads) (hs : services'.store = some l)
    (up : ∀ k, l.condition k = .up) (now : Instant) (snapshot : Snapshot) :
    let before := p.after moments
    (config.stateTtl : Int) ≤ greatestUnsigned ∧
      ((before.execute config services' now snapshot).outcome.isSome ↔
        l.now + config.stateTtl ≤ StateStore.latestTime ∨
          ∀ id ∈ p.order,
            ¬before.Stirs (before.tick (services'.surroundings config now snapshot)).plan id) := by
  intro before
  have hb : before.blank = p.blank := blank_after p moments
  have intact : before.Intact := (Graph.intact_of_compile hc).after moments
  rw [execute, isSome_outcome_tickAt_iff intact.causal hs up, order_eq_of_blank_eq hb]
  exact ⟨hl.stateTtl_le, .rfl⟩

theorem ends_iff_alarm :
    ∃ p, (Graph.alarm.compile {} emptyShelf "alarm" "BTC").1 = .ok p ∧
      let snapshot := (Moment.noon none).surroundings.snapshot
      let now : Instant := ⟨1700000060, 0⟩
      let before := p.after [.noon none]
      (Config.forever.stateTtl : Int) ≤ greatestUnsigned ∧
        ((before.execute .forever emptyShelf now snapshot).outcome.isSome ↔
          (0 : Int) + Config.forever.stateTtl ≤ StateStore.latestTime ∨
            ∀ id ∈ p.order, ¬before.Stirs
              (before.tick (emptyShelf.surroundings .forever now snapshot)).plan id) := by
  have ⟨p, hc⟩ := Graph.exists_compile Graph.supported_alarm Graph.wellFormed_alarm emptyShelf
    "alarm" "BTC"
  have hl : Config.forever.Loads := Config.loads_stateTtl (by decide)
  have hs : emptyShelf.store = some { store := .empty } := rfl
  exact ⟨p, hc, ends_iff_of_compile hc [.noon none] hl hs (fun _ => rfl) _ _⟩

-- There is such a configuration, and the first tick that has something to store breaks off.
theorem exists_breaksOff_of_loads :
    Config.forever.Loads ∧ ∃ p, (Graph.alarm.compile {} emptyShelf "alarm" "BTC").1 = .ok p ∧
      (p.execute .forever emptyShelf ⟨1700000000, 0⟩
        (Moment.noon none).surroundings.snapshot).outcome.isNone := by
  refine ⟨Config.loads_stateTtl (by decide), ?_⟩
  rw [Graph.compile_of_wellFormed Graph.supported_alarm Graph.wellFormed_alarm]
  simp only [Compile.skeleton, Graph.order_hydrate_stamp Graph.wellFormed_alarm, Graph.order_alarm,
    bind, Except.bind]
  exact ⟨_, rfl, by decide +kernel⟩

end Plan

end SignalFlow
