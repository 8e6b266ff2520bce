import SignalFlow.Execution.Node
import SignalFlow.Proofs.Plan.Routes

/-!
What a node gives when its inputs are what its kind reads: a value of the right type on its output
port, or one of the few errors that the world outside is to blame for.
-/

namespace SignalFlow

-- What a port of the type carries while a plan runs.
def DataType.Carries : DataType → Value → Prop
  | .price, v | .volume, v | .indicatorValue, v => ∃ x, v = .number x
  | .boolean, v | .signal, v                    => ∃ b, v = .bool b

theorem DataType.Fits.carries {source target : DataType} {v : Value} (h : source.Fits target)
    (hv : source.Carries v) : target.Carries v := by
  cases h
  case inl he => exact he ▸ hv
  case inr hm => cases source <;> cases target <;> simp_all [coercions, Carries]

namespace Kind

def Gives (kind : Kind) (output : NodeOutput) : Prop :=
  ∃ v, output.values.get? kind.output.name = some v ∧ kind.output.dataType.Carries v

-- The errors for which neither the graph nor other nodes are to blame.
inductive MayFail : Kind → NodeError → Prop
  | noData (kind : SourceKind) (symbol : String) :
    MayFail (.dataSource kind) (.missingMarketData symbol)
  | notReady (kind : IndicatorKind) (key : IndicatorKey) :
    MayFail (.indicator kind) (.indicatorNotReady key)
  | late (kind : IndicatorKind) (millis : Nat) : MayFail (.indicator kind) (.timeout millis)

def Yields (kind : Kind) : Except NodeError NodeOutput → Prop
  | .ok output   => kind.Gives output
  | .error error => kind.MayFail error

theorem yields_single (kind : Kind) {v : Value} (h : kind.output.dataType.Carries v) :
    kind.Yields (.ok (.single kind.output.name v)) :=
  ⟨v, by simp [NodeOutput.single], h⟩

end Kind

namespace NodeView

variable {v : NodeView} {s : Surroundings} {port : String}

-- At every port that the kind reads there are values of its type, and at least one if it has to be
-- connected.
def Fed (v : NodeView) (kind : Kind) : Prop :=
  ∀ port ∈ kind.input?, (∀ x ∈ v.values port.name, port.dataType.Carries x) ∧
    (port.required → v.values port.name ≠ [])

section Fed

variable {kind : Kind} {name : String} {type : DataType} (h : v.Fed kind)

include h in
theorem Fed.number (hk : kind.input? = some (Catalog.input name type))
    (ht : ∀ x, type.Carries x → ∃ y, x = .number y) : ∃ y, v.number name = .ok y := by
  have ⟨hc, hn⟩ := h _ hk
  have ⟨x, l, hv⟩ := List.exists_cons_of_ne_nil (hn rfl)
  have ⟨y, hy⟩ := ht x <| hc x <| hv ▸ .head _
  have hv : v.values name = x :: l := hv
  exact ⟨y, by simp [NodeView.number, hv, hy, Value.number?]⟩

theorem exists_mapM_readBool {l : List Value} (h : ∀ x ∈ l, ∃ b, x = .bool b) :
    ∃ bs, l.mapM (readBool port) = .ok bs ∧ bs.length = l.length := by
  induction l
  case nil => exact ⟨[], rfl, rfl⟩
  case cons x l hi =>
    have ⟨b, hb⟩ := h x <| .head _
    have ⟨bs, hm, hl⟩ := hi fun y hy => h y <| .tail _ hy
    refine ⟨b :: bs, ?_, by simp [hl]⟩
    simp [List.mapM_cons, hb, readBool, Value.bool?, hm, bind, Except.bind, pure, Except.pure]

theorem eq_map_of_mapM_readBool {l : List Value} {bs : List Bool}
    (h : l.mapM (readBool port) = .ok bs) : l = bs.map .bool := by
  induction l generalizing bs
  case nil          => cases h; rfl
  case cons x l hi =>
    cases x
    case number | null => cases h
    case bool b        =>
      cases hm : l.mapM (readBool port)
      case error e => simp [List.mapM_cons, readBool, Value.bool?, hm, bind, Except.bind] at h
      case ok bs'  =>
        simp only [List.mapM_cons, readBool, Value.bool?, hm, bind, Except.bind, pure,
          Except.pure] at h
        cases h
        rw [List.map_cons, ←hi hm]

-- Where a node has read booleans there are booleans.
theorem values_of_booleans {bs : List Bool} (h : v.booleans port = .ok bs) :
    v.values port = bs.map .bool :=
  eq_map_of_mapM_readBool h

include h in
theorem Fed.booleans {required : Bool}
    (hk : kind.input? = some ⟨name, .boolean, .input, required⟩) :
    ∃ bs, v.booleans name = .ok bs ∧ bs.length = (v.values name).length :=
  have ⟨hc, _⟩ := h _ hk
  exists_mapM_readBool hc

include h in
theorem Fed.boolean (hk : kind.input? = some (Catalog.input name .boolean)) :
    ∃ b, v.boolean name = .ok b := by
  have ⟨_, hn⟩ := h _ hk
  have ⟨bs, hb, hl⟩ := h.booleans hk
  cases bs
  case nil       => exact absurd (List.length_eq_zero_iff.mp hl.symm) (hn rfl)
  case cons b bs => exact ⟨b, by simp [NodeView.boolean, hb, bind, Except.bind]⟩

theorem Fed.triggers {kind : ActionKind} (h : v.Fed (.action kind)) :
    ∃ bs, v.booleans "trigger" = .ok bs := by
  cases kind
  all_goals
    have ⟨bs, hb, _⟩ := h.booleans rfl
    exact ⟨bs, hb⟩

end Fed

theorem runSource_yields (kind : SourceKind) :
    (Kind.dataSource kind).Yields (v.runSource s kind) := by
  cases kind
  all_goals
    simp only [runSource]
    split
    case h_1 x _ => exact Kind.yields_single _ ⟨x, rfl⟩
    case h_2     => exact .noData ..

theorem runIndicator_yields {kind : IndicatorKind} (h : v.Fed (.indicator kind)) :
    (Kind.indicator kind).Yields (v.runIndicator s kind) := by
  have ⟨_, hx⟩ := h.number rfl fun _ hc => hc
  simp only [runIndicator, hx, bind, Except.bind]
  split
  case h_1 x _ => exact Kind.yields_single (.indicator kind) ⟨x, rfl⟩
  case h_2     => exact .notReady ..
  case h_3     => exact .late ..
  case h_4     =>
    -- A made-up value is marked as such, but it is a value.
    exact Kind.yields_single (.indicator kind) ⟨mockValue kind.name, rfl⟩

theorem verdict_yields {kind : Kind} {result : Except NodeError Bool}
    (hk : kind.output = Catalog.output "result" .boolean) (h : ∃ b, result = .ok b) :
    kind.Yields (verdict result) := by
  have ⟨b, hb⟩ := h
  have hy : kind.Yields (.ok (.single kind.output.name (.bool b))) :=
    Kind.yields_single kind <| hk ▸ ⟨b, rfl⟩
  rw [hk] at hy
  exact hb ▸ hy

theorem exists_runThreshold (h : v.Fed (.condition .threshold)) : ∃ b, v.runThreshold = .ok b := by
  have ⟨_, hx⟩ := h.number rfl fun _ hc => hc
  exact ⟨_, by rw [runThreshold, hx]; rfl⟩

theorem exists_runRange (h : v.Fed (.condition .range)) : ∃ b, v.runRange = .ok b := by
  have ⟨_, hx⟩ := h.number rfl fun _ hc => hc
  exact ⟨_, by rw [runRange, hx]; rfl⟩

theorem exists_runTemporal (s : Surroundings) (machine : Option Machine)
    (h : ∃ b, v.boolean port = .ok b) : ∃ r, v.runTemporal s port machine = .ok r := by
  have ⟨b, hb⟩ := h
  cases machine
  case none   => exact ⟨_, by rw [runTemporal, hb]; rfl⟩
  case some m => exact ⟨_, by rw [runTemporal, hb]; rfl⟩

theorem exists_runComposition {kind : CompositionKind} (h : v.Fed (.composition kind)) :
    ∃ b, v.runComposition kind = .ok b := by
  have ⟨_, hb, _⟩ := h.booleans rfl
  exact ⟨_, by rw [runComposition, hb]; rfl⟩

theorem runAction_yields {kind : ActionKind} (h : v.Fed (.action kind)) :
    (Kind.action kind).Yields (v.runAction s kind) := by
  have ⟨bs, hb⟩ := h.triggers
  simp only [runAction, hb, bind, Except.bind]
  split
  case isTrue  => exact Kind.yields_single (.action kind) ⟨true, rfl⟩
  case isFalse => exact Kind.yields_single (.action kind) ⟨false, rfl⟩

-- One case for each kind of handler.
theorem run_yields {kind : Kind} (s : Surroundings) (machine : Option Machine) (h : v.Fed kind) :
    kind.Yields (v.run s kind machine).1 := by
  cases kind
  case dataSource kind  => exact runSource_yields kind
  case indicator kind   => exact runIndicator_yields h
  case composition kind => exact verdict_yields rfl <| exists_runComposition h
  case action kind      => exact runAction_yields h
  case condition kind   =>
    cases kind
    case threshold => exact verdict_yields rfl <| exists_runThreshold h
    case range     => exact verdict_yields rfl <| exists_runRange h
    case duration | sequence =>
      have ⟨⟨b, m⟩, hr⟩ := exists_runTemporal s machine <| h.boolean rfl
      simp only [run, hr]
      exact verdict_yields rfl ⟨b, rfl⟩

end NodeView

end SignalFlow
