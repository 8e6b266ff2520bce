import SignalFlow.Execution.Node
import SignalFlow.Proofs.Catalog.Integers
import SignalFlow.Proofs.Plan.Kinds
import SignalFlow.Proofs.Validation.Passes

/-!
What a gate makes of inputs that turn true. On exact numbers the share of the true inputs rises by
what the new ones weigh, so a gate that was open stays open unless their weights add up to less than
nothing; the catalog does not ask for weights to be positive.
-/

namespace SignalFlow

open Float.Model

namespace Binary64

-- The exact value of a float. What is no number has none.
def value : UnpackedFloat → ℚ
  | .finite .positive m e _ => Binary.numerator m e / Binary.denominator e
  | .finite .negative m e _ => -(Binary.numerator m e / Binary.denominator e)
  | _                       => 0

theorem value_le_of_not_ofNat_lt {x : Float} {n : Nat} (hn : 0 < n) (hs : n < 2 ^ 53)
    (h : ¬Float.ofNat n < x) : value x.toModel.unpack ≤ n := by
  have h : ¬UnpackedFloat.lt (Float.ofNat n).toModel.unpack x.toModel.unpack :=
    fun hl => h <| decide_eq_true hl
  have hf : Fits x.toModel.unpack := (unpacked x.toBits.toBitVec).fits
  have hz : (0 : ℚ) ≤ n := Nat.cast_nonneg n
  cases hx : x.toModel.unpack
  case notANumber | infinity | zero => exact hz
  case finite s m e pos =>
    rw [hx] at h hf
    cases s
    case negative =>
      refine (neg_nonpos.mpr ?_).trans hz
      exact div_nonneg (Nat.cast_nonneg _) (Nat.cast_nonneg _)
    case positive =>
      have hd : (0 : ℚ) < Binary.denominator e := Nat.cast_pos.mpr <| Nat.two_pow_pos _
      rw [value, div_le_iff₀ hd]
      exact_mod_cast le_of_not_ofNat_lt hn hs hf.left h

end Binary64

-- The exact value of a float that is a number.
def exactValue (x : Float) : ℚ :=
  Binary64.value x.toModel.unpack

namespace Catalog

def gateThreshold : Parameter :=
  { name := "threshold", type := .number, default := some (real 0.5), min := some 0, max := some 1 }

theorem weightedGate_parameters : (find? "weighted_gate").elim [] Definition.parameters =
    [{ name := "weights", type := .numberList }, gateThreshold] := rfl

end Catalog

namespace NodeView

-- What an input weighs at a position. Inputs without a weight weigh one.
def weightAt (weights : List ℚ) (i : Nat) : ℚ :=
  weights[i]?.getD 1

-- What the true inputs weigh together, from the position `start` on.
def trueWeight (weights : List ℚ) (start : Nat) (inputs : List Bool) : ℚ :=
  ((inputs.zipIdx start).map fun input => if input.1 then weightAt weights input.2 else 0).sum

-- The same number of inputs, all of them true.
def allTrue (inputs : List Bool) : List Bool :=
  inputs.map fun _ => true

-- Which of the inputs are true only later.
def turned (inputs later : List Bool) : List Bool :=
  List.zipWith (fun on after => after && !on) inputs later

-- The parameters of a node as the gate reads them, and the gate itself, on exact numbers.
def exactWeights (n : Node) : List ℚ :=
  (weights n).map exactValue

def exactThreshold (n : Node) : ℚ :=
  exactValue <| (n.float? "threshold").getD 0.5

def exactGate (n : Node) (kind : CompositionKind) (inputs : List Bool) : Bool :=
  gate kind (exactWeights n) (exactThreshold n) inputs

variable {ws : List ℚ} {threshold : ℚ} {inputs later : List Bool} {i : Nat} {on : Bool}

theorem trueWeight_cons : trueWeight ws i (on :: inputs) =
    (if on then weightAt ws i else 0) + trueWeight ws (i + 1) inputs := rfl

theorem allTrue_cons : allTrue (on :: inputs) = true :: allTrue inputs := rfl

theorem addWeights_eq (hit total : ℚ) : addWeights ws i inputs hit total =
    (hit + trueWeight ws i inputs, total + trueWeight ws i (allTrue inputs)) := by
  induction inputs generalizing i hit total
  case nil => simp [addWeights, trueWeight, allTrue]
  case cons on inputs hi =>
    rw [addWeights, hi, allTrue_cons, trueWeight_cons, trueWeight_cons]
    cases on <;> simp [weightAt, add_assoc]

theorem weightedShare_eq : weightedShare ws inputs =
    if 0 < trueWeight ws 0 (allTrue inputs) then
      trueWeight ws 0 inputs / trueWeight ws 0 (allTrue inputs)
    else 0 := by
  rw [weightedShare, addWeights_eq, zero_add, zero_add]

section Rise

variable (h : List.Forall₂ (· ≤ ·) inputs later)
include h

theorem allTrue_eq_of_forall₂ : allTrue later = allTrue inputs := by
  rw [allTrue, allTrue, List.map_const', List.map_const', h.length_eq]

theorem trueWeight_eq_add_turned : trueWeight ws i later =
    trueWeight ws i inputs + trueWeight ws i (turned inputs later) := by
  induction h generalizing i
  case nil => exact (add_zero _).symm
  case cons on after inputs later hle _ hi =>
    rw [turned, List.zipWith_cons_cons, trueWeight_cons, trueWeight_cons, trueWeight_cons, hi]
    cases on <;> cases after
    case true.false => exact absurd hle (by decide)
    all_goals simp [turned, add_assoc, add_left_comm]

theorem all_of_forall₂ (ha : inputs.all id) : later.all id := by
  induction h
  case nil                => rfl
  case cons hle _ hi =>
    rw [List.all_cons, Bool.and_eq_true] at ha ⊢
    exact ⟨hle ha.left, hi ha.right⟩

theorem any_of_forall₂ (ha : inputs.any id) : later.any id := by
  induction h
  case nil                => exact ha
  case cons hle _ hi =>
    rw [List.any_cons, Bool.or_eq_true] at ha ⊢
    exact ha.imp (hle ·) hi

theorem weightedShare_le
    (hw : 0 ≤ trueWeight ws 0 (turned inputs later) ∨ trueWeight ws 0 (allTrue inputs) ≤ 0) :
    weightedShare ws inputs ≤ weightedShare ws later := by
  rw [weightedShare_eq, weightedShare_eq, allTrue_eq_of_forall₂ h]
  split
  case isFalse => exact le_rfl
  case isTrue hp =>
    have hw := hw.resolve_right hp.not_ge
    rw [trueWeight_eq_add_turned h]
    exact div_le_div_of_nonneg_right (le_add_of_nonneg_right hw) hp.le

theorem gate_of_forall₂ {kind : CompositionKind}
    (hw : kind = .weighted →
      0 ≤ trueWeight ws 0 (turned inputs later) ∨ trueWeight ws 0 (allTrue inputs) ≤ 0)
    (hg : gate kind ws threshold inputs = true) : gate kind ws threshold later = true := by
  have ⟨hne, hg⟩ := Bool.and_eq_true_iff.mp hg
  have he : later.isEmpty = inputs.isEmpty := by cases h <;> rfl
  refine Bool.and_eq_true_iff.mpr ⟨he ▸ hne, ?_⟩
  cases kind
  case and      => exact all_of_forall₂ h hg
  case or       => exact any_of_forall₂ h hg
  case weighted =>
    exact decide_eq_true <| (of_decide_eq_true hg).trans <| weightedShare_le h <| hw rfl

end Rise

section All

variable (hne : inputs ≠ []) (ha : ∀ on ∈ inputs, on = true)
include ha

theorem allTrue_eq_self : allTrue inputs = inputs := by
  rw [allTrue, List.map_const', List.eq_replicate_of_mem ha, List.length_replicate]

theorem weightedShare_eq_of_all :
    weightedShare ws inputs = if 0 < trueWeight ws 0 inputs then 1 else 0 := by
  rw [weightedShare_eq, allTrue_eq_self ha]
  split
  case isTrue hp => exact div_self hp.ne'
  case isFalse   => rfl

include hne

theorem gate_eq_true_iff_of_all {kind : CompositionKind} (ht : kind = .weighted → threshold ≤ 1) :
    gate kind ws threshold inputs = true ↔
      (kind = .weighted → 0 < trueWeight ws 0 inputs ∨ threshold ≤ 0) := by
  have open_iff (b : Bool) : (!inputs.isEmpty && b) = true ↔ b = true := by simp [hne]
  refine (open_iff _).trans ?_
  cases kind
  case and      => exact iff_of_true (List.all_eq_true.mpr ha) nofun
  case or       =>
    have ⟨on, hm⟩ := List.exists_mem_of_ne_nil _ hne
    exact iff_of_true (List.any_eq_true.mpr ⟨on, hm, ha on hm⟩) nofun
  case weighted =>
    rw [decide_eq_true_iff, weightedShare_eq_of_all ha]
    have ht := ht rfl
    split
    case isTrue hp  => exact iff_of_true ht fun _ => .inl hp
    case isFalse hn => simp [hn]

end All

-- A threshold that the catalog admits can be reached.
theorem exactThreshold_le_one {n : Node} (hk : n.nodeType = "weighted_gate")
    (hv : Catalog.parameterFaults n.nodeType n.parameters = []) : exactThreshold n ≤ 1 := by
  have ⟨d, hd, ha⟩ := Validation.parameterFaults_eq_nil_iff.mp hv
  have hm : Catalog.gateThreshold ∈ d.parameters := by
    have hp := Catalog.weightedGate_parameters
    rw [←hk, hd, Option.elim_some] at hp
    exact hp ▸ List.mem_cons_of_mem _ (.head _)
  rw [exactThreshold]
  cases hx : n.float? "threshold"
  case none   =>
    have half : exactValue 0.5 ≤ 1 := by decide +kernel
    exact half
  case some x =>
    have hx : ¬Float.ofNat 1 < x := (ha _ hm).not_lt_of_float? hx 1 rfl
    exact_mod_cast Binary64.value_le_of_not_ofNat_lt Nat.one_pos (by decide) hx

-- A gate that is open stays open as more of its inputs turn true, and is open once all of them are.
-- Weights that are negative can make an exception.
structure Rising (n : Node) (kind : CompositionKind) : Prop where
  stays : ∀ inputs later, List.Forall₂ (· ≤ ·) inputs later →
    (kind = .weighted → 0 ≤ trueWeight (exactWeights n) 0 (turned inputs later) ∨
      trueWeight (exactWeights n) 0 (allTrue inputs) ≤ 0) →
    exactGate n kind inputs = true → exactGate n kind later = true
  all   : ∀ inputs, inputs ≠ [] → (∀ on ∈ inputs, on = true) →
    (exactGate n kind inputs = true ↔
      (kind = .weighted → 0 < trueWeight (exactWeights n) 0 inputs ∨ exactThreshold n ≤ 0))

theorem rising_of_valid {n : Node} {kind : CompositionKind}
    (hk : Kind.ofNodeType? n.nodeType = some (.composition kind))
    (hv : Catalog.parameterFaults n.nodeType n.parameters = []) : Rising n kind where
  stays _ _ h hw hg  := gate_of_forall₂ h hw hg
  all _ hne ha       := by
    refine gate_eq_true_iff_of_all hne ha fun he => ?_
    subst he
    exact exactThreshold_le_one (Kind.ofNodeType?_eq_weighted_iff.mp hk) hv

-- A vote in which the first voice counts against the rest. The catalog has nothing against that.
def vote : Node where
  id         := "vote"
  nodeType   := "weighted_gate"
  parameters := Dict.empty.insert "weights" <|
    .arr [.num <| .int (-3) <| by decide, .num <| .int 3 <| by decide]

-- The third voice can only help.
theorem rising_vote :
    Kind.ofNodeType? vote.nodeType = some (.composition .weighted) ∧
      Catalog.parameterFaults vote.nodeType vote.parameters = [] ∧ Rising vote .weighted ∧
      exactGate vote .weighted [false, true, false] = true ∧
      exactGate vote .weighted [false, true, true] = true := by
  have hk : Kind.ofNodeType? vote.nodeType = some (.composition .weighted) := rfl
  have hv : Catalog.parameterFaults vote.nodeType vote.parameters = [] := by decide +kernel
  have rising : Rising vote .weighted := rising_of_valid hk hv
  let inputs := [false, true, false]
  let later := [false, true, true]
  have hle : List.Forall₂ (· ≤ ·) inputs later := by decide
  have hw : 0 ≤ trueWeight (exactWeights vote) 0 (turned inputs later) := by decide +kernel
  have hg : exactGate vote .weighted inputs = true := by decide +kernel
  exact ⟨hk, hv, rising, hg, rising.stays inputs later hle (fun _ => .inl hw) hg⟩

-- The first one closes the gate that the second one opened, and does not open it on its own.
theorem vote_falls :
    Kind.ofNodeType? vote.nodeType = some (.composition .weighted) ∧
      Catalog.parameterFaults vote.nodeType vote.parameters = [] ∧
      List.Forall₂ (· ≤ ·) [false, true, false] [true, true, false] ∧
      exactGate vote .weighted [false, true, false] = true ∧
      exactGate vote .weighted [true, true, false] = false ∧
      exactGate vote .weighted [true] = false := by
  refine ⟨rfl, ?_, ?_, ?_, ?_, ?_⟩
  all_goals decide +kernel

end NodeView

end SignalFlow
