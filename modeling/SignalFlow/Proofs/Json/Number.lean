import SignalFlow.Json.Basic
import SignalFlow.Proofs.Temporal.Binary64

/-!
The numbers of a document are numbers as floats, too: none of them is NaN. So any two of them
compare, and one that is not below another is at least as great.
-/

namespace SignalFlow

open Float.Model Float.Model.UnpackedFloat

namespace Binary64

variable {u v : UnpackedFloat}

-- The float stands for a number, be it an infinite one.
def Numeric (u : UnpackedFloat) : Prop :=
  u ≠ .notANumber

section Compare

theorem exists_compare (hu : Numeric u) (hv : Numeric v) : ∃ o, u.compare v = some o := by
  cases u
  case notANumber => exact absurd rfl hu
  case infinity s | zero s | finite s _ _ _ =>
    cases v
    case notANumber => exact absurd rfl hv
    case infinity t | zero t | finite t _ _ _ => cases s <;> cases t <;> exact ⟨_, rfl⟩

-- Of two numbers with one sign, the exponents are compared first.
theorem swap_compare_finite (m n : Nat) (e f : Int) :
    ((compare e f).then (compare m n)).swap = (compare f e).then (compare n m) := by
  rw [Ordering.swap_then, Int.compare_swap, Nat.compare_swap]

theorem compare_swap (u v : UnpackedFloat) : v.compare u = (u.compare v).map Ordering.swap := by
  cases u
  case notANumber => cases v <;> rfl
  case infinity s | zero s =>
    cases v
    case notANumber                           => rfl
    case infinity t | zero t | finite t _ _ _ => cases s <;> cases t <;> rfl
  case finite s m e _ =>
    cases v
    case notANumber          => rfl
    case infinity t | zero t => cases s <;> cases t <;> rfl
    case finite t n f _      =>
      cases s <;> cases t
      case negative.positive => rfl
      case positive.negative => rfl
      case positive.positive => exact congrArg some (swap_compare_finite m n e f).symm
      case negative.negative =>
        exact congrArg (some ∘ Ordering.swap) (swap_compare_finite m n e f).symm

theorem le_of_not_lt (hu : Numeric u) (hv : Numeric v) (h : ¬u.lt v) : v.le u := by
  have ⟨o, ho⟩ := exists_compare hu hv
  have hs : v.compare u = some o.swap := by rw [compare_swap u v, ho, Option.map_some]
  cases o
  case lt => exact absurd (by rw [UnpackedFloat.lt, ho]; rfl) h
  case eq => rw [UnpackedFloat.le, hs]; rfl
  case gt => rw [UnpackedFloat.le, hs]; rfl

-- Floats that are numbers are in order, one way or the other.
theorem float_le_of_not_lt {x y : Float} (hx : Numeric x.toModel.unpack)
    (hy : Numeric y.toModel.unpack) (h : ¬x < y) : y ≤ x :=
  decide_eq_true <| le_of_not_lt hx hy fun hl => h <| decide_eq_true hl

end Compare

section Pack

variable {s : Sign} {m : Nat} {e : Int} {pos : 0 < m}

-- Only the greatest exponent is kept for what is not a number.
theorem numeric_unpack_packComponents {exponent : BitVec 11} {mantissa : BitVec 52}
    (h : exponent = -1#11 → mantissa = 0#52) :
    Numeric (UnpackedFloat.unpack .binary64 (packComponents .binary64 s exponent mantissa)) := by
  intro hn
  rw [UnpackedFloat.unpack] at hn
  simp only [unpackExponent_packComponents, unpackMantissa_packComponents] at hn
  split at hn
  case isTrue he => rw [if_pos (h he)] at hn; cases hn
  case isFalse   => split at hn <;> [split at hn; skip] <;> cases hn

theorem numeric_unpack_pack (h : Numeric u) :
    Numeric (UnpackedFloat.unpack .binary64 (UnpackedFloat.pack .binary64 u)) := by
  have bias : (Format.binary64.exponentBias : Int) = 1023 := rfl
  have bits : (Format.binary64.mantissaBitsWithoutImplicit : Int) = 52 := rfl
  cases u
  case notANumber => exact absurd rfl h
  case infinity   => exact numeric_unpack_packComponents fun _ => rfl
  case zero       => exact numeric_unpack_packComponents (by decide)
  case finite s m e _ =>
    rw [UnpackedFloat.pack]
    dsimp only
    split
    case isTrue     => exact numeric_unpack_packComponents fun _ => rfl
    case isFalse hb =>
      split
      case isFalse =>
        have hz : 0#11 ≠ -1#11 := by decide
        exact numeric_unpack_packComponents fun he => absurd he hz
      case isTrue  =>
        refine numeric_unpack_packComponents fun he => absurd (congrArg BitVec.toNat he) ?_
        have hp : (2 : Nat) ^ Format.binary64.exponentBits = 2048 := rfl
        rw [hp] at hb
        simp
        omega

end Pack

section Round

variable {s : Sign} {m : Nat} {e : Int}

theorem numeric_roundWithAccuracy {a : Accuracy} :
    Numeric (roundWithAccuracy .binary64 s m e a) := by
  rw [roundWithAccuracy]
  dsimp only
  split <;> simp [Numeric]

theorem numeric_normalize (i : Int) (e : Int) : Numeric (normalize .binary64 i e s) := by
  rw [UnpackedFloat.normalize]
  split
  case h_1 => exact numeric_roundWithAccuracy
  case h_2 => simp [Numeric]
  case h_3 => exact numeric_roundWithAccuracy

theorem numeric_mul_finite (hu : Numeric u) {pos : 0 < m} :
    Numeric (mul .binary64 u (.finite s m e pos)) := by
  cases u
  case notANumber      => exact absurd rfl hu
  case infinity | zero => simp [UnpackedFloat.mul, Numeric]
  case finite          => exact numeric_roundWithAccuracy

theorem numeric_ofScientific (n : Nat) (e : Int) :
    Numeric (UnpackedFloat.ofScientific .binary64 n e) := by
  rw [UnpackedFloat.ofScientific]
  split
  case isTrue  => simp [Numeric]
  case isFalse =>
    split
    case isTrue  => simp [Numeric]
    case isFalse =>
      split
      case isTrue  => simp [Numeric]
      case isFalse => split <;> exact numeric_roundWithAccuracy

theorem numeric_ofNat (n : Nat) : Numeric (Float.ofNat n).toModel.unpack := by
  rw [Float.ofNat]
  dsimp only [OfScientific.ofScientific, Float.ofScientific]
  split
  case isTrue  =>
    have one : (Float.ofBits 0x3FF0000000000000).toModel.unpack =
      .finite .positive (2 ^ 52) (-52) (by decide) := rfl
    apply numeric_unpack_pack
    change Numeric (UnpackedFloat.mul _ _ (Float.ofBits 0x3FF0000000000000).toModel.unpack)
    rw [one]
    exact numeric_mul_finite <| numeric_unpack_pack <| numeric_normalize _ _
  case isFalse => exact numeric_unpack_pack <| numeric_ofScientific n 0

theorem numeric_neg (hu : Numeric u) : Numeric u.neg := by
  cases u
  case notANumber => exact absurd rfl hu
  case infinity | zero | finite => simp [UnpackedFloat.neg, Numeric]

end Round

end Binary64

namespace Number

theorem numeric_toFloat (n : Number) : Binary64.Numeric n.toFloat.toModel.unpack := by
  cases n
  case int i _   =>
    cases i
    case ofNat k _   => exact Binary64.numeric_ofNat k
    case negSucc k _ =>
      exact Binary64.numeric_unpack_pack <| Binary64.numeric_neg <| Binary64.numeric_ofNat _
  case float x h =>
    have hf : x.toModel.unpack.isFinite := h
    intro hn
    have hn : x.toModel.unpack = .notANumber := hn
    rw [hn] at hf
    cases hf

end Number

end SignalFlow
