import Mathlib

/-!
Binary64 numbers as the standard library models them: bits that are unpacked into a sign, a mantissa
and an exponent, computed with, and packed again. Neither rounding nor packing takes a number that
is not zero to zero, so that no sum is minus zero unless both of its terms are.
-/

namespace SignalFlow

namespace Binary64

open Float.Model Float.Model.UnpackedFloat

abbrev Bits := BitVec Format.binary64.numBits

def sign (b : Bits) : Sign :=
  .ofBitVec (unpackSign b)

theorem sign_packComponents {s : Sign} {e : BitVec 11} {m : BitVec 52} :
    sign (packComponents .binary64 s e m) = s := by
  rw [sign, unpackSign_packComponents, Sign.ofBitVec_toBitVec]

-- What bits stand for, read off their fields.
inductive Unpacked (b : Bits) : UnpackedFloat → Prop
  | infinity (exponent : unpackExponent b = -1#11) (mantissa : unpackMantissa b = 0#52) :
    Unpacked b (.infinity (sign b))
  | notANumber :
    Unpacked b .notANumber
  | zero (exponent : unpackExponent b = 0#11) (mantissa : unpackMantissa b = 0#52) :
    Unpacked b (.zero (sign b))
  | subnormal {m : Nat} (exponent : unpackExponent b = 0#11)
      (mantissa : (unpackMantissa b).toNat = m) (pos : 0 < m) :
    Unpacked b (.finite (sign b) m (-1074) pos)
  | normal {m : Nat} {e : Int} (positive : 0 < (unpackExponent b).toNat)
      (bounded : (unpackExponent b).toNat < 2047) (exponent : (unpackExponent b).toNat - 1075 = e)
      (mantissa : 2 ^ 52 + (unpackMantissa b).toNat = m) (pos : 0 < m) :
    Unpacked b (.finite (sign b) m e pos)

theorem unpacked (b : Bits) : Unpacked b (UnpackedFloat.unpack .binary64 b) := by
  have bias : (Format.binary64.exponentBias : Int) = 1023 := rfl
  have bits : (Format.binary64.mantissaBitsWithoutImplicit : Int) = 52 := rfl
  rw [UnpackedFloat.unpack]
  split
  case isTrue he =>
    split
    case isTrue hm => exact .infinity he hm
    case isFalse   => exact .notANumber
  case isFalse hn =>
    split
    case isTrue he =>
      split
      case isTrue hm  => exact .zero he hm
      case isFalse hm =>
        have hz : ((unpackExponent b).toNat : Int) - (1023 + 52) + 1 = -1074 := by rw [he]; rfl
        simp only [bias, bits, hz]
        exact .subnormal he rfl _
    case isFalse he =>
      have hz : (unpackExponent b).toNat ≠ 0 := fun h => he <| BitVec.eq_of_toNat_eq h
      have ho : (unpackExponent b).toNat ≠ 2047 := fun h => hn <| BitVec.eq_of_toNat_eq h
      have hl : (unpackExponent b).toNat < 2048 := (unpackExponent b).isLt
      have hm : (1#1 ++ unpackMantissa b).toNat = 2 ^ 52 + (unpackMantissa b).toNat := by
        rw [BitVec.toNat_append, ←Nat.shiftLeft_add_eq_or_of_lt (unpackMantissa b).isLt]
        rfl
      simp only [bias, bits]
      exact .normal (by omega) (by omega) (by omega) hm.symm _

section Pack

variable {b : Bits} {u : UnpackedFloat} {s : Sign} {m : Nat} {e : Int} {pos : 0 < m}

theorem pack_finite (hm : m < 2 ^ 53) (he : -1074 ≤ e) :
    UnpackedFloat.pack .binary64 (.finite s m e pos) =
      if 972 ≤ e then packedInfinity .binary64 s
      else if 2 ^ 52 ≤ m then
        packComponents .binary64 s (.ofNat 11 (e + 1075).toNat) (.ofNat 52 m)
      else packComponents .binary64 s 0#11 (.ofNat 52 m) := by
  have bias : (Format.binary64.exponentBias : Int) = 1023 := rfl
  have bits : (Format.binary64.mantissaBitsWithoutImplicit : Int) = 52 := rfl
  have all : Format.binary64.mantissaBits = 53 := rfl
  have hs : e + 1023 + 52 = e + 1075 := by omega
  have hl : m.log2 + 1 = 53 ↔ 2 ^ 52 ≤ m := by
    have hz : m ≠ 0 := by omega
    rw [←Nat.le_log2 hz]
    have := (Nat.log2_lt hz).mpr hm
    omega
  have hi : 2 ^ 11 ≤ (e + 1075).toNat + 1 ↔ 972 ≤ e := by omega
  rw [UnpackedFloat.pack]
  simp only [bias, bits, all, hs, hl, hi]

-- Numbers as they come out of bits: no smaller than the smallest one, and not too long.
def Fits : UnpackedFloat → Prop
  | .finite _ m e _ => m < 2 ^ 53 ∧ -1074 ≤ e
  | _               => True

theorem Unpacked.fits (h : Unpacked b u) : Fits u := by
  cases h
  case infinity | notANumber | zero => trivial
  case subnormal m _ hm _           =>
    have hl : (unpackMantissa b).toNat < 2 ^ 52 := (unpackMantissa b).isLt
    constructor <;> omega
  case normal                       =>
    have hl : (unpackMantissa b).toNat < 2 ^ 52 := (unpackMantissa b).isLt
    constructor <;> omega

-- What is not zero is not packed as zero.
theorem pack_finite_ne (h : Fits (.finite s m e pos)) (t : Sign) :
    UnpackedFloat.pack .binary64 (.finite s m e pos) ≠ packedZero .binary64 t := by
  have ⟨hm, he⟩ := h
  intro hz
  have exponent := congrArg unpackExponent hz
  have mantissa := congrArg unpackMantissa hz
  rw [pack_finite hm he] at exponent mantissa
  simp only [packedZero, unpackExponent_packComponents, unpackMantissa_packComponents]
    at exponent mantissa
  split at exponent
  case isTrue => simp [packedInfinity] at exponent
  case isFalse hi =>
    rw [if_neg hi] at mantissa
    split at exponent
    case isTrue  =>
      have exponent := congrArg BitVec.toNat exponent
      simp at exponent
      omega
    case isFalse hl =>
      rw [if_neg hl] at mantissa
      have mantissa := congrArg BitVec.toNat mantissa
      simp at mantissa
      omega

end Pack

section Round

variable {s : Sign} {m : Nat} {e : Int}

theorem mantissa_shiftRight (em : ExtendedMantissa) (k : Nat) :
    (em >>> k).mantissa = em.mantissa / 2 ^ k := by
  induction k
  case zero      => exact (Nat.div_one _).symm
  case succ k hi =>
    rw [Nat.pow_succ, ←Nat.div_div_eq_div_mul, ←hi]
    rfl

theorem mantissa_ofMantissaAndAccuracy (m : Nat) (a : Accuracy) :
    (ExtendedMantissa.ofMantissaAndAccuracy m a).mantissa = m := by
  cases a
  case exact     => rfl
  case inexact o => cases o <;> rfl

theorem le_roundToNearestEven (m : Nat) (a : Accuracy) : m ≤ a.roundToNearestEven m := by
  cases a
  case exact     => exact Nat.le_refl m
  case inexact o => cases o <;> simp [Accuracy.roundToNearestEven]

theorem targetExponent_totalExponent :
    Format.binary64.targetExponent (totalExponent m e) = max (m.log2 + 1 + e - 53) (-1074) := rfl

-- At an exponent that is large enough, only as many digits are dropped as there are too many.
theorem shiftToTargetExponent_bounds (a : Accuracy) (hm : 0 < m) (he : -1074 ≤ e) :
    let r := shiftToTargetExponent .binary64 m e a
    0 < r.1.mantissa ∧ r.1.mantissa < 2 ^ 53 ∧ -1074 ≤ r.2 := by
  intro r
  have hk : (max ((m.log2 : Int) + 1 + e - 53) (-1074) - e).toNat = m.log2 + 1 - 53 := by omega
  have hr : r.1.mantissa = m / 2 ^ (m.log2 + 1 - 53) := by
    simp only [r, shiftToTargetExponent, shiftToExponent, targetExponent_totalExponent, hk,
      mantissa_shiftRight, mantissa_ofMantissaAndAccuracy]
  have he : r.2 = e + (m.log2 + 1 - 53 : Nat) := by
    simp only [r, shiftToTargetExponent, shiftToExponent, targetExponent_totalExponent, hk]
  have hl : 2 ^ m.log2 ≤ m := Nat.log2_self_le (Nat.pos_iff_ne_zero.mp hm)
  have hu : m < 2 ^ (m.log2 + 1) := Nat.lt_log2_self
  refine ⟨?_, ?_, by omega⟩
  · rw [hr]
    refine Nat.div_pos (Nat.le_trans ?_ hl) (Nat.two_pow_pos _)
    exact Nat.pow_le_pow_right (by decide) (by omega)
  · rw [hr, Nat.div_lt_iff_lt_mul (Nat.two_pow_pos _), ←Nat.pow_add]
    exact Nat.lt_of_lt_of_le hu <| Nat.pow_le_pow_right (by decide) (by omega)

theorem exists_roundWithAccuracy (a : Accuracy) (hm : 0 < m) (he : -1074 ≤ e) :
    ∃ m' e' pos, roundWithAccuracy .binary64 s m e a = .finite s m' e' pos ∧
      m' < 2 ^ 53 ∧ -1074 ≤ e' := by
  have ⟨hm, _, he⟩ := shiftToTargetExponent_bounds a hm he
  have hr : 0 < (shiftToTargetExponent .binary64 m e a).1.roundedMantissa :=
    Nat.lt_of_lt_of_le hm <| le_roundToNearestEven _ _
  have ⟨hm, hl, he⟩ := shiftToTargetExponent_bounds .exact hr he
  refine ⟨_, _, hm, ?_, hl, he⟩
  rw [roundWithAccuracy]
  exact dif_neg (Nat.pos_iff_ne_zero.mp hm)

theorem exists_round (hm : 0 < m) (he : -1074 ≤ e) :
    ∃ m' e' pos, round .binary64 s m e = .finite s m' e' pos ∧ m' < 2 ^ 53 ∧ -1074 ≤ e' := by
  rw [UnpackedFloat.round]
  dsimp only [decreaseExponent]
  apply exists_roundWithAccuracy
  · rw [Nat.shiftLeft_eq]
    exact Nat.mul_pos hm (Nat.two_pow_pos _)
  · rw [targetExponent_totalExponent]
    omega

end Round

section Signs

variable {u v : UnpackedFloat} {b : Bits}

-- The number has the positive sign, if it has a sign at all.
inductive Unsigned : UnpackedFloat → Prop
  | notANumber : Unsigned .notANumber
  | infinity   : Unsigned (.infinity .positive)
  | zero       : Unsigned (.zero .positive)
  | finite {m : Nat} {e : Int} {pos : 0 < m} : Unsigned (.finite .positive m e pos)

theorem Unpacked.unsigned (h : Unpacked b u) (hs : sign b = .positive) : Unsigned u := by
  cases h
  case notANumber         => exact .notANumber
  case infinity           => exact hs ▸ .infinity
  case zero               => exact hs ▸ .zero
  case subnormal | normal => exact hs ▸ .finite

theorem sign_pack (h : Unsigned u) : sign (UnpackedFloat.pack .binary64 u) = .positive := by
  cases h
  case notANumber | infinity | zero => exact sign_packComponents
  case finite                       =>
    rw [UnpackedFloat.pack]
    dsimp only
    split
    case isTrue  => exact sign_packComponents
    case isFalse => split <;> exact sign_packComponents

theorem unsigned_unpack_pack (h : Unsigned u) :
    Unsigned (UnpackedFloat.unpack .binary64 (UnpackedFloat.pack .binary64 u)) :=
  (unpacked _).unsigned <| sign_pack h

theorem unsigned_roundWithAccuracy {m : Nat} {e : Int} {a : Accuracy} :
    Unsigned (roundWithAccuracy .binary64 .positive m e a) := by
  rw [roundWithAccuracy]
  dsimp only
  split
  case isTrue  => exact .zero
  case isFalse => exact .finite

theorem unsigned_normalize (n : Nat) : Unsigned (normalize .binary64 n 0 .positive) := by
  rw [UnpackedFloat.normalize]
  split
  case h_1 h =>
    have := Int.compare_eq_lt.mp h
    omega
  case h_2   => exact .zero
  case h_3   => exact unsigned_roundWithAccuracy

theorem unsigned_mul (hu : Unsigned u) (hv : Unsigned v) : Unsigned (mul .binary64 u v) := by
  cases hu <;> cases hv
  case finite.finite => exact unsigned_roundWithAccuracy
  all_goals constructor

theorem unsigned_div (hu : Unsigned u) (hv : Unsigned v) : Unsigned (div .binary64 u v) := by
  cases hu <;> cases hv
  case finite.finite => exact unsigned_roundWithAccuracy
  all_goals constructor

theorem unsigned_ofScientific (m : Nat) (e : Int) :
    Unsigned (UnpackedFloat.ofScientific .binary64 m e) := by
  rw [UnpackedFloat.ofScientific]
  split
  case isTrue  => exact .zero
  case isFalse =>
    split
    case isTrue  => exact .infinity
    case isFalse =>
      split
      case isTrue  => exact .zero
      case isFalse =>
        split
        case isTrue  => exact unsigned_mul .finite .finite
        case isFalse => exact unsigned_div .finite .finite

theorem unsigned_ofNat (n : Nat) : Unsigned (Float.ofNat n).toModel.unpack := by
  rw [Float.ofNat]
  dsimp only [OfScientific.ofScientific, Float.ofScientific]
  split
  case isTrue  =>
    have one : Unsigned (Float.ofBits 0x3FF0000000000000).toModel.unpack :=
      (unpacked _).unsigned rfl
    exact unsigned_unpack_pack <| unsigned_mul (unsigned_unpack_pack <| unsigned_normalize _) one
  case isFalse => exact unsigned_unpack_pack <| unsigned_ofScientific n 0

end Signs

section Add

variable {u v : UnpackedFloat}

-- The number is not minus zero, and will not be taken for it once it is packed.
structure Proper (u : UnpackedFloat) : Prop where
  fits : Fits u
  ne   : u ≠ .zero .negative

namespace Proper

variable {s : Sign} {m : Nat} {e : Int} {pos : 0 < m}

theorem notANumber : Proper .notANumber := ⟨trivial, by simp⟩

theorem infinity : Proper (.infinity s) := ⟨trivial, by simp⟩

theorem zero : Proper (.zero .positive) := ⟨trivial, by simp⟩

theorem finite (h : Fits (.finite s m e pos)) : Proper (.finite s m e pos) := ⟨h, by simp⟩

end Proper

theorem Unsigned.proper (h : Unsigned u) (hf : Fits u) : Proper u := by
  refine ⟨hf, fun he => ?_⟩
  subst he
  cases h

theorem Proper.pack_ne (h : Proper u) :
    UnpackedFloat.pack .binary64 u ≠ packedZero .binary64 .negative := by
  intro hz
  have exponent := congrArg unpackExponent hz
  cases u
  case finite s m e pos => exact pack_finite_ne h.fits _ hz
  case notANumber       => simp [UnpackedFloat.pack, packedNaN, packedZero] at exponent
  case infinity s       => simp [UnpackedFloat.pack, packedInfinity, packedZero] at exponent
  case zero s           =>
    have hs := congrArg sign hz
    rw [UnpackedFloat.pack, packedZero, packedZero, sign_packComponents, sign_packComponents] at hs
    exact h.ne <| hs ▸ rfl

theorem proper_normalize {m : Int} {e : Int} (he : -1074 ≤ e) :
    Proper (normalize .binary64 m e .positive) := by
  rw [UnpackedFloat.normalize]
  split
  case h_1 h =>
    have hm := Int.compare_eq_lt.mp h
    have ⟨_, _, _, hr, hf⟩ := exists_round (s := .negative) (m := (-m).toNat) (by omega) he
    rw [hr]
    exact .finite hf
  case h_2   => exact .zero
  case h_3 h =>
    have hm := Int.compare_eq_gt.mp h
    have ⟨_, _, _, hr, hf⟩ := exists_round (s := .positive) (m := m.toNat) (by omega) he
    rw [hr]
    exact .finite hf

-- It takes two to add up to minus zero.
theorem proper_add (hu : Fits u) (hv : Proper v) : Proper (UnpackedFloat.add .binary64 u v) := by
  cases u
  case notANumber => exact .notANumber
  case infinity s =>
    cases v
    case notANumber    => exact .notANumber
    case zero | finite => exact .infinity
    case infinity      =>
      rw [UnpackedFloat.add]
      split
      case isTrue  => exact .infinity
      case isFalse => exact .notANumber
  case zero s =>
    cases v
    case notANumber => exact .notANumber
    case infinity   => exact .infinity
    case finite     => exact hv
    case zero t     =>
      cases t
      case negative => exact absurd rfl hv.ne
      case positive => cases s <;> exact .zero
  case finite s m e pos =>
    cases v
    case notANumber => exact .notANumber
    case infinity   => exact .infinity
    case zero       => exact .finite hu
    case finite     =>
      have he := hu.right
      have he' := hv.fits.right
      exact proper_normalize (by omega)

theorem add_ne_neg_zero {x y : Float} (h : Proper y.toModel.unpack) : x + y ≠ -0 := by
  intro he
  have hb : (x + y).toBits.toBitVec = (-0 : Float).toBits.toBitVec := by rw [he]
  exact (proper_add (unpacked x.toModel.toBits.toBitVec).fits h).pack_ne hb

end Add

section Sub

theorem sub_zero (u : UnpackedFloat) : UnpackedFloat.sub .binary64 u (.zero .positive) = u := by
  cases u
  case zero s                         => cases s <;> rfl
  case notANumber | infinity | finite => rfl

theorem sub_self (u : UnpackedFloat) :
    UnpackedFloat.sub .binary64 u u = .notANumber ∨
      UnpackedFloat.sub .binary64 u u = .zero .positive := by
  cases u
  case notANumber   => exact .inl rfl
  case infinity s   => cases s <;> exact .inl rfl
  case zero s       => cases s <;> exact .inr rfl
  case finite s m e =>
    right
    simp only [UnpackedFloat.sub, UnpackedFloat.normalize, Int.sub_self]
    rfl

theorem pack_unpack_toModel (x : Float) :
    UnpackedFloat.pack .binary64 x.toModel.unpack = x.toBits.toBitVec := by
  refine (@UnpackedFloat.pack_unpack .binary64 x.toBits.toBitVec (by decide)).trans ?_
  split
  case isFalse => rfl
  case isTrue h =>
    have ⟨he, hm⟩ := of_decide_eq_true h
    exact (x.toModel.valid.eq_packedNaN he hm).symm

theorem float_sub_zero (x : Float) : x - Float.ofNat 0 = x := by
  have hs : (x - Float.ofNat 0).toBits.toBitVec =
      UnpackedFloat.pack .binary64 (.sub .binary64 x.toModel.unpack (.zero .positive)) := rfl
  apply Float.toBits_inj.mp
  apply UInt64.toBitVec_inj.mp
  rw [hs, sub_zero, pack_unpack_toModel]

-- Nothing comes between a number and itself, and where there is no number there is no difference.
theorem float_sub_self (x : Float) : ¬Float.ofNat 0 < x - x := by
  intro h
  have hs : (x - x).toModel.unpack = UnpackedFloat.unpack .binary64
      (UnpackedFloat.pack .binary64 (.sub .binary64 x.toModel.unpack x.toModel.unpack)) := rfl
  have h : (Float.ofNat 0).toModel.unpack.lt (x - x).toModel.unpack := of_decide_eq_true h
  cases sub_self x.toModel.unpack
  all_goals
    rw [hs, ‹UnpackedFloat.sub _ _ _ = _›] at h
    exact absurd h (by decide)

end Sub

end Binary64

end SignalFlow
