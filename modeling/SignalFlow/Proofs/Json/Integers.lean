import SignalFlow.Decimal.Binary
import SignalFlow.Proofs.Json.Number

/-!
Integers as floats. Rounding leaves what has no more than 53 digits as it is, and takes what is
longer to 53 digits with a positive exponent; packing keeps both. So integers of 64 bits are finite
floats, the shorter ones exactly.
-/

namespace SignalFlow

open Float.Model Float.Model.UnpackedFloat

namespace Binary64

-- All 53 digits of the mantissa are in use, and the exponent can be packed.
structure Normal (m : Nat) (e : Int) : Prop where
  full  : 2 ^ 52 ≤ m
  short : m < 2 ^ 53
  least : -1074 ≤ e
  most  : e ≤ 971

section Round

variable {s : Sign} {m n : Nat} {e : Int}

theorem Normal.pos (h : Normal m e) : 0 < m :=
  Nat.lt_of_lt_of_le (Nat.two_pow_pos 52) h.full

theorem unpack_pack_normal (h : Normal m e) (pos : 0 < m) :
    UnpackedFloat.unpack .binary64 (UnpackedFloat.pack .binary64 (.finite s m e pos)) =
      .finite s m e pos := by
  have ⟨hl, hu, he, hm⟩ := h
  have hn := numeric_unpack_pack (u := .finite s m e pos) (by simp [Numeric])
  rw [pack_finite hu he, if_neg (by omega), if_pos hl] at hn ⊢
  have sign : sign (packComponents .binary64 s (.ofNat 11 (e + 1075).toNat) (.ofNat 52 m)) = s :=
    sign_packComponents
  have exponent : (unpackExponent (packComponents .binary64 s (.ofNat 11 (e + 1075).toNat)
      (.ofNat 52 m))).toNat = (e + 1075).toNat := by
    rw [unpackExponent_packComponents]
    exact Nat.mod_eq_of_lt (by omega)
  have mantissa : (unpackMantissa (packComponents .binary64 s (.ofNat 11 (e + 1075).toNat)
      (.ofNat 52 m))).toNat = m - 2 ^ 52 := by
    rw [unpackMantissa_packComponents]
    exact (Nat.mod_eq_sub_mod hl).trans <| Nat.mod_eq_of_lt (by omega)
  have hb := unpacked (packComponents .binary64 s (.ofNat 11 (e + 1075).toNat) (.ofNat 52 m))
  generalize packComponents .binary64 s (.ofNat 11 (e + 1075).toNat) (.ofNat 52 m) = b at *
  generalize UnpackedFloat.unpack .binary64 b = u at hb hn ⊢
  cases hb
  case notANumber                  => exact absurd rfl hn
  case infinity hx _               =>
    rw [hx] at exponent
    simp at exponent
    omega
  case zero hx _ | subnormal hx _ _ =>
    rw [hx] at exponent
    simp at exponent
    omega
  case normal m' e' _ _ hx hm' _ =>
    have he' : e' = e := by omega
    have hm' : m' = m := by omega
    subst sign he' hm'
    rfl

theorem shiftRight_mul_two_pow (m k : Nat) :
    (⟨m * 2 ^ k, false, false⟩ : ExtendedMantissa) >>> k = ⟨m, false, false⟩ := by
  induction k generalizing m
  case zero      => simp [HShiftRight.hShiftRight, Nat.repeat]
  case succ k hi =>
    have := hi (m * 2)
    rw [Nat.pow_succ', ←Nat.mul_assoc]
    exact (congrArg ExtendedMantissa.shiftRightOne this).trans <| by
      simp [ExtendedMantissa.shiftRightOne]

theorem shiftToTargetExponent_mul_two_pow (k : Nat) (hl : 2 ^ 52 ≤ m) (hu : m < 2 ^ 53)
    (he : -1074 ≤ e) :
    shiftToTargetExponent .binary64 (m * 2 ^ k) (e - k) .exact = (⟨m, false, false⟩, e) := by
  have hm : m ≠ 0 := by omega
  have hlog : (m * 2 ^ k).log2 = 52 + k := by
    rw [Nat.log2_eq_iff (by positivity), Nat.pow_add, Nat.add_right_comm, Nat.pow_add]
    exact ⟨Nat.mul_le_mul_right _ hl, Nat.mul_lt_mul_of_pos_right hu (Nat.two_pow_pos k)⟩
  have hk : (max (((m * 2 ^ k).log2 : Int) + 1 + (e - k) - 53) (-1074) - (e - k)).toNat = k := by
    rw [hlog]
    push_cast
    omega
  simp only [shiftToTargetExponent, shiftToExponent, targetExponent_totalExponent, hk,
    ExtendedMantissa.ofMantissaAndAccuracy, shiftRight_mul_two_pow, Int.sub_add_cancel]

-- What is rounded may be a digit too long, and ends in zero then.
theorem roundWithAccuracy_of_rounded {m' : Nat} {e' : Int} {a : Accuracy} (k : Nat)
    (h : Normal m' e')
    (hm : (shiftToTargetExponent .binary64 m e a).1.roundedMantissa = m' * 2 ^ k)
    (he : (shiftToTargetExponent .binary64 m e a).2 = e' - k) :
    roundWithAccuracy .binary64 s m e a = .finite s m' e' h.pos := by
  simp only [roundWithAccuracy, hm, he,
    shiftToTargetExponent_mul_two_pow k h.full h.short h.least]
  exact dif_neg <| Nat.pos_iff_ne_zero.mp h.pos

-- Digits that are all zero are dropped without a trace.
theorem roundWithAccuracy_mul_two_pow (k : Nat) (h : Normal m e) :
    roundWithAccuracy .binary64 s (m * 2 ^ k) (e - k) .exact = .finite s m e h.pos := by
  have hs := shiftToTargetExponent_mul_two_pow k h.full h.short h.least
  apply roundWithAccuracy_of_rounded 0 h
  case hm => rw [hs, Nat.pow_zero, Nat.mul_one]; rfl
  case he => rw [hs, Int.natCast_zero, Int.sub_zero]

theorem roundToNearestEven_le (m : Nat) (a : Accuracy) : a.roundToNearestEven m ≤ m + 1 := by
  cases a
  case exact     => exact Nat.le_succ m
  case inexact o =>
    cases o
    case lt => exact Nat.le_succ m
    case eq => exact Nat.add_le_add_left (Nat.le_of_lt_succ <| Nat.mod_lt _ (by decide)) m
    case gt => exact Nat.le_refl _

-- What has too many digits gets as many as there may be.
theorem exists_roundWithAccuracy_normal (a : Accuracy) (hm : 2 ^ 52 ≤ m) (he : -1074 ≤ e)
    (hs : e + m.log2 ≤ 1022) :
    ∃ m' e', ∃ h : Normal m' e', roundWithAccuracy .binary64 s m e a = .finite s m' e' h.pos ∧
      e + m.log2 - 52 ≤ e' := by
  have hz : m ≠ 0 := by omega
  have hlog : 52 ≤ m.log2 := (Nat.le_log2 hz).mpr hm
  have hk : (max ((m.log2 : Int) + 1 + e - 53) (-1074) - e).toNat = m.log2 - 52 := by omega
  let first := shiftToTargetExponent .binary64 m e a
  have hmantissa : first.1.mantissa = m / 2 ^ (m.log2 - 52) := by
    simp only [first, shiftToTargetExponent, shiftToExponent, targetExponent_totalExponent, hk,
      mantissa_shiftRight, mantissa_ofMantissaAndAccuracy]
  have hexponent : first.2 = e + m.log2 - 52 := by
    simp only [first, shiftToTargetExponent, shiftToExponent, targetExponent_totalExponent, hk]
    omega
  have hl : 2 ^ 52 ≤ first.1.mantissa := by
    rw [hmantissa, Nat.le_div_iff_mul_le (Nat.two_pow_pos _), ←Nat.pow_add,
      Nat.add_sub_cancel' hlog]
    exact Nat.log2_self_le hz
  have hu : first.1.mantissa < 2 ^ 53 := by
    rw [hmantissa, Nat.div_lt_iff_lt_mul (Nat.two_pow_pos _), ←Nat.pow_add]
    exact Nat.lt_of_lt_of_eq Nat.lt_log2_self <| congrArg _ (by omega)
  have hr := le_roundToNearestEven first.1.mantissa first.1.accuracy
  have hr' := roundToNearestEven_le first.1.mantissa first.1.accuracy
  by_cases hc : first.1.roundedMantissa < 2 ^ 53
  case pos =>
    have h : Normal first.1.roundedMantissa first.2 :=
      ⟨Nat.le_trans hl hr, hc, by omega, by omega⟩
    exact ⟨_, _, h, roundWithAccuracy_of_rounded 0 h (Nat.mul_one _).symm (Int.sub_zero _).symm,
      by omega⟩
  case neg =>
    have h : Normal (2 ^ 52) (first.2 + 1) := ⟨Nat.le_refl _, by decide, by omega, by omega⟩
    refine ⟨_, _, h, roundWithAccuracy_of_rounded 1 h ?_ (Int.add_sub_cancel ..).symm, by omega⟩
    rw [ExtendedMantissa.roundedMantissa] at hc
    exact Nat.le_antisymm (Nat.le_trans hr' hu) (Nat.not_lt.mp hc)

theorem normal_shiftLeft_log2 (hn : 0 < n) (hs : n < 2 ^ 53) :
    Normal (n * 2 ^ (52 - n.log2)) (n.log2 - 52) := by
  have hz : n ≠ 0 := by omega
  have hlog : n.log2 < 53 := (Nat.log2_lt hz).mpr hs
  have hl := Nat.mul_le_mul_right (2 ^ (52 - n.log2)) <| Nat.log2_self_le hz
  have hu := Nat.mul_lt_mul_of_pos_right (Nat.lt_log2_self (n := n)) (Nat.two_pow_pos (52 - n.log2))
  rw [←Nat.pow_add] at hl hu
  have he : n.log2 + (52 - n.log2) = 52 := by omega
  rw [Nat.add_right_comm, he] at hu
  rw [he] at hl
  exact ⟨hl, hu, by omega, by omega⟩

theorem normalize_natCast (hn : 0 < n) (hs : n < 2 ^ 53) :
    normalize .binary64 n 0 .positive =
      .finite .positive (n * 2 ^ (52 - n.log2)) (n.log2 - 52)
        (normal_shiftLeft_log2 hn hs).pos := by
  have hz : n ≠ 0 := by omega
  have hlog : n.log2 < 53 := (Nat.log2_lt hz).mpr hs
  have hc : compare (n : Int) 0 = .gt := Int.compare_eq_gt.mpr (by omega)
  have hk : (0 - max ((n.log2 : Int) + 1 + 0 - 53) (-1074)).toNat = 52 - n.log2 := by omega
  have hx : (0 : Int) - ((52 - n.log2 : Nat) : Int) = n.log2 - 52 := by omega
  have hr := roundWithAccuracy_mul_two_pow (s := .positive) 0 <| normal_shiftLeft_log2 hn hs
  rw [Nat.pow_zero, Nat.mul_one, Int.natCast_zero, Int.sub_zero] at hr
  simp only [UnpackedFloat.normalize, hc, Int.toNat_natCast, UnpackedFloat.round,
    targetExponent_totalExponent, decreaseExponent, hk, hx, Nat.shiftLeft_eq, hr]

theorem unpack_ofNat_zero : (Float.ofNat 0).toModel.unpack = .zero .positive := rfl

-- Integers of up to 53 digits are floats.
theorem unpack_ofNat_of_lt (hn : 0 < n) (hs : n < 2 ^ 53) :
    (Float.ofNat n).toModel.unpack = .finite .positive (n * 2 ^ (52 - n.log2)) (n.log2 - 52)
      (normal_shiftLeft_log2 hn hs).pos := by
  have one : (Float.ofBits 0x3FF0000000000000).toModel.unpack =
    .finite .positive (2 ^ 52) (-52) (by decide) := rfl
  have h := normal_shiftLeft_log2 hn hs
  have hu : n.toUInt64.toNat = n := Nat.mod_eq_of_lt (by omega)
  rw [Float.ofNat]
  dsimp only [OfScientific.ofScientific, Float.ofScientific]
  rw [dif_pos ⟨hs, by decide⟩]
  change UnpackedFloat.unpack _ (UnpackedFloat.pack _ (UnpackedFloat.mul _
    (UnpackedFloat.unpack _ (UnpackedFloat.pack _ (normalize _ (n.toUInt64.toNat : Int) _ _)))
    (Float.ofBits 0x3FF0000000000000).toModel.unpack)) = _
  rw [hu, normalize_natCast hn hs, unpack_pack_normal h, one]
  have hr := roundWithAccuracy_mul_two_pow (s := .positive) 52 h
  exact (congrArg _ <| congrArg _ hr).trans <| unpack_pack_normal h h.pos

-- Longer ones are rounded to floats that are integers, too.
theorem exists_unpack_ofNat_of_le (hl : 2 ^ 53 ≤ n) (hu : n < 2 ^ 64) :
    ∃ m e, ∃ h : Normal m e, (Float.ofNat n).toModel.unpack = .finite .positive m e h.pos ∧
      1 ≤ e := by
  have hz : n ≠ 0 := by omega
  have hlog : 53 ≤ n.log2 := (Nat.le_log2 hz).mpr hl
  have hlog' : n.log2 < 64 := (Nat.log2_lt hz).mpr hu
  have hf : 2 ^ 52 ≤ n * 2 ^ 53 := by omega
  have hs : (n * 2 ^ 53).log2 = n.log2 + 53 := by
    rw [Nat.log2_eq_iff (by omega), Nat.pow_add, Nat.add_right_comm, Nat.pow_add]
    exact ⟨Nat.mul_le_mul_right _ <| Nat.log2_self_le hz,
      Nat.mul_lt_mul_of_pos_right Nat.lt_log2_self (Nat.two_pow_pos 53)⟩
  have ⟨m, e, h, hr, he⟩ := exists_roundWithAccuracy_normal (s := .positive) (e := -53) .exact hf
    (by decide) (by omega)
  refine ⟨m, e, h, ?_, by omega⟩
  have hn : ¬(n < 2 ^ 53 ∧ 0 ≤ 22) := by omega
  rw [Float.ofNat]
  dsimp only [OfScientific.ofScientific, Float.ofScientific]
  rw [dif_neg hn]
  change UnpackedFloat.unpack _ (UnpackedFloat.pack _ (UnpackedFloat.ofScientific _ n 0)) = _
  have hp : (2 : Int) ^ Format.binary64.exponentBits = 2048 := rfl
  have product : UnpackedFloat.ofScientific .binary64 n 0 =
      roundWithAccuracy .binary64 .positive (n * 2 ^ 53) (-53) .exact := by
    rw [UnpackedFloat.ofScientific, dif_neg hz, if_neg (by decide), if_neg (by omega),
      if_pos (by decide)]
    simp only [UnpackedFloat.mul, Nat.shiftLeft_eq, Int.toNat_zero, Nat.pow_zero, Nat.mul_one]
    rfl
  rw [product, hr, unpack_pack_normal h]

theorem exists_unpack_ofNat (hn : 0 < n) (hu : n < 2 ^ 64) :
    ∃ m e, ∃ h : Normal m e, (Float.ofNat n).toModel.unpack = .finite .positive m e h.pos := by
  by_cases hs : n < 2 ^ 53
  case pos => exact ⟨_, _, normal_shiftLeft_log2 hn hs, unpack_ofNat_of_lt hn hs⟩
  case neg =>
    have ⟨m, e, h, hx, _⟩ := exists_unpack_ofNat_of_le (Nat.not_lt.mp hs) hu
    exact ⟨m, e, h, hx⟩

theorem exists_unpack_neg_ofNat (hn : 0 < n) (hu : n < 2 ^ 64) :
    ∃ m e, ∃ h : Normal m e, (Float.ofNat n).neg.toModel.unpack = .finite .negative m e h.pos := by
  have ⟨m, e, h, hx⟩ := exists_unpack_ofNat hn hu
  refine ⟨m, e, h, ?_⟩
  change UnpackedFloat.unpack _ (UnpackedFloat.pack _ (Float.ofNat n).toModel.unpack.neg) = _
  rw [hx]
  exact unpack_pack_normal h h.pos

end Round

section Fields

variable (b : Bits)

theorem toNat_unpackExponent : (unpackExponent b).toNat = b.toNat / 2 ^ 52 % 2048 := by
  simp only [unpackExponent, BitVec.toNat_cast, BitVec.extractLsb_toNat, Nat.shiftRight_eq_div_pow]

theorem toNat_unpackMantissa : (unpackMantissa b).toNat = b.toNat % 2 ^ 52 := by
  simp only [unpackMantissa, BitVec.toNat_cast, BitVec.extractLsb_toNat, Nat.shiftRight_zero]

variable {b} in
theorem toNat_lt_of_sign_eq (h : sign b = .positive) : b.toNat < 2 ^ 63 := by
  have hs : (unpackSign b).toNat = b.toNat / 2 ^ 63 % 2 := by
    simp only [unpackSign, BitVec.toNat_cast, BitVec.extractLsb_toNat, Nat.shiftRight_eq_div_pow]
  have hb : b.toNat < 2 ^ 64 := b.isLt
  rw [sign, Sign.ofBitVec] at h
  split at h
  case isTrue hz =>
    rw [hz] at hs
    have : b.toNat / 2 ^ 63 % 2 = 0 := hs.symm
    omega
  case isFalse => cases h

end Fields

end Binary64

open Binary64 in
-- The two readings of the bits agree.
theorem Binary.ofFloat_of_unpack {x : Float} {m : Nat} {e : Int} {pos : 0 < m}
    (h : x.toModel.unpack = .finite .positive m e pos) :
    ofFloat x = .finite false m e := by
  have hb := unpacked x.toBits.toBitVec
  change UnpackedFloat.unpack .binary64 x.toBits.toBitVec = _ at h
  have hu : x.toBits.toNat = x.toBits.toBitVec.toNat := rfl
  have hf : fullSignificand = 2 ^ 52 := rfl
  have hl : leastExponent = -1074 := rfl
  have hp : Nat.pow 2 63 = 2 ^ 63 := rfl
  rw [ofFloat, ofBits, hu, hf, hl, hp]
  generalize x.toBits.toBitVec = b at h hb
  have exponent := toNat_unpackExponent b
  have mantissa := toNat_unpackMantissa b
  generalize UnpackedFloat.unpack .binary64 b = u at h hb
  cases hb
  case infinity | notANumber | zero => cases h
  case subnormal hx hm _    =>
    have ⟨hs, hm', he⟩ := UnpackedFloat.finite.injEq .. ▸ h
    have := toNat_lt_of_sign_eq hs
    have hz : b.toNat / 2 ^ 52 % 2048 = 0 := exponent.symm.trans <| congrArg BitVec.toNat hx
    have hn : b.toNat / 2 ^ 63 = 0 := by omega
    rw [if_neg (by omega), if_pos hz, hn, ←hm', ←he, ←hm, mantissa]
    rfl
  case normal hx hb he hm _ =>
    have ⟨hs, hm', he'⟩ := UnpackedFloat.finite.injEq .. ▸ h
    have := toNat_lt_of_sign_eq hs
    have hn : b.toNat / 2 ^ 63 = 0 := by omega
    have hz : b.toNat / 2 ^ 52 % 2048 ≠ 0 := by omega
    have he : e = -1074 + (b.toNat / 2 ^ 52 % 2048 - 1 : Nat) := by omega
    rw [if_neg (by omega), if_neg hz, hn, ←hm', ←hm, mantissa, he]
    rfl

open Binary64 in
-- A number in the range of 64 bits is finite as a float.
theorem Number.isFinite_toFloat (n : Number) : n.toFloat.isFinite = true := by
  cases n
  case float x h => exact h
  case int i h   =>
    cases i
    case ofNat n   =>
      have hr : (n : Int) ≤ 2 ^ 64 - 1 := h.right
      change (Float.ofNat n).toModel.unpack.isFinite = true
      cases Nat.eq_zero_or_pos n
      case inl hz => subst hz; rfl
      case inr hp =>
        have ⟨_, _, _, hx⟩ := exists_unpack_ofNat hp (by omega)
        rw [hx]
        rfl
    case negSucc n =>
      have hr : -2 ^ 63 ≤ Int.negSucc n := h.left
      have ⟨_, _, _, hx⟩ := exists_unpack_neg_ofNat n.succ_pos (by omega)
      change (Float.ofNat n.succ).neg.toModel.unpack.isFinite = true
      rw [hx]
      rfl

end SignalFlow
