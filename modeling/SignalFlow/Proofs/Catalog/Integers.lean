import SignalFlow.Proofs.Catalog.Parameters
import SignalFlow.Proofs.Json.Integers
import SignalFlow.Proofs.Temporal.Machine

/-!
Integers that are given as numbers of any kind. Between bounds that are not too long these are just
the integers, so that what is counted is what was given.
-/

namespace SignalFlow

open Float.Model Float.Model.UnpackedFloat

namespace Binary64

variable {n m : Nat} {e : Int}

-- Whatever is not subnormal has a mantissa that is long enough.
theorem full_of_unpack {x : Float} {s : Sign} {pos : 0 < m}
    (h : x.toModel.unpack = .finite s m e pos) (he : -1074 < e) : 2 ^ 52 ≤ m := by
  have hb := unpacked x.toBits.toBitVec
  change UnpackedFloat.unpack .binary64 x.toBits.toBitVec = _ at h
  generalize UnpackedFloat.unpack .binary64 x.toBits.toBitVec = u at h hb
  cases hb
  case infinity | notANumber | zero => cases h
  case subnormal                    =>
    have ⟨_, _, he'⟩ := UnpackedFloat.finite.injEq .. ▸ h
    omega
  case normal hm _                  =>
    have ⟨_, hm', _⟩ := UnpackedFloat.finite.injEq .. ▸ h
    omega

theorem lt_finite_iff {k : Nat} {f : Int} {pos : 0 < m} {pos' : 0 < k} :
    UnpackedFloat.lt (.finite .positive m e pos) (.finite .positive k f pos') ↔
      e < f ∨ e = f ∧ m < k := by
  simp [UnpackedFloat.lt, UnpackedFloat.compare, Ordering.then_eq_lt, Int.compare_eq_lt,
    Nat.compare_eq_lt]

section Bounds

variable (hn : 0 < n) (hs : n < 2 ^ 53)
include hn hs

-- What is not below an integer is as a fraction of whole numbers at least as great.
theorem le_of_not_lt_ofNat {pos : 0 < m} (hf : -1074 < e → 2 ^ 52 ≤ m)
    (h : ¬UnpackedFloat.lt (.finite .positive m e pos) (Float.ofNat n).toModel.unpack) :
    n * Binary.denominator e ≤ Binary.numerator m e := by
  have hz : n ≠ 0 := by omega
  have hlog : n.log2 < 53 := (Nat.log2_lt hz).mpr hs
  rw [unpack_ofNat_of_lt hn hs, lt_finite_iff] at h
  have hf := hf (by omega)
  rw [Binary.denominator, Binary.numerator, Nat.pow_eq, Nat.pow_eq]
  by_cases he : e = n.log2 - 52
  case pos =>
    have hd : (-e).toNat = 52 - n.log2 := by omega
    have hp : e.toNat = 0 := by omega
    rw [hd, hp, Nat.pow_zero, Nat.mul_one]
    omega
  case neg =>
    calc n * 2 ^ (-e).toNat
      _ ≤ 2 ^ (n.log2 + 1) * 2 ^ (-e).toNat :=
        Nat.mul_le_mul_right _ <| Nat.le_of_lt Nat.lt_log2_self
      _ = 2 ^ (n.log2 + 1 + (-e).toNat)     := (Nat.pow_add ..).symm
      _ ≤ 2 ^ (52 + e.toNat)                := Nat.pow_le_pow_right (by decide) (by omega)
      _ = 2 ^ 52 * 2 ^ e.toNat              := Nat.pow_add ..
      _ ≤ m * 2 ^ e.toNat                   := Nat.mul_le_mul_right _ hf

theorem le_of_not_ofNat_lt {pos : 0 < m} (hm : m < 2 ^ 53)
    (h : ¬UnpackedFloat.lt (Float.ofNat n).toModel.unpack (.finite .positive m e pos)) :
    Binary.numerator m e ≤ n * Binary.denominator e := by
  have hz : n ≠ 0 := by omega
  have hlog : n.log2 < 53 := (Nat.log2_lt hz).mpr hs
  rw [unpack_ofNat_of_lt hn hs, lt_finite_iff] at h
  rw [Binary.denominator, Binary.numerator, Nat.pow_eq, Nat.pow_eq]
  have hp : e.toNat = 0 := by omega
  rw [hp, Nat.pow_zero, Nat.mul_one]
  by_cases he : e = n.log2 - 52
  case pos =>
    have hd : (-e).toNat = 52 - n.log2 := by omega
    rw [hd]
    omega
  case neg =>
    calc m
      _ ≤ 2 ^ 53                        := Nat.le_of_lt hm
      _ ≤ 2 ^ (n.log2 + (-e).toNat)     := Nat.pow_le_pow_right (by decide) (by omega)
      _ = 2 ^ n.log2 * 2 ^ (-e).toNat   := Nat.pow_add ..
      _ ≤ n * 2 ^ (-e).toNat            := Nat.mul_le_mul_right _ <| Nat.log2_self_le hz

end Bounds

-- A positive integer is the float that it is taken for, unless that is too long to have a fraction.
theorem unpacked_ofInt {i : Int} {pos : 0 < m} (hr : leastInteger ≤ i ∧ i ≤ greatestUnsigned)
    (hx : (Float.ofInt i).toModel.unpack = .finite .positive m e pos) :
    (∃ k : Nat, i = k ∧ Binary.numerator m e = k * Binary.denominator e) ∨
      2 ^ 52 ≤ m ∧ 1 ≤ e := by
  cases i
  case negSucc k =>
    have hr : -2 ^ 63 ≤ Int.negSucc k := hr.left
    have ⟨_, _, _, hx'⟩ := exists_unpack_neg_ofNat (Nat.succ_pos k) (by omega)
    cases hx'.symm.trans hx
  case ofNat k =>
    have hr : (k : Int) ≤ 2 ^ 64 - 1 := hr.right
    change (Float.ofNat k).toModel.unpack = _ at hx
    rcases Nat.eq_zero_or_pos k with hz | hz
    case inl =>
      rw [hz, unpack_ofNat_zero] at hx
      cases hx
    case inr =>
      by_cases hk : k < 2 ^ 53
      case pos =>
        have hlog : k.log2 < 53 := (Nat.log2_lt (by omega)).mpr hk
        have ⟨_, hm, he⟩ := UnpackedFloat.finite.injEq .. ▸
          (unpack_ofNat_of_lt hz hk).symm.trans hx
        have hp : e.toNat = 0 := by omega
        have hd : (-e).toNat = 52 - k.log2 := by omega
        refine .inl ⟨k, rfl, ?_⟩
        rw [Binary.numerator, Binary.denominator, hp, hd, ←hm]
        exact Nat.mul_one _
      case neg =>
        have ⟨m', e', h, hx', he'⟩ := exists_unpack_ofNat_of_le (Nat.not_lt.mp hk) (by omega)
        have ⟨_, hm, he⟩ := UnpackedFloat.finite.injEq .. ▸ hx'.symm.trans hx
        exact .inr ⟨hm ▸ h.full, he ▸ he'⟩

-- Between two integers there are positive numbers only.
theorem exists_finite_of_not_lt {x : Float} {lo hi : Nat} (hn : Numeric x.toModel.unpack)
    (hlo : 0 < lo) (hlo' : lo < 2 ^ 53) (hhi : hi < 2 ^ 53) (hhi' : 0 < hi)
    (hl : ¬x < Float.ofNat lo) (hu : ¬Float.ofNat hi < x) :
    ∃ m e pos, x.toModel.unpack = .finite .positive m e pos ∧
      lo * Binary.denominator e ≤ Binary.numerator m e ∧
      Binary.numerator m e ≤ hi * Binary.denominator e := by
  have hl : ¬UnpackedFloat.lt x.toModel.unpack (Float.ofNat lo).toModel.unpack :=
    fun h => hl <| decide_eq_true h
  have hu : ¬UnpackedFloat.lt (Float.ofNat hi).toModel.unpack x.toModel.unpack :=
    fun h => hu <| decide_eq_true h
  cases hx : x.toModel.unpack
  case notANumber => exact absurd hx hn
  case infinity s =>
    rw [hx, unpack_ofNat_of_lt hlo hlo'] at hl
    rw [hx, unpack_ofNat_of_lt hhi' hhi] at hu
    cases s
    case negative => exact absurd rfl hl
    case positive => exact absurd rfl hu
  case zero s =>
    rw [hx, unpack_ofNat_of_lt hlo hlo'] at hl
    exact absurd rfl hl
  case finite s m e pos =>
    cases s
    case negative =>
      rw [hx, unpack_ofNat_of_lt hlo hlo'] at hl
      exact absurd rfl hl
    case positive =>
      rw [hx] at hl hu
      refine ⟨m, e, pos, rfl, le_of_not_lt_ofNat hlo hlo' (full_of_unpack hx) hl,
        le_of_not_ofNat_lt hhi' hhi ?_ hu⟩
      have hf := (unpacked x.toBits.toBitVec).fits
      change UnpackedFloat.unpack .binary64 x.toBits.toBitVec = _ at hx
      rw [hx] at hf
      exact hf.left

end Binary64

namespace Number

open Binary64

-- The number is that integer, be it written as one or with a fraction of zero.
def Equals : Number → Nat → Prop
  | .int i _, k   => i = k
  | .float x _, k => ∃ m e, Binary.ofFloat x = .finite false m e ∧
    Binary.numerator m e = k * Binary.denominator e

-- An integer has integers between its bounds, if these are short enough, and they are exact.
theorem exists_equals {n : Number} (lo hi : Nat) (hlo : 0 < lo) (hle : lo ≤ hi) (hhi : hi < 2 ^ 53)
    (ht : ParameterType.integer.Holds (.num n)) (hl : ¬n.toFloat < Float.ofNat lo)
    (hu : ¬Float.ofNat hi < n.toFloat) :
    ∃ k m e, n.Equals k ∧ lo ≤ k ∧ k ≤ hi ∧ Binary.ofFloat n.toFloat = .finite false m e ∧
      Binary.numerator m e = k * Binary.denominator e := by
  have ⟨m, e, pos, hx, hleast, hmost⟩ :=
    exists_finite_of_not_lt n.numeric_toFloat hlo (by omega) hhi
    (by omega) hl hu
  have hb := Binary.ofFloat_of_unpack hx
  have hd : 0 < Binary.denominator e := Nat.two_pow_pos _
  have range {k : Nat} (he : Binary.numerator m e = k * Binary.denominator e) :
      lo ≤ k ∧ k ≤ hi := by
    rw [he] at hleast hmost
    exact ⟨Nat.le_of_mul_le_mul_right hleast hd, Nat.le_of_mul_le_mul_right hmost hd⟩
  cases n
  case int i hr =>
    cases unpacked_ofInt hr hx
    case inl h =>
      have ⟨k, hi, he⟩ := h
      exact ⟨k, m, e, hi, (range he).left, (range he).right, hb, he⟩
    case inr h =>
      -- the integer is beyond the bounds, as it is too long
      have hd : Binary.denominator e = 1 := by
        have : (-e).toNat = 0 := by omega
        rw [Binary.denominator, this]
      have hm : 2 ^ 52 * 2 ^ 1 ≤ m * 2 ^ e.toNat :=
        Nat.mul_le_mul h.left <| Nat.pow_le_pow_right (Nat.succ_pos 1) (by omega)
      rw [hd] at hmost
      change m * 2 ^ e.toNat ≤ _ at hmost
      omega
  case float x hf =>
    have hw : (Binary.ofFloat x).isWhole := ht.resolve_left (by simp [signed?])
    rw [toFloat] at hb
    rw [hb, Binary.isWhole, beq_iff_eq] at hw
    have he := (Nat.div_mul_cancel <| Nat.dvd_of_mod_eq_zero hw).symm
    exact ⟨_, m, e, ⟨m, e, hb, he⟩, (range he).left, (range he).right, hb, he⟩

end Number

-- A count that is a positive integer counts as that.
theorem countOf_eq {greatest : Int} {k m : Nat} {e : Int} {x : Float} (hk : 1 ≤ k)
    (hg : k ≤ greatest) (hx : Binary.ofFloat x = .finite false m e)
    (he : Binary.numerator m e = k * Binary.denominator e) : countOf greatest x = k := by
  have hd : 0 < Binary.denominator e := Nat.two_pow_pos _
  rw [countOf, hx, Binary.clamp, he, Nat.mul_div_cancel _ hd]
  simp only [Bool.false_eq_true, if_false]
  omega

end SignalFlow
