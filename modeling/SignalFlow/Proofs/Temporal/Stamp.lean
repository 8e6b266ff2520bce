import SignalFlow.Proofs.Temporal.Binary64
import SignalFlow.Temporal.Stamp
import SignalFlow.Time.Instant

/-!
Stamps that equal one another are the same, bit for bit, unless one of them is minus zero. No clock
shows minus zero, and no time span that is positive is minus zero.
-/

namespace SignalFlow

open Float.Model

namespace Stamp

variable {a b : Stamp}

theorem toBits_toFloat (h : a.toFloat ≠ .nan) : a.toFloat.toBits = a.bits := by
  have hp := @UnpackedFloat.pack_unpack .binary64 a.bits.toBitVec (by decide)
  apply UInt64.toBitVec_inj.mp
  split at hp
  case isFalse => exact hp
  case isTrue  =>
    have hn : a.toFloat.toBits = Float.nan.toBits := UInt64.toBitVec_inj.mp hp
    exact absurd (Float.toBits_inj.mp hn) h

-- The stamp is not minus zero.
def IsPlain (a : Stamp) : Prop :=
  a.toFloat ≠ -0

theorem eq_of_same (h : a.same b) (ha : a.IsPlain) (hb : b.IsPlain) : a = b := by
  have ⟨hna, hnb, he⟩ := Float.beq_iff_ne_nan_and_eq.mp h
  have he : a.toFloat = b.toFloat := by
    rcases he with he | ⟨_, he⟩ | ⟨he, _⟩
    · exact he
    · exact absurd he hb
    · exact absurd he ha
  have hb : a.bits = b.bits := by rw [←toBits_toFloat hna, he, toBits_toFloat hnb]
  cases a
  cases b
  exact congrArg mk hb

theorem isPlain_zero : (0 : Stamp).IsPlain := by
  rw [IsPlain]
  decide

theorem isPlain_of_pos (h : 0 < a) : a.IsPlain := by
  intro hz
  have h : (0 : Stamp).toFloat < a.toFloat := h
  rw [hz] at h
  exact absurd h (by decide)

-- A clock shows whole seconds and a fraction that is not negative, and these do not add up to minus
-- zero.
theorem isPlain_ofFloat_toFloat (t : Instant) : (ofFloat t.toFloat).IsPlain := by
  have fraction : Binary64.Proper
      (Float.ofNat (t.nanos / 1000) / Float.ofNat 1000000).toModel.unpack :=
    (Binary64.unsigned_unpack_pack <| Binary64.unsigned_div (Binary64.unsigned_ofNat _)
      (Binary64.unsigned_ofNat _)).proper (Binary64.unpacked _).fits
  rw [IsPlain, toFloat, ofFloat, Float.ofBits_toBits]
  exact Binary64.add_ne_neg_zero fraction

theorem toFloat_ofFloat (x : Float) : (ofFloat x).toFloat = x :=
  Float.ofBits_toBits x

theorem quiet_nan : (ofFloat .nan).quiet = ofFloat .nan := by
  decide

theorem sub_ofFloat (x y : Float) : ofFloat x - ofFloat y =
    if x = .nan then ofFloat .nan else if y = .nan then ofFloat .nan else ofFloat (x - y) := by
  have hs : ofFloat x - ofFloat y = (ofFloat x).sub (ofFloat y) := rfl
  have nan (x : Float) : (ofFloat x).isNan ↔ x = .nan := by
    rw [isNan, toFloat_ofFloat, Float.isNaN_eq_decide_eq_nan, decide_eq_true_iff]
  simp only [hs, sub, nan, toFloat_ofFloat]
  split
  case isTrue hx => rw [hx, quiet_nan]
  case isFalse   =>
    split
    case isTrue hy => rw [hy, quiet_nan]
    case isFalse   => rfl

theorem sub_zero_ofFloat (x : Float) : ofFloat x - 0 = ofFloat x := by
  have hz : (0 : Stamp) = ofFloat (Float.ofNat 0) := rfl
  have hn : Float.ofNat 0 ≠ .nan := by decide
  rw [hz, sub_ofFloat, if_neg hn, Binary64.float_sub_zero]
  split
  case isTrue hx => rw [hx]
  case isFalse   => rfl

theorem sub_self_ofFloat (x : Float) : ¬0 < ofFloat x - ofFloat x := by
  intro h
  have h : (0 : Stamp).toFloat < (ofFloat x - ofFloat x).toFloat := h
  rw [sub_ofFloat] at h
  split at h
  case isTrue  => exact absurd h (by decide)
  case isFalse =>
    rw [toFloat_ofFloat] at h
    exact Binary64.float_sub_self x h

end Stamp

end SignalFlow
