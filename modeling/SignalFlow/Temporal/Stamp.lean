/-!
Seconds since 1970 as they are kept: the bit pattern of a binary64 number. The pattern survives
storage as it is, also where it stands for no number; arithmetic and comparison go by its value.
-/

namespace SignalFlow

structure Stamp where
  bits : UInt64
deriving DecidableEq, Repr, Inhabited

namespace Stamp

def ofFloat (x : Float) : Stamp := ⟨x.toBits⟩

def toFloat (s : Stamp) : Float := Float.ofBits s.bits

def isNan (s : Stamp) : Bool := s.toFloat.isNaN

-- The bit that tells a quiet non-number from a signalling one.
def quietBit : UInt64 := 0x0008000000000000

def quiet (s : Stamp) : Stamp := ⟨s.bits ||| quietBit⟩

-- A difference with a term that is no number is that term, the first one if both are none.
def sub (a b : Stamp) : Stamp :=
  if a.isNan then a.quiet
  else if b.isNan then b.quiet
  else ofFloat (a.toFloat - b.toFloat)

instance : Sub Stamp := ⟨sub⟩

instance (n : Nat) : OfNat Stamp n := ⟨ofFloat (Float.ofNat n)⟩

instance : LT Stamp := ⟨fun a b => a.toFloat < b.toFloat⟩

instance : LE Stamp := ⟨fun a b => a.toFloat ≤ b.toFloat⟩

instance (a b : Stamp) : Decidable (a < b) :=
  inferInstanceAs (Decidable (a.toFloat < b.toFloat))

instance (a b : Stamp) : Decidable (a ≤ b) :=
  inferInstanceAs (Decidable (a.toFloat ≤ b.toFloat))

-- Whether the two stand for one number; what is no number equals nothing, not even itself.
def same (a b : Stamp) : Bool := a.toFloat == b.toFloat

end Stamp

end SignalFlow
