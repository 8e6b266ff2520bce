import SignalFlow.Proofs.Temporal.Machine
import SignalFlow.Temporal.Blob

/-!
Reading takes back what writing put down, and leaves alone what follows it.
-/

namespace SignalFlow

namespace Blob

variable {n : Nat} {rest : Blob}

theorem length_ofNat (count n : Nat) : (ofNat count n).length = count := by
  induction count generalizing n
  case zero          => rfl
  case succ count hi => rw [ofNat, List.length_cons, hi]

theorem toNat_ofNat {count : Nat} (h : n < 256 ^ count) : toNat (ofNat count n) = n := by
  induction count generalizing n
  case zero          =>
    have hn : n = 0 := by simpa using h
    rw [hn]
    rfl
  case succ count hi =>
    rw [Nat.pow_succ] at h
    rw [ofNat, toNat, hi (Nat.div_lt_of_lt_mul (by rwa [Nat.mul_comm])), UInt8.toNat_ofNat']
    omega

theorem readNat_ofNat {count : Nat} (h : n < 256 ^ count) :
    readNat count (ofNat count n ++ rest) = some (n, rest) := by
  have hl := length_ofNat count n
  rw [readNat, if_neg (by simp [hl]), List.take_left' hl, List.drop_left' hl, toNat_ofNat h]

-- The mark in front of a count tells how many bytes follow.
theorem readCount_writeCount {widest : Nat} (h : n < 2 ^ 32 ∨ n < 2 ^ 64 ∧ 8 ≤ widest) :
    readCount widest (writeCount n ++ rest) = some (n, rest) := by
  rw [writeCount]
  by_cases hb : n ≤ greatestByte
  case pos =>
    have hn : (UInt8.ofNat n).toNat = n := by
      rw [greatestByte] at hb
      rw [UInt8.toNat_ofNat']
      omega
    rw [if_pos hb, ofNat, ofNat, List.singleton_append, readCount, if_pos (hn.symm ▸ hb), hn]
  case neg =>
    rw [if_neg hb]
    by_cases h₂ : n < 0x10000
    case pos =>
      have hl : n < 256 ^ 2 := h₂
      rw [if_pos h₂]
      exact readNat_ofNat hl
    case neg =>
      rw [if_neg h₂]
      by_cases h₄ : n < 0x100000000
      case pos =>
        have hl : n < 256 ^ 4 := h₄
        rw [if_pos h₄]
        exact readNat_ofNat hl
      case neg =>
        have ⟨h₈, hw⟩ : n < 2 ^ 64 ∧ 8 ≤ widest := h.resolve_left h₄
        have hr : readCount widest (253 :: (ofNat 8 n ++ rest)) = readNat 8 (ofNat 8 n ++ rest) :=
          if_pos ⟨rfl, hw⟩
        rw [if_neg h₄, List.cons_append, hr, readNat_ofNat h₈]

theorem readBool_writeBool (b : Bool) : readBool (writeBool b ++ rest) = some (b, rest) := by
  cases b <;> rfl

theorem readStamp_writeStamp (s : Stamp) : readStamp (writeStamp s ++ rest) = some (s, rest) := by
  rw [readStamp, writeStamp, readNat_ofNat s.bits.toNat_lt]
  simp

theorem readOption_writeOption (s : Option Stamp) :
    readOption (writeOption s ++ rest) = some (s, rest) := by
  cases s
  case none   => rfl
  case some s =>
    have hr : readOption (1 :: (writeStamp s ++ rest)) =
      (readStamp (writeStamp s ++ rest)).map fun r => (some r.1, r.2) := rfl
    rw [writeOption, List.cons_append, hr, readStamp_writeStamp, Option.map_some]

theorem readStamps_flatMap (l : List Stamp) :
    readStamps l.length (l.flatMap writeStamp ++ rest) = some (l, rest) := by
  induction l
  case nil         => rfl
  case cons s l hi =>
    rw [List.flatMap_cons, List.append_assoc, List.length_cons, readStamps, readStamp_writeStamp]
    simp only [bind, Option.bind, hi]

theorem readHold_append (s : Hold.State Stamp) :
    readHold (writeBool s.active ++ (writeOption s.startTime ++ (writeStamp s.elapsed ++ rest))) =
      some (s, rest) := by
  simp only [readHold, readBool_writeBool, readOption_writeOption, readStamp_writeStamp, bind,
    Option.bind]

theorem readSequence_append {s : Sequence.State Stamp} (h : s.events.length < 2 ^ 64) :
    readSequence (writeStamps s.events ++ (writeOption s.lastTrigger ++ rest)) =
      some (s, rest) := by
  rw [writeStamps, List.append_assoc, readSequence, readCount_writeCount (.inr ⟨h, Nat.le_refl 8⟩)]
  simp only [readStamps_flatMap, readOption_writeOption, bind, Option.bind]

theorem readMachine_ofMachine {m : Machine} (h : m.Countable) :
    readMachine (ofMachine m ++ rest) = some (m, rest) := by
  have hk (kind : Nat) (h : kind < 2 ^ 32) (rest : Blob) :
    readCount 4 (writeCount kind ++ rest) = some (kind, rest) := readCount_writeCount (.inl h)
  cases m
  case duration s =>
    simp only [ofMachine, List.append_assoc]
    rw [readMachine, hk 0 (by decide)]
    simp only [bind, Option.bind, readHold_append, Option.map_some]
  case sequence s =>
    simp only [ofMachine, List.append_assoc]
    rw [readMachine, hk 1 (by decide)]
    simp only [bind, Option.bind, readSequence_append h, Option.map_some]

theorem machine?_ofMachine_append {m : Machine} (h : m.Countable) (rest : Blob) :
    (ofMachine m ++ rest).machine? = some m := by
  rw [machine?, readMachine_ofMachine h, Option.map_some]

theorem machine?_ofMachine {m : Machine} (h : m.Countable) : (ofMachine m).machine? = some m := by
  rw [←List.append_nil (ofMachine m), machine?_ofMachine_append h]

end Blob

end SignalFlow
