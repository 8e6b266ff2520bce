import SignalFlow.Json.Lexer
import SignalFlow.Json.Printer
import SignalFlow.Temporal.Machine

/-!
Machines as bytes. Numbers that count take one byte up to 250, and a mark with two, four or eight
bytes above that, low byte first; reading accepts longer forms than needed. Bytes after a complete
machine are ignored.
-/

namespace SignalFlow

abbrev Blob := List UInt8

namespace Blob

-- The lowest `count` bytes of a number, low byte first.
def ofNat : (count : Nat) → Nat → Blob
  | 0, _ => []
  | count + 1, n => UInt8.ofNat n :: ofNat count (n / 256)

def toNat : Blob → Nat
  | [] => 0
  | b :: rest => b.toNat + 256 * toNat rest

-- Writing.

def greatestByte : Nat := 250

def writeCount (n : Nat) : Blob :=
  if n ≤ greatestByte then ofNat 1 n
  else if n < 0x10000 then 251 :: ofNat 2 n
  else if n < 0x100000000 then 252 :: ofNat 4 n
  else 253 :: ofNat 8 n

def writeBool (b : Bool) : Blob := [if b then 1 else 0]

def writeStamp (s : Stamp) : Blob := ofNat 8 s.bits.toNat

def writeOption : Option Stamp → Blob
  | none => [0]
  | some s => 1 :: writeStamp s

def writeStamps (l : List Stamp) : Blob :=
  writeCount l.length ++ l.flatMap writeStamp

def ofMachine : Machine → Blob
  | .duration s =>
    writeCount 0 ++ writeBool s.active ++ writeOption s.startTime ++ writeStamp s.elapsed
  | .sequence s => writeCount 1 ++ writeStamps s.events ++ writeOption s.lastTrigger

-- Reading. Every reader gives what follows the bytes that it took.

def readNat (count : Nat) (b : Blob) : Option (Nat × Blob) :=
  if b.length < count then none else some (toNat (b.take count), b.drop count)

-- A count whose longest form has `widest` bytes after its mark.
def readCount (widest : Nat) : Blob → Option (Nat × Blob)
  | [] => none
  | b :: rest =>
    if b.toNat ≤ greatestByte then some (b.toNat, rest)
    else if b = 251 then readNat 2 rest
    else if b = 252 then readNat 4 rest
    else if b = 253 ∧ 8 ≤ widest then readNat 8 rest
    else none

def readBool : Blob → Option (Bool × Blob)
  | 0 :: rest => some (false, rest)
  | 1 :: rest => some (true, rest)
  | _ => none

def readStamp (b : Blob) : Option (Stamp × Blob) :=
  (readNat 8 b).map fun (n, rest) => (⟨UInt64.ofNat n⟩, rest)

def readOption (b : Blob) : Option (Option Stamp × Blob) :=
  match readBool b with
  | some (false, rest) => some (none, rest)
  | some (true, rest) => (readStamp rest).map fun (s, rest) => (some s, rest)
  | none => none

def readStamps : (count : Nat) → Blob → Option (List Stamp × Blob)
  | 0, b => some ([], b)
  | count + 1, b => do
    let (s, rest) ← readStamp b
    let (l, rest) ← readStamps count rest
    some (s :: l, rest)

def readHold (b : Blob) : Option (Hold.State Stamp × Blob) := do
  let (active, rest) ← readBool b
  let (startTime, rest) ← readOption rest
  let (elapsed, rest) ← readStamp rest
  some (⟨active, startTime, elapsed⟩, rest)

def readSequence (b : Blob) : Option (Sequence.State Stamp × Blob) := do
  let (count, rest) ← readCount 8 b
  let (events, rest) ← readStamps count rest
  let (lastTrigger, rest) ← readOption rest
  some (⟨events, lastTrigger⟩, rest)

-- The kind of a machine is a count of at most four bytes.
def readMachine (b : Blob) : Option (Machine × Blob) := do
  let (kind, rest) ← readCount 4 b
  match kind with
  | 0 => (readHold rest).map fun (s, rest) => (.duration s, rest)
  | 1 => (readSequence rest).map fun (s, rest) => (.sequence s, rest)
  | _ => none

def machine? (b : Blob) : Option Machine :=
  (readMachine b).map Prod.fst

-- Bytes as text, two hexadecimal digits each.

def hex (b : Blob) : String :=
  String.ofList (b.flatMap fun x => [Json.hexDigit (x.toNat / 16), Json.hexDigit x.toNat])

def ofHexDigits? : List Char → Option Blob
  | [] => some []
  | [_] => none
  | a :: b :: rest => do
    let high ← Json.hexValue? a
    let low ← Json.hexValue? b
    (ofHexDigits? rest).map (UInt8.ofNat (16 * high + low) :: ·)

def ofHex? (text : String) : Option Blob :=
  ofHexDigits? text.toList

end Blob

end SignalFlow
