import SignalFlow.Time.Instant

/-!
The date-time notation of RFC 3339. Writing uses UTC and as many decimals of the second as are
needed, in groups of three. Reading accepts any offset and is lenient about blanks and the width of
the components.
-/

namespace SignalFlow

namespace Rfc3339

def secondsPerDay : Int := 86400

-- Writing.

def padded (width n : Nat) : String :=
  let ds := Nat.toDigits 10 n
  String.ofList (List.replicate (width - ds.length) '0' ++ ds)

-- Years of four digits stand plain, all others carry a sign.
def yearText (year : Int) : String :=
  if 0 ≤ year ∧ year ≤ 9999 then padded 4 year.toNat
  else if year < 0 then "-" ++ padded 4 (-year).toNat
  else "+" ++ padded 4 year.toNat

def fractionText (nanos : Nat) : String :=
  if nanos = 0 then ""
  else if nanos % 1000000 = 0 then "." ++ padded 3 (nanos / 1000000)
  else if nanos % 1000 = 0 then "." ++ padded 6 (nanos / 1000)
  else "." ++ padded 9 nanos

def write (t : Instant) : String :=
  let date := Date.ofDays (t.seconds / secondsPerDay)
  let time := (t.seconds % secondsPerDay).toNat
  let leap := t.nanos / 1000000000
  yearText date.year ++ "-" ++ padded 2 date.month ++ "-" ++ padded 2 date.day ++ "T"
    ++ padded 2 (time / 3600) ++ ":" ++ padded 2 (time / 60 % 60) ++ ":"
    ++ padded 2 (time % 60 + leap) ++ fractionText (t.nanos % 1000000000) ++ "Z"

-- Reading. Each scanner takes the characters it understands and returns the rest.

def isBlank (c : Char) : Bool :=
  let n := c.toNat
  (9 ≤ n && n ≤ 13) || n == 32 || n == 0x85 || n == 0xA0 || n == 0x1680
    || (0x2000 ≤ n && n ≤ 0x200A) || n == 0x2028 || n == 0x2029 || n == 0x202F || n == 0x205F
    || n == 0x3000

def skipBlanks (cs : List Char) : List Char :=
  cs.dropWhile isBlank

def digitsValue (ds : List Char) : Nat :=
  ds.foldl (fun n c => 10 * n + (c.toNat - '0'.toNat)) 0

-- Between one and `width` digits.
def scanNumber (width : Nat) (cs : List Char) : Option (Nat × List Char) :=
  let ds := (cs.take width).takeWhile Char.isDigit
  if ds.isEmpty then none else some (digitsValue ds, cs.drop ds.length)

-- A component after optional blanks.
def scanComponent (cs : List Char) : Option (Nat × List Char) :=
  scanNumber 2 (skipBlanks cs)

def scanMark (mark : Char) : List Char → Option (List Char)
  | c :: rest => if c = mark then some rest else none
  | [] => none

-- A year: up to four digits, or a sign and any number of digits.
def scanYear (cs : List Char) : Option (Int × List Char) :=
  match skipBlanks cs with
  | '-' :: rest => (scanNumber rest.length rest).map fun (n, rest) => (-(n : Int), rest)
  | '+' :: rest => (scanNumber rest.length rest).map fun (n, rest) => ((n : Int), rest)
  | cs => (scanNumber 4 cs).map fun (n, rest) => ((n : Int), rest)

-- Decimals of a second; those after the ninth are skipped.
def scanFraction : List Char → Option (Nat × List Char)
  | '.' :: rest =>
    let ds := rest.takeWhile Char.isDigit
    let kept := ds.take 9
    if ds.isEmpty then none
    else some (digitsValue kept * Nat.pow 10 (9 - kept.length), rest.drop ds.length)
  | cs => some (0, cs)

def scanPair : List Char → Option (Nat × List Char)
  | a :: b :: rest =>
    if a.isDigit && b.isDigit then some (digitsValue [a, b], rest) else none
  | _ => none

-- The offset from UTC in seconds.
def scanOffset : List Char → Option (Int × List Char)
  | 'Z' :: rest => some (0, rest)
  | 'z' :: rest => some (0, rest)
  | c :: rest =>
    if ((c :: rest).take 3).map Char.toUpper = ['U', 'T', 'C'] then some (0, rest.drop 2)
    else do
      let sign : Int ←
        if c = '+' then some 1 else if c = '-' || c = '\u2212' then some (-1) else none
      let (hours, rest) ← scanPair rest
      let (minutes, rest) ← scanPair (rest.dropWhile fun c => c = ':' || isBlank c)
      if minutes < 60 ∧ hours < 24 then some (sign * (hours * 3600 + minutes * 60 : Nat), rest)
      else none
  | [] => none

def isSeparator (c : Char) : Bool :=
  c = 'T' || c = 't' || c = ' '

-- The instant at which clocks with that offset show that date and time. The second 60 is a leap
-- second.
def instant? (date : Date) (hour minute second nanos : Nat) (offset : Int) : Option Instant :=
  if date.IsValid ∧ hour < 24 ∧ minute < 60 ∧ second ≤ 60 then
    let leap := if second = 60 then 1 else 0
    let shown := date.toDays * secondsPerDay + (hour * 3600 + minute * 60 + (second - leap) : Nat)
    if Instant.InRange shown ∧ Instant.InRange (shown - offset) then
      some ⟨shown - offset, nanos + leap * 1000000000⟩
    else none
  else none

def read? (text : String) : Option Instant := do
  let (year, cs) ← scanYear text.toList
  let cs ← scanMark '-' (skipBlanks cs)
  let (month, cs) ← scanComponent cs
  let cs ← scanMark '-' (skipBlanks cs)
  let (day, cs) ← scanComponent cs
  let cs ← match cs with
    | c :: rest => if isSeparator c then some rest else none
    | [] => none
  let (hour, cs) ← scanComponent cs
  let cs ← scanMark ':' (skipBlanks cs)
  let (minute, cs) ← scanComponent cs
  let cs ← scanMark ':' (skipBlanks cs)
  let (second, cs) ← scanComponent cs
  let (nanos, cs) ← scanFraction cs
  let (offset, cs) ← scanOffset (skipBlanks cs)
  if (skipBlanks cs).isEmpty then instant? ⟨year, month, day⟩ hour minute second nanos offset
  else none

end Rfc3339

end SignalFlow
