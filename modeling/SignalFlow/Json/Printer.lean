import SignalFlow.Json.Basic
import SignalFlow.Decimal.Layout

/-!
Writing structured values, on one line or indented by two spaces a level.
-/

namespace SignalFlow

def Number.text : Number → String
  | .int i _ => toString i
  | .float x _ => Decimal.Layout.structured.render x

namespace Json

def hexDigit (n : Nat) : Char :=
  Nat.digitChar (n % 16)

-- Quotes, backslashes and control characters are escaped; all else stands for itself.
def escape (c : Char) : List Char :=
  if c = '"' then ['\\', '"']
  else if c = '\\' then ['\\', '\\']
  else if c = '\n' then ['\\', 'n']
  else if c = '\r' then ['\\', 'r']
  else if c = '\t' then ['\\', 't']
  else if c.toNat = 8 then ['\\', 'b']
  else if c.toNat = 12 then ['\\', 'f']
  else if c.toNat < 32 then
    ['\\', 'u', '0', '0', hexDigit (c.toNat / 16), hexDigit c.toNat]
  else [c]

def quoted (s : String) : List Char :=
  '"' :: s.toList.flatMap escape ++ ['"']

mutual

def chars : Json → List Char
  | .null => ['n', 'u', 'l', 'l']
  | .bool true => ['t', 'r', 'u', 'e']
  | .bool false => ['f', 'a', 'l', 's', 'e']
  | .num n => n.text.toList
  | .str s => quoted s
  | .arr items => '[' :: itemChars items ++ [']']
  | .obj members => '\x7b' :: memberChars members ++ ['\x7d']

def itemChars : List Json → List Char
  | [] => []
  | [j] => j.chars
  | j :: rest => j.chars ++ ',' :: itemChars rest

def memberChars : List (String × Json) → List Char
  | [] => []
  | [(name, j)] => quoted name ++ ':' :: j.chars
  | (name, j) :: rest => quoted name ++ ':' :: j.chars ++ ',' :: memberChars rest

end

def compact (j : Json) : String :=
  String.ofList j.chars

def newline (level : Nat) : List Char :=
  '\n' :: List.replicate (2 * level) ' '

mutual

-- The indented form; `level` is the depth of the value.
def indented (level : Nat) : Json → List Char
  | .arr (item :: items) =>
    '[' :: indentedItems (level + 1) (item :: items) ++ newline level ++ [']']
  | .obj (member :: members) =>
    '\x7b' :: indentedMembers (level + 1) (member :: members) ++ newline level ++ ['\x7d']
  | .arr [] => ['[', ']']
  | .obj [] => ['\x7b', '\x7d']
  | .null => ['n', 'u', 'l', 'l']
  | .bool true => ['t', 'r', 'u', 'e']
  | .bool false => ['f', 'a', 'l', 's', 'e']
  | .num n => n.text.toList
  | .str s => quoted s

def indentedItems (level : Nat) : List Json → List Char
  | [] => []
  | [j] => newline level ++ j.indented level
  | j :: rest => newline level ++ j.indented level ++ ',' :: indentedItems level rest

def indentedMembers (level : Nat) : List (String × Json) → List Char
  | [] => []
  | [(name, j)] => newline level ++ quoted name ++ ':' :: ' ' :: j.indented level
  | (name, j) :: rest =>
    newline level ++ quoted name ++ ':' :: ' ' :: j.indented level
      ++ ',' :: indentedMembers level rest

end

def pretty (j : Json) : String :=
  String.ofList (j.indented 0)

end Json

end SignalFlow
