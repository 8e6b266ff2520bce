import SignalFlow.Json.Document
import SignalFlow.Json.Lexer

/-!
From tokens to a document. The reader is a machine with a stack of the lists and objects that are
still open; it takes one token at a time.
-/

namespace SignalFlow

namespace Json

-- A list or an object deeper than this has no value.
def depthLimit : Nat := 127

-- A list or an object under construction, its parts last first.
inductive Frame where
  | list (items : List Document)
  | object (members : List (Option String × Document)) (name : Option String)

inductive ReaderState where
  -- a value is due, or the end of a list that was just opened
  | item (stack : List Frame) (opened : Bool)
  -- a name is due, or the end of an object that was just opened
  | member (stack : List Frame) (members : List (Option String × Document)) (opened : Bool)
  | colon (stack : List Frame) (members : List (Option String × Document)) (name : Option String)
  -- a value was read
  | done (stack : List Frame) (value : Document)

namespace ReaderState

def start : ReaderState := .item [] false

-- A list or an object inside `stack` is complete.
def close (stack : List Frame) (value : Document) : ReaderState :=
  .done stack (if stack.length < depthLimit then value else .unusable)

def step : ReaderState → Token → Option ReaderState
  | .item stack opened, token =>
    match token with
    | .openList => some (.item (.list [] :: stack) true)
    | .openObject => some (.member stack [] true)
    | .closeList =>
      match opened, stack with
      | true, .list items :: stack => some (close stack (.arr items.reverse))
      | _, _ => none
    | .null => some (.done stack .null)
    | .bool b => some (.done stack (.bool b))
    | .num n => some (.done stack (n.elim .unusable .num))
    | .str s => some (.done stack (s.elim .unusable .str))
    | _ => none
  | .member stack members opened, token =>
    match token with
    | .str s => some (.colon stack members s)
    | .closeObject => if opened then some (close stack (.obj members.reverse)) else none
    | _ => none
  | .colon stack members name, token =>
    match token with
    | .colon => some (.item (.object members name :: stack) false)
    | _ => none
  | .done stack value, token =>
    match stack, token with
    | .list items :: stack, .comma => some (.item (.list (value :: items) :: stack) false)
    | .list items :: stack, .closeList => some (close stack (.arr (value :: items).reverse))
    | .object members name :: stack, .comma => some (.member stack ((name, value) :: members) false)
    | .object members name :: stack, .closeObject =>
      some (close stack (.obj ((name, value) :: members).reverse))
    | _, _ => none

def result? : ReaderState → Option Document
  | .done [] value => some value
  | _ => none

end ReaderState

def document? (tokens : List Token) : Option Document :=
  (tokens.foldlM ReaderState.step ReaderState.start).bind ReaderState.result?

end Json

-- The document that a text writes.
def Document.parse? (text : String) : Option Document :=
  (Json.tokens? text.toList).bind Json.document?

-- The value that a text writes.
def Json.parse? (text : String) : Option Json :=
  (Document.parse? text).bind Document.json?

end SignalFlow
