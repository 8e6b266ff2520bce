import SignalFlow.Catalog.Definitions
import SignalFlow.Json.Printer

/-!
Checking the parameters of a node against the catalog. Parameters that the kind does not declare are
ignored; one that is absent or `null` is at fault only if it is required and has no default.
-/

namespace SignalFlow

-- Why a parameter is not accepted.
inductive ParameterFault where
  | unknownType (nodeType : String)
  | missing (name : String)
  | wrongType (name : String) (expected : ParameterType) (found : Json)
  | notAllowed (name found : String) (allowed : List String)
  | belowMinimum (name : String) (value min : Float)
  | aboveMaximum (name : String) (value max : Float)

namespace ParameterFault

-- The parameter at fault.
def name : ParameterFault → String
  | .unknownType _ => "node_type"
  | .missing name => name
  | .wrongType name _ _ => name
  | .notAllowed name _ _ => name
  | .belowMinimum name _ _ => name
  | .aboveMaximum name _ _ => name

def reason : ParameterFault → String
  | .unknownType nodeType => "unknown node type '" ++ nodeType ++ "'"
  | .missing _ => "is required"
  | .wrongType _ expected found => "expected " ++ expected.name ++ ", found " ++ found.compact
  | .notAllowed _ found allowed =>
    "'" ++ found ++ "' is not one of [" ++ ", ".intercalate allowed ++ "]"
  | .belowMinimum _ value min =>
    Decimal.Layout.message.render value ++ " is below the minimum of "
      ++ Decimal.Layout.message.render min
  | .aboveMaximum _ value max =>
    Decimal.Layout.message.render value ++ " is above the maximum of "
      ++ Decimal.Layout.message.render max

def message (f : ParameterFault) : String :=
  "Parameter '" ++ f.name ++ "' is invalid: " ++ f.reason

end ParameterFault

namespace Parameter

def boundsFault? (p : Parameter) (x : Float) : Option ParameterFault :=
  let below := p.min.bind fun min => if x < min then some (.belowMinimum p.name x min) else none
  let above := p.max.bind fun max => if max < x then some (.aboveMaximum p.name x max) else none
  below.or above

-- The number that an integer parameter stands for; a float will do if it is whole.
def integer? : Json → Option Float
  | .num n =>
    match n.signed? with
    | some i => some (Float.ofInt i)
    | none => if (Binary.ofFloat n.toFloat).isWhole then some n.toFloat else none
  | _ => none

-- What is wrong with a value that is given and not `null`.
def fault? (p : Parameter) (value : Json) : Option ParameterFault :=
  let wrongType := ParameterFault.wrongType p.name p.type value
  match p.type with
  | .number => value.float?.elim (some wrongType) p.boundsFault?
  | .integer => (integer? value).elim (some wrongType) p.boundsFault?
  | .boolean => value.bool?.elim (some wrongType) fun _ => none
  | .string =>
    value.string?.elim (some wrongType) fun s =>
      if p.allowed.isEmpty || s ∈ p.allowed then none else some (.notAllowed p.name s p.allowed)
  | .numberList =>
    value.items?.elim (some wrongType) fun items =>
      if items.all Json.isNumber then none else some wrongType

-- What is wrong with a parameter of a node that has these values.
def faultIn? (p : Parameter) (values : Dict Json) : Option ParameterFault :=
  match values.get? p.name with
  | none | some .null => if p.required && p.default.isNone then some (.missing p.name) else none
  | some value => p.fault? value

end Parameter

namespace Catalog

def parameterFaults (nodeType : String) (values : Dict Json) : List ParameterFault :=
  match find? nodeType with
  | none => [.unknownType nodeType]
  | some d => d.parameters.filterMap (·.faultIn? values)

end Catalog

end SignalFlow
