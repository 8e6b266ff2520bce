import SignalFlow.Json.Basic

/-!
What a kind of node is declared with: its category, its typed ports and its parameters.
-/

namespace SignalFlow

-- The role that a node plays in a strategy.
inductive Category where
  | dataSource
  | indicator
  | condition
  | composition
  | action
deriving DecidableEq, Repr

namespace Category

def all : List Category := [.dataSource, .indicator, .condition, .composition, .action]

def name : Category → String
  | .dataSource => "data_source"
  | .indicator => "indicator"
  | .condition => "condition"
  | .composition => "composition"
  | .action => "action"

def ofName? (s : String) : Option Category :=
  all.find? (·.name == s)

end Category

-- What a port carries.
inductive DataType where
  | price
  | volume
  | indicatorValue
  | boolean
  | signal
deriving DecidableEq, Repr

namespace DataType

def all : List DataType := [.price, .volume, .indicatorValue, .boolean, .signal]

def name : DataType → String
  | .price => "price"
  | .volume => "volume"
  | .indicatorValue => "indicator_value"
  | .boolean => "boolean"
  | .signal => "signal"

def ofName? (s : String) : Option DataType :=
  all.find? (·.name == s)

-- Types that differ and may still be wired together.
def coercions : List (DataType × DataType) :=
  [(.price, .indicatorValue), (.indicatorValue, .price),
   (.volume, .indicatorValue), (.indicatorValue, .volume)]

def canConnectTo (source target : DataType) : Bool :=
  source = target || (source, target) ∈ coercions

end DataType

inductive Direction where
  | input
  | output
deriving DecidableEq, Repr

namespace Direction

def all : List Direction := [.input, .output]

def name : Direction → String
  | .input => "input"
  | .output => "output"

def ofName? (s : String) : Option Direction :=
  all.find? (·.name == s)

end Direction

structure Port where
  name : String
  dataType : DataType
  direction : Direction
  required : Bool
deriving DecidableEq, Repr

inductive ParameterType where
  | number
  | integer
  | boolean
  | string
  | numberList
deriving DecidableEq, Repr

def ParameterType.name : ParameterType → String
  | .number => "number"
  | .integer => "integer"
  | .boolean => "boolean"
  | .string => "string"
  | .numberList => "list of numbers"

structure Parameter where
  name : String
  type : ParameterType
  default : Option Json := none
  required : Bool := false
  min : Option Float := none
  max : Option Float := none
  -- the only texts that are accepted; none means any
  allowed : List String := []

-- A kind of node, as authors see it.
structure Definition where
  name : String
  category : Category
  description : String
  ports : List Port
  parameters : List Parameter := []

namespace Definition

def inputs (d : Definition) : List Port :=
  d.ports.filter (·.direction = .input)

def outputs (d : Definition) : List Port :=
  d.ports.filter (·.direction = .output)

def port? (d : Definition) (name : String) (direction : Direction) : Option Port :=
  d.ports.find? fun p => p.name == name && p.direction == direction

def parameter? (d : Definition) (name : String) : Option Parameter :=
  d.parameters.find? (·.name == name)

end Definition

end SignalFlow
