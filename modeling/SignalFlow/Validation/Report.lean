import SignalFlow.Catalog.Parameters
import SignalFlow.Graph.Basic

/-!
What a check of a graph can find. A finding is a cause; its kind, its severity, the node that it is
about and its wording follow from the cause.
-/

namespace SignalFlow

inductive Severity where
  | error
  | warning
deriving DecidableEq, Repr

def Severity.name : Severity → String
  | .error => "error"
  | .warning => "warning"

inductive IssueKind where
  | emptyGraph
  | duplicateNode
  | duplicateEdge
  | unknownNodeType
  | invalidParameter
  | missingInput
  | unusedOutput
  | missingNode
  | invalidPort
  | typeMismatch
  | cycleDetected
  | disconnectedComponents
  | unreachableSink
  | tooManyNodes
  | highConnectivity
  | conflictingActions
  | missingEmergencyExit
deriving DecidableEq, Repr

namespace IssueKind

def all : List IssueKind :=
  [.emptyGraph, .duplicateNode, .duplicateEdge, .unknownNodeType, .invalidParameter, .missingInput,
   .unusedOutput, .missingNode, .invalidPort, .typeMismatch, .cycleDetected,
   .disconnectedComponents, .unreachableSink, .tooManyNodes, .highConnectivity,
   .conflictingActions, .missingEmergencyExit]

def name : IssueKind → String
  | .emptyGraph => "empty_graph"
  | .duplicateNode => "duplicate_node"
  | .duplicateEdge => "duplicate_edge"
  | .unknownNodeType => "unknown_node_type"
  | .invalidParameter => "invalid_parameter"
  | .missingInput => "missing_input"
  | .unusedOutput => "unused_output"
  | .missingNode => "missing_node"
  | .invalidPort => "invalid_port"
  | .typeMismatch => "type_mismatch"
  | .cycleDetected => "cycle_detected"
  | .disconnectedComponents => "disconnected_components"
  | .unreachableSink => "unreachable_sink"
  | .tooManyNodes => "too_many_nodes"
  | .highConnectivity => "high_connectivity"
  | .conflictingActions => "conflicting_actions"
  | .missingEmergencyExit => "missing_emergency_exit"

end IssueKind

-- Which end of an edge a finding is about.
inductive EdgeEnd where
  | source
  | target
deriving DecidableEq, Repr

inductive Issue where
  | emptyGraph
  | duplicateNode (id : String)
  | duplicateEdge (edge : Edge)
  | unknownNodeType (id nodeType : String)
  | invalidParameter (id : String) (fault : ParameterFault)
  | missingInput (id port : String)
  | unusedOutput (id : String)
  | missingNode (atEnd : EdgeEnd) (id : String)
  | invalidPort (atEnd : EdgeEnd) (id nodeType port : String)
  | typeMismatch (source : String) (output : Port) (target : String) (input : Port)
  | cycle (ids : List String)
  | disconnected (components : Nat)
  | unreachableSink (id : String)
  | tooManyNodes (nodes limit : Nat)
  | highConnectivity (id : String) (edges limit : Nat)
  | conflictingActions (actions : Nat)
  | missingEmergencyExit

namespace Issue

def kind : Issue → IssueKind
  | .emptyGraph => .emptyGraph
  | .duplicateNode _ => .duplicateNode
  | .duplicateEdge _ => .duplicateEdge
  | .unknownNodeType _ _ => .unknownNodeType
  | .invalidParameter _ _ => .invalidParameter
  | .missingInput _ _ => .missingInput
  | .unusedOutput _ => .unusedOutput
  | .missingNode _ _ => .missingNode
  | .invalidPort _ _ _ _ => .invalidPort
  | .typeMismatch _ _ _ _ => .typeMismatch
  | .cycle _ => .cycleDetected
  | .disconnected _ => .disconnectedComponents
  | .unreachableSink _ => .unreachableSink
  | .tooManyNodes _ _ => .tooManyNodes
  | .highConnectivity _ _ _ => .highConnectivity
  | .conflictingActions _ => .conflictingActions
  | .missingEmergencyExit => .missingEmergencyExit

-- Errors keep a graph from being compiled, warnings do not.
def severity : Issue → Severity
  | .emptyGraph => .error
  | .duplicateNode _ => .error
  | .duplicateEdge _ => .warning
  | .unknownNodeType _ _ => .error
  | .invalidParameter _ _ => .error
  | .missingInput _ _ => .error
  | .unusedOutput _ => .warning
  | .missingNode _ _ => .error
  | .invalidPort _ _ _ _ => .error
  | .typeMismatch _ _ _ _ => .error
  | .cycle _ => .error
  | .disconnected _ => .warning
  | .unreachableSink _ => .warning
  | .tooManyNodes _ _ => .warning
  | .highConnectivity _ _ _ => .warning
  | .conflictingActions _ => .warning
  | .missingEmergencyExit => .warning

-- The id of the node that the finding is about.
def node? : Issue → Option String
  | .emptyGraph => none
  | .duplicateNode id => some id
  | .duplicateEdge edge => some edge.targetNode
  | .unknownNodeType id _ => some id
  | .invalidParameter id _ => some id
  | .missingInput id _ => some id
  | .unusedOutput id => some id
  | .missingNode _ id => some id
  | .invalidPort _ id _ _ => some id
  | .typeMismatch _ _ target _ => some target
  | .cycle ids => ids.head?
  | .disconnected _ => none
  | .unreachableSink id => some id
  | .tooManyNodes _ _ => none
  | .highConnectivity id _ _ => some id
  | .conflictingActions _ => none
  | .missingEmergencyExit => none

def message : Issue → String
  | .emptyGraph => "Graph contains no nodes"
  | .duplicateNode id => "Node id '" ++ id ++ "' is used more than once"
  | .duplicateEdge e =>
    "Duplicate edge " ++ e.sourceNode ++ "." ++ e.sourcePort ++ " -> " ++ e.targetNode ++ "."
      ++ e.targetPort
  | .unknownNodeType _ nodeType => Catalog.unknownTypeMessage nodeType
  | .invalidParameter _ fault => fault.message
  | .missingInput _ port => "Required input '" ++ port ++ "' is not connected"
  | .unusedOutput id => "Output of action '" ++ id ++ "' is not consumed"
  | .missingNode .source id => "Edge source '" ++ id ++ "' does not exist"
  | .missingNode .target id => "Edge target '" ++ id ++ "' does not exist"
  | .invalidPort .source _ nodeType port =>
    "'" ++ nodeType ++ "' has no output port '" ++ port ++ "'"
  | .invalidPort .target _ nodeType port =>
    "'" ++ nodeType ++ "' has no input port '" ++ port ++ "'"
  | .typeMismatch source output target input =>
    "Cannot connect " ++ output.dataType.name ++ " output '" ++ source ++ "." ++ output.name
      ++ "' to " ++ input.dataType.name ++ " input '" ++ target ++ "." ++ input.name ++ "'"
  | .cycle ids => "Cycle detected: " ++ " -> ".intercalate (ids ++ ids.take 1)
  | .disconnected components =>
    "Graph has " ++ toString components ++ " disconnected components"
  | .unreachableSink id => "Sink '" ++ id ++ "' is not reachable from any source"
  | .tooManyNodes nodes limit =>
    "Graph has " ++ toString nodes ++ " nodes; more than " ++ toString limit
      ++ " may evaluate slowly"
  | .highConnectivity _ edges limit =>
    "Node has " ++ toString edges ++ " edges (limit " ++ toString limit ++ ")"
  | .conflictingActions actions =>
    toString actions ++ " buy/sell actions may emit conflicting signals"
  | .missingEmergencyExit => "No emergency_exit action is present"

-- The finding on one line.
def text (i : Issue) : String :=
  "[" ++ i.kind.name ++ "] " ++ i.message
    ++ i.node?.elim "" fun id => " (node '" ++ id ++ "')"

def toJson (i : Issue) : Json :=
  .obj [("kind", .str i.kind.name), ("severity", .str i.severity.name),
    ("message", .str i.message), ("node_id", .ofOption .str i.node?)]

end Issue

-- All findings of a check, errors and warnings apart, each in the order of the check.
structure Report where
  errors : List Issue
  warnings : List Issue

namespace Report

def ofIssues (issues : List Issue) : Report where
  errors := issues.filter (·.severity = .error)
  warnings := issues.filter (·.severity = .warning)

def isValid (r : Report) : Bool :=
  r.errors.isEmpty

def hasError (r : Report) (kind : IssueKind) : Bool :=
  r.errors.any (·.kind = kind)

def hasWarning (r : Report) (kind : IssueKind) : Bool :=
  r.warnings.any (·.kind = kind)

-- All findings, the errors first.
def issues (r : Report) : List Issue :=
  r.errors ++ r.warnings

end Report

end SignalFlow
