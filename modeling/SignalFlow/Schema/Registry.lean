import SignalFlow.Graph.Basic

/-!
Versions of the schema and the hops between them. A graph is moved from its version to another one
by following, from each version, the first hop registered for it.
-/

namespace SignalFlow

-- One upgrade from a version to the next.
structure Hop where
  source : String
  target : String
  apply : Graph → Graph

inductive MigrationError where
  | unsupportedVersion (version : String)
  | noPath (source target : String)
  -- the hops run in a circle that does not meet the target
  | endless (source target : String)
deriving DecidableEq

def MigrationError.message : MigrationError → String
  | .unsupportedVersion version => "Schema version '" ++ version ++ "' is not supported"
  | .noPath source target =>
    "No migration path from schema '" ++ source ++ "' to '" ++ target ++ "'"
  | .endless source target =>
    "Migration from schema '" ++ source ++ "' to '" ++ target ++ "' does not end"

-- The known versions, oldest first, and the hops, each in the order of registration.
structure Registry where
  versions : List String
  hops : List Hop

namespace Registry

def firstVersion : String := "1.0"

def new : Registry := ⟨[firstVersion], []⟩

def learn (versions : List String) (version : String) : List String :=
  if version ∈ versions then versions else versions ++ [version]

-- Versions that a hop names and that were not known become the newest ones.
def withHop (r : Registry) (hop : Hop) : Registry where
  versions := learn (learn r.versions hop.source) hop.target
  hops := r.hops ++ [hop]

def currentVersion (r : Registry) : String :=
  r.versions.getLast?.getD firstVersion

def rank? (r : Registry) (version : String) : Option Nat :=
  r.versions.findIdx? (· == version)

def hopFrom? (r : Registry) (version : String) : Option Hop :=
  r.hops.find? (·.source == version)

def stamp (g : Graph) (version : String) : Graph :=
  { g with metadata := g.metadata.insert Graph.schemaVersionKey (.str version) }

-- Follows hops until the target is met, `fuel` of them at most.
def follow (r : Registry) (target : String) :
    (fuel : Nat) → (version : String) → Graph → Except MigrationError Graph
  | fuel, version, g =>
    if version = target then .ok (stamp g target)
    else
      match r.hopFrom? version with
      | none => .error (.noPath version target)
      | some hop =>
        match fuel with
        | 0 => .error (.endless version target)
        | fuel + 1 => follow r target fuel hop.target (hop.apply g)

-- The graph at the target version, or at the current one if none is given. A graph that does not
-- tell its version is taken to be current. No walk without a circle uses more hops than there are.
def migrate (r : Registry) (g : Graph) (target? : Option String) : Except MigrationError Graph :=
  let target := target?.getD r.currentVersion
  let version := g.schemaVersion?.getD r.currentVersion
  match r.rank? target with
  | none => .error (.unsupportedVersion target)
  | some targetRank =>
    match r.rank? version with
    | none => .error (.unsupportedVersion version)
    | some rank =>
      if targetRank < rank then .error (.noPath version target)
      else r.follow target r.hops.length version g

end Registry

end SignalFlow
