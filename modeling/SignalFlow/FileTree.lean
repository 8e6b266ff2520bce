/-!
Files by their paths, and why a path cannot be read. A path is followed name by name from its start,
so the first name that leads nowhere decides what is wrong with it.
-/

namespace SignalFlow

inductive ReadFault where
  | missing
  | notDirectory
  | directory
  | nameTooLong
  | nulInName
deriving DecidableEq, Repr

-- An error of the operating system, with its number.
def systemMessage (details : String) (code : Nat) : String :=
  details ++ " (os error " ++ toString code ++ ")"

def ReadFault.message : ReadFault → String
  | .missing => systemMessage "No such file or directory" 2
  | .notDirectory => systemMessage "Not a directory" 20
  | .directory => systemMessage "Is a directory" 21
  | .nameTooLong => systemMessage "File name too long" 36
  | .nulInName => "file name contained an unexpected NUL byte"

inductive FileEntry where
  | directory
  | file (text : String)
deriving DecidableEq, Repr

-- What there is at the end of the names on the way from the root.
abbrev FileTree := List String → Option FileEntry

namespace FileTree

-- The bytes that one name may have.
def longestName : Nat := 255

-- The bytes that a path may have.
def longestPath : Nat := 4095

-- Follows names from a place in the tree. A name can only be looked up in a directory, also one
-- that stays there or leads back.
def follow (t : FileTree) (place : List String) : List String → Except ReadFault FileEntry
  | [] => (t place).elim (.error .missing) .ok
  | name :: rest =>
    match t place with
    | none => .error .missing
    | some (.file _) => .error .notDirectory
    | some .directory =>
      if name = "" ∨ name = "." then t.follow place rest
      else if name = ".." then t.follow place.dropLast rest
      else if longestName < name.utf8ByteSize then .error .nameTooLong
      else t.follow (place ++ [name]) rest

-- What a path leads to. It starts at the root if it begins with a slash, and otherwise in the
-- working directory.
def find (t : FileTree) (workingDirectory : List String) (path : String) :
    Except ReadFault FileEntry :=
  if path.contains '\x00' then .error .nulInName
  else if longestPath < path.utf8ByteSize then .error .nameTooLong
  else
    match path.splitOn "/" with
    | [""] => .error .missing
    | "" :: names => t.follow [] names
    | names => t.follow workingDirectory names

def read (t : FileTree) (workingDirectory : List String) (path : String) :
    Except ReadFault String := do
  match ← t.find workingDirectory path with
  | .file text => .ok text
  | .directory => .error .directory

end FileTree

end SignalFlow
