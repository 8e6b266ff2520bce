import SignalFlow.CommandLine.Answer
import SignalFlow.FileTree
import Std.Time.DateTime.Timestamp

/-!
The command line. Everything that a request may need is read first; answering it is pure.
-/

namespace SignalFlow

namespace CommandLine

-- The number of an invalid argument, as it is when a path holds a NUL.
def invalidArgumentCode : UInt32 := 22

def isDirectoryCode : UInt32 := 21

def reasonText : IO.Error → String
  | .noFileOrDirectory _ _ _ => ReadFault.missing.message
  | .permissionDenied _ _ _ => systemMessage "Permission denied" 13
  | .inappropriateType _ code _ =>
    (if code = isDirectoryCode then ReadFault.directory else .notDirectory).message
  | .invalidArgument _ code _ =>
    (if code = invalidArgumentCode then ReadFault.nulInName else .nameTooLong).message
  | error => toString error

def readText (path : String) : IO (Except String String) := do
  try
    match String.fromUTF8? (← IO.FS.readBinFile path) with
    | some text => return .ok text
    | none => return .error "stream did not contain valid UTF-8"
  catch error => return .error (reasonText error)

def readHost (r : Request) : IO Host := do
  let files ← r.paths.mapM fun path => return (path, ← readText path)
  let values ← Config.variableNames.mapM fun name => return (name, ← IO.getEnv name)
  let now := (← Std.Time.Timestamp.now).toNanosecondsSinceUnixEpoch.val
  return {
    file path := (files.lookup path).getD (.error "not read")
    environment name := (values.lookup name).join
    now := ⟨now / Instant.nanosPerSecond, (now % Instant.nanosPerSecond).toNat⟩ }

-- Prints the answer to a request and gives the exit code.
def respond (request : Request) : IO UInt32 := do
  let host ← readHost request
  let before ← IO.monoNanosNow
  let answer ← IO.lazyPure fun _ => request.answer host
  let elapsed := elapsedText ((← IO.monoNanosNow) - before)
  for line in answer.output do IO.println (line.text elapsed)
  for line in answer.allNotices do IO.eprintln (line.text elapsed)
  return answer.exitCode.toUInt32

end CommandLine

end SignalFlow

def main (arguments : List String) : IO UInt32 :=
  match SignalFlow.CommandLine.Request.ofArguments? arguments with
  | some request => SignalFlow.CommandLine.respond request
  | none => do
    IO.eprintln SignalFlow.CommandLine.usage
    return 2
