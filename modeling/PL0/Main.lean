import PL0.CommandLine

/-!
# `PL0.Main` — the program

Reads the arguments and the file, and shows what the command leaves. Written values are shown as the
run goes on.
-/

namespace PL0

/-- What the operating system says of a file. -/
def FileFailure.ofIO : IO.Error → FileFailure
  | .noFileOrDirectory .. => missing
  | .permissionDenied .. => denied
  | .inappropriateType _ _ details =>
    if details.toLower = "not a directory" then notDirectory else isDirectory
  | e => other (toString e)

/-- The text in a file. -/
def readText (path : String) : IO (Except FileFailure String) := do
  try
    match String.fromUTF8? (← IO.FS.readBinFile path) with
    | some text => return .ok text
    | none => return .error .notText
  catch e => return .error (.ofIO e)

/-- Show what a run has written so far. -/
def flushSink (r : Run) : IO Run := do
  let out ← IO.getStdout
  out.putStr r.machine.sink.text
  out.flush
  return { r with machine := { r.machine with sink := Sink.unlimited } }

/-- Make a run to its end. -/
partial def finishRun (r : Run) : IO Run := do
  let r ← flushSink (r.advance 4096)
  if r.isOver then return r else finishRun r

/-- Show a report, writing its file if it has one. -/
def showReport (r : Report) : IO UInt32 := do
  let r ←
    match r.file with
    | none => pure r
    | some (path, content) =>
      try
        IO.FS.writeFile path content
        pure r
      catch e => pure (.ofError (.internal (.unwritable path (.ofIO e))))
  IO.print r.stdout
  IO.eprint r.stderr
  return r.status.toUInt32

/-- Carry out a command. -/
def carryOut (c : Command) : IO UInt32 := do
  match ← readText c.path with
  | .error e => showReport (c.unreadable e)
  | .ok content =>
    match c.perform content with
    | .report r => showReport r
    | .execution r => showReport (.ofRun (← finishRun r))

def usage : String :=
  "usage: pl0 run FILE [-i N]... | exec FILE [-i N]... | tokens FILE | ast FILE [-o OUT] | " ++
    "compile FILE [-o OUT] | listing FILE\n"

end PL0

def main (args : List String) : IO UInt32 := do
  match PL0.Command.ofArguments? args with
  | some c => PL0.carryOut c
  | none =>
    IO.eprint PL0.usage
    return 1
