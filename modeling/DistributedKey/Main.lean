/-
The command line program: reads the options, runs the ceremony with a seed from the system's entropy, and writes the
summary to a file or to standard output.
-/
import DistributedKey.Command
import DistributedKey.Curve.Group
import DistributedKey.Options.Usage

namespace DistributedKey

/-- the name of the program in its messages -/
def program : String := "avss"

def help (command : String) (usage : String) (commands : Option String) : String :=
  "Usage: " ++ program ++ command ++ " [OPTIONS]\n\n" ++ usage
    ++ (commands.map ("\n\nAvailable commands:\n" ++ ·)).getD ""

def readOpened (handle : IO.FS.Handle) : IO Reading := do
  try
    return .content (← handle.readBinToEnd).toList
  catch _ =>
    return .unreadable

/-- the bytes of the file that the options name -/
def loadFile (o : RunOptions) : IO Reading := do
  match o.config with
  | none => return .unopened
  | some path =>
    try
      readOpened (← IO.FS.Handle.mk path .read)
    catch _ =>
      return .unopened

def refuse (message : String) : IO UInt32 := do
  IO.eprintln ("command failed: " ++ message)
  return 1

/-- why the system did not write a file -/
def reason : IO.Error → String
  | .noFileOrDirectory .. => PathError.notFound.message
  | .inappropriateType _ code details =>
    if code = 20 then PathError.notDirectory.message
    else if code = 21 then PathError.isDirectory.message
    else details
  | e => toString e

/-- whether the summary can be written is found out by writing it -/
def runCommand (o : RunOptions) : IO UInt32 := do
  let reading ← loadFile o
  let seed ← IO.getRandomBytes 32
  match (o.perform ⟨fun _ => reading, fun _ => .ok ()⟩ (.ofSeed seed.toList) : Except CommandError (Summary Point)) with
  | .error e => refuse e.message
  | .ok summary =>
    let text := summary.document.pretty 0
    match o.output with
    | none =>
      IO.println text
      return 0
    | some path =>
      try
        IO.FS.writeFile path text
        return 0
      catch e => refuse (reason e)

end DistributedKey

open DistributedKey in
def main (args : List String) : IO UInt32 := do
  match Options.read args with
  | .error e =>
    IO.eprintln (program ++ ": " ++ e.message)
    return 2
  | .ok o =>
    if o.helpRequested then
      IO.println (if o.run.isSome then help " run" Usage.run none else help "" Usage.general (some Usage.commands))
      return 0
    match o.run with
    | some o => runCommand o
    | none =>
      IO.eprintln ("No command was provided.\n" ++ Usage.general)
      return 2
