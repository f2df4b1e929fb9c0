import Cascade.Command
import Std.Time

/-! The program: it reads the files that a run can reach into a world, runs the
command line in that world, prints what it printed, and writes the files that
the run has changed. -/

namespace Cascade.Main

def namesOf (path : String) : List String := (Path.ofString path).names

/-- The files of a directory and of all below it, by their names from the root. -/
def filesBelow (directory : String) : IO (List (List String × Entry)) := do
  let here ← IO.FS.realPath directory
  let mut entries := [(namesOf here.toString, Entry.directory)]
  for path in ← here.walkDir do
    let entry ← if ← path.isDir then pure Entry.directory
      else Entry.file <$> (·.toList) <$> IO.FS.readBinFile path
    entries := (namesOf path.toString, entry) :: entries
  return entries

/-- What an argument leads to: the files of a directory, or those beside a file. -/
def filesAt (argument : String) : IO (List (List String × Entry)) := do
  let path := argument.splitOn "=" |>.getLastD ""
  try
    let place ← IO.FS.realPath path
    if ← place.isDir then filesBelow place.toString
    else match place.parent with
      | some directory => filesBelow directory.toString
      | none => return []
  catch _ => return []

/-- The variables that settings files refer to, as far as they are set. -/
def variablesFor (entries : List (List String × Entry)) : IO (List (String × String)) := do
  let texts := entries.filterMap fun e => match e.2 with
    | .file content =>
      if e.1.getLast? == some Settings.fileName then String.fromUTF8? ⟨content.toArray⟩ else none
    | _ => none
  let names := (texts.flatMap fun s => Settings.referencesIn s.toList).eraseDups
  names.filterMapM fun name => do return (← IO.getEnv name).map (name, ·)

def world (args : List String) : IO World := do
  let here := (← IO.FS.realPath ".").toString
  let entries := (← filesBelow here) ++ (← args.mapM filesAt).flatten
  return { here := namesOf here, entries, bindings := ← variablesFor entries }

/-- The time as log files give it. -/
def stamp : IO String := do
  return (← Std.Time.PlainDateTime.now).format "uuuu-MM-dd HH:mm:ss"

/-- Writes the files that are not as they were before. -/
def writeChanges (before after : World) : IO Unit := do
  for (names, entry) in after.entries do
    match entry, before.entries.lookup names with
    | .file content, some (.file old) =>
      if content != old then write names content
    | .file content, none => write names content
    | _, _ => pure ()
where
  write (names : List String) (content : List UInt8) : IO Unit := do
    let path : Path := ⟨"/", names⟩
    IO.FS.createDirAll path.parent.text
    IO.FS.writeBinFile path.text ⟨content.toArray⟩

/-- Runs the command line; the result is the exit code. -/
def run (args : List String) : IO UInt32 := do
  let before ← world args
  match Command.run (← stamp) args before with
  | .ok outcome =>
    writeChanges before outcome.world
    IO.print outcome.output.shown
    IO.eprint outcome.errors
    return UInt32.ofNat outcome.exitCode
  | .error failure =>
    IO.eprintln (failure.message?.getD "The configuration is not of the form that is expected.")
    return 1

end Cascade.Main

def main (args : List String) : IO UInt32 := Cascade.Main.run args
