import Cascade.Command.Arguments
import Cascade.Console.Markup
import Cascade.Console.Table
import Cascade.Flattener
import Cascade.Logging
import Cascade.Plain
import Cascade.Settings
import Cascade.Yaml.Writer

/-! The command line. It has two commands: one converts a configuration file
and prints the flat configuration, the other shows the built-in environments.
What a run does to the world is to write its log files. -/

namespace Cascade.Command

open Logging (Log)

inductive Output where
  | text (s : String)
  | table (t : Console.Table)

def Output.shown : Output → String
  | .text s => s
  | .table t => t.text

/-- How a run ends: its exit code, what it printed, and the world after it. -/
structure Outcome where
  exitCode : Nat
  output : Output
  errors : String
  world : World

/-- A run ends, or a failure that no command reports breaks it off. -/
abbrev Run := World → Except Failure Outcome

def version : String := "0.1.0"

def helpKey : String := "help"

def helpSpec : OptionSpec := ⟨helpKey, ["--help"], false⟩

variable (console : Console)

def printing (output : Output) : Run := fun w => .ok ⟨0, output, "", w⟩

/-- The end of a run whose arguments cannot be used. -/
def usageError (usage : String) : Run := fun w => .ok ⟨2, .text "", usage ++ "\n", w⟩

/-! ## Environments -/

def environmentsUsage : String := "Usage: flatcompat envs [--help] [NAME]"

def fragmentEntries (t : Environment.Table) (name : String) (key : String) : Entries :=
  match t.get? (.str name) with
  | some (.mapping m) => match Entries.field? m key with
    | some (.mapping m) => m
    | _ => []
  | _ => []

/-- All environments, with the number of their globals and their options. -/
def environmentsTable (t : Environment.Table) : Console.Table where
  title := "Builtin environments"
  header := ["Name", "Globals", "Parser options"]
  rows := t.names.map fun v =>
    let options := (fragmentEntries t v.text "parserOptions").map fun e => e.1.text ++ "=" ++ e.2.text
    [v.text, toString (fragmentEntries t v.text "globals").length, String.intercalate ", " options]

/-- The globals of one environment. -/
def environmentTable (t : Environment.Table) (name : String) : Console.Table where
  title := "Environment: " ++ name
  header := ["Global", "Writable"]
  rows := (fragmentEntries t name "globals").map fun e =>
    [e.1.text, if Conversion.isTrue e.2 then "yes" else "no"]

def showEnvironments (name : Option String) : Run := fun w =>
  let t := Environment.builtin
  match name with
  | none => printing (.table (environmentsTable t)) w
  | some name =>
    if t.contains (.str name) then printing (.table (environmentTable t name)) w
    else match console.shown ("[red]Unknown environment: " ++ name ++ "[/red]") with
      | .ok text => .ok ⟨1, .text (text ++ "\n"), "", w⟩
      | .error f => .error (.fault f)

def environments (args : List String) : Run :=
  match Arguments.parse? [helpSpec] args with
  | none => usageError environmentsUsage
  | some a =>
    if (a.value? helpKey).isSome then printing (.text (environmentsUsage ++ "\n"))
    else match a.rest with
      | [] => showEnvironments console none
      | [name] => showEnvironments console (some name)
      | _ => usageError environmentsUsage

/-! ## Converting a file -/

def convertUsage : String :=
  "Usage: flatcompat translate [--project-dir DIR] [--base-dir DIR] [--plugins-dir DIR] " ++
    "[--format FORMAT] [--log-level LEVEL] [--help] [CONFIG_FILE]"

def convertSpecs : List OptionSpec :=
  [⟨"project", ["--project-dir", "-d"], true⟩, ⟨"base", ["--base-dir"], true⟩,
    ⟨"plugins", ["--plugins-dir"], true⟩, ⟨"format", ["--format", "-f"], true⟩,
    ⟨"level", ["--log-level"], true⟩, helpSpec]

/-- The end of a run that reports an error after what the log wrote. -/
def failing (written message : String) (w : World) : Except Failure Outcome :=
  match console.shown ("[red]Error:[/red] " ++ message) with
  | .ok text => .ok ⟨1, .text "", written ++ text ++ "\n", w⟩
  | .error f => .error (.fault f)

/-- The path in a setting, from the project's directory. -/
def settingPath (project : Path) (setting : Value) : Except Fault (Option Path) :=
  match setting with
  | .str s => .ok (if s.isEmpty then none else some (project.join (Path.ofString s)))
  | v => if v.truthy then .error .unsupported else .ok none

/-- The log of a run: set up by the given level or by the settings. -/
def logOf (w : World) (level : String) (settings : Settings) (project : Path) :
    Except Fault Log :=
  let set : Logging.Setup Unit :=
    if level != "" then Logging.setup { level := .str level }
    else if settings.contains {} "logging" then
      Logging.setupFromSettings (.mapping settings.data) (some project)
    else pure ()
  let (result, log) := set.run.run { world := w }
  result.map fun _ => log

/-- Text that is given and not empty. -/
def nonEmpty (s : Option String) : Option String := s.filter (· != "")

/-- The text of a flat configuration in a format. -/
def render (store : Shared) (format : String) (items : List Value) : Except Fault String := do
  let data ← store.plainConfig items
  if format == "yaml" then return Yaml.document data
  else return (← Json.indented (.list data)) ++ "\n"

/-- The file to convert, none when the project has none. -/
def configFile (w : World) (project : Path) (file : Option String) :
    Except Fault (Option Path) :=
  match file with
  | some f => .ok (some (Path.ofString f))
  | none => ConfigFile.find w project

/-- What a conversion that fails records at its end, without the calls that led there. -/
def failed : Record := ⟨Level.debug, Source.command, "Translation failed"⟩

/-- The end of a conversion, with what the log wrote. -/
def finish (stamp : String) (log : Log) (format : String)
    (result : Except Failure (List Value) × Session) : Except Failure Outcome :=
  let (items, session) := result
  let (log, written) := log.writeAll stamp session.journal
  match items with
  | .ok items =>
    match render session.world.shared format items with
    | .ok text => .ok ⟨0, .text text, written, log.world⟩
    | .error f => .error (.fault f)
  | .error (.problem p) =>
    let (log, more) := log.write stamp failed
    failing console (written ++ more) p.report.message log.world
  | .error e => .error e

def projectOf (w : World) (a : Arguments) : Path :=
  match a.value? "project" with
  | some s => Path.ofString s
  | none => w.directory

def formatOf (a : Arguments) (settings : Settings) : String :=
  ((nonEmpty (a.value? "format")).orElse fun _ => nonEmpty settings.format.str?).getD "json"

/-- The flattener of the directories that are given, or else set, or else the project's. -/
def flattenerOf (project : Path) (a : Arguments) (settings : Settings) : Except Fault Flattener := do
  let base ← settingPath project settings.baseDirectory
  let plugins ← settingPath project settings.pluginDirectory
  let given (key : String) (other : Option Path) : Option Path :=
    ((a.value? key).map Path.ofString).orElse fun _ => other
  return Flattener.ofDirectories ((given "base" base).getD project) (given "plugins" plugins)

/-- Converts the configuration file that is given or that the project has. -/
def convertFile (stamp : String) (a : Arguments) (file : Option String) : Run := fun w => do
  let project := projectOf w a
  match Settings.load w project with
  | .error (.problem p) => failing console "" p.report.message w
  | .error e => throw e
  | .ok settings =>
    let log ← (logOf w ((a.value? "level").getD "") settings project : Except Fault Log)
    let format := formatOf a settings
    if !Settings.formats.contains format then
      failing console "" ("Unknown format '" ++ format ++ "' (expected json or yaml)") log.world
    else match ← (configFile log.world project file : Except Fault (Option Path)) with
      | none => failing console "" ("No legacy config file found in " ++ project.text) log.world
      | some file =>
        let flattener ← (flattenerOf project a settings : Except Fault Flattener)
        finish console stamp log format
          ((flattener.configFile (w.directory.join file)).run.run (Session.start log.world))

def convert (stamp : String) (args : List String) : Run :=
  match Arguments.parse? convertSpecs args with
  | none => usageError convertUsage
  | some a =>
    if (a.value? helpKey).isSome then printing (.text (convertUsage ++ "\n"))
    else match a.rest with
      | [] => convertFile console stamp a none
      | [file] => convertFile console stamp a (some file)
      | _ => usageError convertUsage

/-! ## The whole command line -/

def usage : String := "Usage: flatcompat [--version] [--help] COMMAND [ARGS]"

def specs : List OptionSpec := [⟨"version", ["--version", "-v"], false⟩, helpSpec]

/-- The options that end a run at once. -/
def early (key : String) : Run :=
  if key == "version" then printing (.text ("flatcompat version " ++ version ++ "\n"))
  else printing (.text (usage ++ "\n"))

/-- Runs the command line on a console; the stamp is the time that log files give. -/
def runOn (stamp : String) (args : List String) : Run :=
  match Arguments.parse? specs args with
  | none => usageError usage
  | some a =>
    match a.firstOf? ["version", helpKey], a.rest with
    | some key, _ => early key
    | none, [] => early helpKey
    | none, "translate" :: rest => convert console stamp rest
    | none, "envs" :: rest => environments console rest
    | none, _ => usageError usage

/-- Runs the command line on a console that knows nothing in particular. -/
def run (stamp : String) (args : List String) : Run := runOn {} stamp args

end Cascade.Command
