import Cascade.Json.Reader
import Cascade.Path
import Cascade.Value.Text
import Cascade.Yaml.Cursor

/-! What can go wrong with a configuration. A problem is a cause with its data;
its report says it in words and lists the data. A failure is a problem, a fault
of the computation itself, or what the code of a loaded module raised. -/

namespace Cascade

/-- What could not be loaded. -/
inductive Target where
  | module
  | plugin
  | parser
  | config
  deriving DecidableEq, Repr

def Target.noun : Target → String
  | .module => "module"
  | .plugin => "plugin"
  | .parser => "parser"
  | .config => "config"

/-- The kinds of reports, from the general to the particular. -/
inductive Category where
  | general
  | configuration
  | invalidPattern
  | extendsCycle
  | missing (target : Target)
  | conversion
  | environmentCycle
  deriving DecidableEq, Repr

/-- The next more general kind. -/
def Category.wider? : Category → Option Category
  | .general => none
  | .configuration | .missing .module | .conversion => some .general
  | .invalidPattern | .extendsCycle => some .configuration
  | .missing _ => some (.missing .module)
  | .environmentCycle => some .conversion

structure Report where
  category : Category
  message : String
  details : Entries
  /-- Data that a report of this kind always has. -/
  members : List (String × Value) := []

namespace Report

def entry (name : String) (v : Value) : Value × Value := (.str name, v)

/-- A report in the given words. -/
def stated (category : Category) (message : String) (details : Entries) : Report :=
  ⟨category, message, details, []⟩

def invalidPattern (pattern source : Value) : Report where
  category := .invalidPattern
  message := "Invalid override pattern (expected relative path not containing '..'): " ++
    pattern.text ++ (if source.truthy then " in " ++ source.text else "")
  details := [entry "pattern" pattern, entry "source" source]
  members := [("pattern", pattern)]

/-- Names along a cycle. -/
def route (names : List String) : String := String.intercalate " -> " names

def extendsCycle (chain : Value) (names : List String) : Report where
  category := .extendsCycle
  message := "Circular extends detected: " ++ route names
  details := [entry "chain" chain]
  members := [("chain", chain)]

def environmentCycle (cycle : Value) (names : List String) : Report where
  category := .environmentCycle
  message := "Environment cycle detected: " ++ route names
  details := [entry "cycle" cycle]
  members := [("cycle", cycle)]

def missing (target : Target) (name importer searched : Value) : Report where
  category := .missing target
  message := "Failed to load " ++ target.noun ++ " '" ++ name.text ++ "'" ++
    (if importer.truthy then " declared in '" ++ importer.text ++ "'" else "") ++
    (if searched.truthy then " (relative to " ++ searched.text ++ ")" else "")
  details := [entry "name" name, entry "importer" importer, entry "searched" searched]
  members := [("name", name), ("importer", importer), ("kind", .str target.noun)]

/-- The texts that a value lists: a text lists its characters. -/
def names? (v : Value) : Except Fault (List String) := do
  match Value.strings? (← Shared.itemsOf {} v) with
  | some names => return names
  | none => throw .unsupported

/-- The parameters of a report: one that must be given in first place or by
name, and others that can be given by name only. -/
def arguments (first : String) (others : List String) (placed : List Value) (named : Entries) :
    Except Fault (Value × List Value) := do
  let known := named.all fun e => (first :: others).any fun n => e.1.same (.str n)
  let rest := others.map fun n => (Entries.field? named n).getD .null
  match placed, Entries.field? named first, known with
  | [v], none, true => return (v, rest)
  | [], some v, true => return (v, rest)
  | _, _, _ => throw .unsupported

/-- The report of a kind for arguments whose number and types are not known. -/
def ofArguments (category : Category) (placed : List Value) (named : Entries) :
    Except Fault Report := do
  let given first others := arguments first others placed named
  match category with
  | .general | .configuration | .conversion =>
    match ← given "message" ["details"] with
    | (message, details) =>
      let details := match details with
        | [.mapping m] => m
        | _ => []
      return stated category message.text details
  | .invalidPattern =>
    match ← given "pattern" ["source"] with
    | (pattern, rest) => return invalidPattern pattern (rest.headD .null)
  | .extendsCycle =>
    let (chain, _) ← given "chain" []
    return extendsCycle chain (← names? chain)
  | .environmentCycle =>
    let (cycle, _) ← given "cycle" []
    return environmentCycle cycle (← names? cycle)
  | .missing target =>
    match ← given "name" ["importer", "searched"] with
    | (name, [importer, searched]) => return missing target name importer searched
    | (name, _) => return missing target name .null .null

end Report

/-- What is wrong, with the names and places that tell where. -/
inductive Problem where
  | notAMapping (config typeName : String)
  | unexpectedKeys (config : String) (inOverride : Bool) (keys : List Value)
  | memberNotAMapping (config key typeName : String)
  | memberNotABoolean (config key : String)
  | patternsNotStrings (key source : String)
  | patternsInOverride (config : String)
  | overridesNotAList (config : String)
  | overrideNotAMapping (config : String)
  | overrideWithoutFiles (config : String)
  | overrideWithoutPatterns (config : String)
  | invalidPattern (pattern source : String)
  | extendsNotStrings (config : String)
  | pluginReference (config reference : String)
  | moduleWithoutConfig (reference : String) (file : Option String)
  | extendsCycle (chain : List String)
  | parserNotAString (config : String)
  | pluginsNotStrings (config : String)
  | pluginIsAPath (config plugin : String)
  | missing (target : Target) (name : String) (importer searched : Option String)
  | unsupportedFormat (file : Path)
  | notJson (file : Path) (refusal : Json.LocatedRefusal)
  | notYaml (file : Path) (problem : String) (mark : Yaml.Mark)
  | unreadableYaml (file : Path) (c : Char)
  | noConfigKey (file : Path)
  | fileNotAMapping (file : Path) (typeName : String)
  | settingsNotYaml (file : Path) (problem : String) (mark : Yaml.Mark)
  | unreadableSettings (file : Path) (c : Char)
  | settingsNotAMapping (file : Path) (typeName : String)
  | invalidSettings (errors : List String)
  | tableNotAMapping (source typeName : String)
  | fragmentNotAMapping (name : Value) (source typeName : String)
  | environmentCycle (cycle : List String)

namespace Problem

open Report in
/-- A configuration report on a config. -/
def onConfig (config message : String) (details : Entries := []) : Report :=
  stated .configuration message (entry "config" (.str config) :: details)

def optional : Option String → Value
  | some s => .str s
  | none => .null

def lineAndColumn (line column : Nat) : String :=
  "at line " ++ toString line ++ ", column " ++ toString column

def unacceptable (c : Char) : String :=
  "unacceptable character #x" ++ Text.hex 4 c.toNat ++ ": special characters are not allowed"

open Report in
/-- A configuration report on a file. -/
def onFile (file : Path) (message : String) (details : Entries := []) : Report :=
  stated .configuration message (entry "file" (.str file.text) :: details)

open Report in
def place (line column : Nat) : Entries :=
  [entry "line" (.int line), entry "column" (.int column)]

open Report in
/-- The words and data of a problem. -/
def report : Problem → Report
  | .notAMapping config typeName =>
    onConfig config ("Config '" ++ config ++ "' must be a mapping, got " ++ typeName)
  | .unexpectedKeys config inOverride keys =>
    let place := if inOverride then "overrides" else "top level"
    onConfig config ("Unexpected " ++ place ++ " property " ++
      String.intercalate ", " (keys.map Value.shown) ++ " in '" ++ config ++ "'")
      [entry "keys" (.list keys)]
  | .memberNotAMapping config key typeName =>
    onConfig config ("'" ++ key ++ "' must be a mapping in '" ++ config ++ "', got " ++ typeName)
      [entry "key" (.str key)]
  | .memberNotABoolean config key =>
    onConfig config ("'" ++ key ++ "' must be a boolean in '" ++ config ++ "'")
      [entry "key" (.str key)]
  | .patternsNotStrings key source =>
    stated .configuration ("'" ++ key ++ "' must be a string or a list of strings in " ++ source)
      [entry "key" (.str key), entry "source" (.str source)]
  | .patternsInOverride config =>
    onConfig config ("'ignorePatterns' is not allowed inside overrides ('" ++ config ++ "')")
  | .overridesNotAList config => onConfig config ("'overrides' must be a list in '" ++ config ++ "'")
  | .overrideNotAMapping config => onConfig config ("Override '" ++ config ++ "' must be a mapping")
  | .overrideWithoutFiles config => onConfig config ("Override '" ++ config ++ "' requires 'files'")
  | .overrideWithoutPatterns config =>
    onConfig config ("Override '" ++ config ++ "' has no file patterns")
  | .invalidPattern pattern source => Report.invalidPattern (.str pattern) (.str source)
  | .extendsNotStrings config =>
    onConfig config ("'extends' must be a string or a list of strings in '" ++ config ++ "'")
  | .pluginReference config reference =>
    onConfig config ("Invalid plugin config reference '" ++ reference ++ "' in '" ++ config ++ "'")
      [entry "extends" (.str reference)]
  | .moduleWithoutConfig reference file =>
    stated .configuration
      ("Shareable config module '" ++ reference ++ "' does not define 'config'")
      [entry "extends" (.str reference), entry "file" (optional file)]
  | .extendsCycle chain => Report.extendsCycle (.list (chain.map .str)) chain
  | .parserNotAString config =>
    onConfig config ("'parser' must be a string in '" ++ config ++ "'")
  | .pluginsNotStrings config =>
    onConfig config ("'plugins' must be a list of strings in '" ++ config ++ "'")
  | .pluginIsAPath config plugin =>
    onConfig config ("Plugins array cannot include file paths: '" ++ plugin ++ "' in '" ++ config ++
      "'") [entry "plugin" (.str plugin)]
  | .missing target name importer searched =>
    Report.missing target (.str name) (optional importer) (optional searched)
  | .unsupportedFormat file =>
    onFile file ("Unsupported config file format: " ++ file.name ++
      "\n  Suggestion: Use one of .yaml, .yml, .json")
  | .notJson file r =>
    onFile file ("Error parsing " ++ file.name ++ " " ++ lineAndColumn r.line r.column ++ ":\n  " ++
      r.complaint.message ++ "\n  File: " ++ file.text) (place r.line r.column)
  | .notYaml file problem mark =>
    onFile file ("Error parsing " ++ file.name ++ " " ++
      lineAndColumn (mark.line + 1) (mark.column + 1) ++ ":\n  " ++ problem ++ "\n  File: " ++
      file.text) (place (mark.line + 1) (mark.column + 1))
  | .unreadableYaml file c =>
    onFile file ("Error parsing " ++ file.name ++ ": " ++ unacceptable c ++ "\n  File: " ++
      file.text)
  | .noConfigKey file =>
    onFile file ("package.json has no 'eslintConfig' key: " ++ file.text)
  | .fileNotAMapping file typeName =>
    onFile file ("Config in " ++ file.name ++ " must be a mapping, got " ++ typeName)
  | .settingsNotYaml file problem mark =>
    onFile file ("Error parsing " ++ file.name ++ " " ++
      lineAndColumn (mark.line + 1) (mark.column + 1) ++ ":\n  " ++ problem ++ "\n  File: " ++
      file.text ++ "\n  Suggestion: Check YAML syntax, ensure proper indentation and quotes")
  | .unreadableSettings file c =>
    onFile file ("Error parsing " ++ file.name ++ ": " ++ unacceptable c)
  | .settingsNotAMapping file typeName =>
    onFile file (file.name ++ " must be a mapping, got " ++ typeName)
  | .invalidSettings errors =>
    stated .configuration (String.intercalate "\n" errors)
      [entry "errors" (.list (errors.map .str))]
  | .tableNotAMapping source typeName =>
    stated .configuration
      ("Environment table must be a mapping, got " ++ typeName ++ " in " ++ source) []
  | .fragmentNotAMapping name source typeName =>
    stated .configuration ("Environment '" ++ name.text ++ "' must be a mapping, got " ++ typeName ++
      " in " ++ source) [entry "environment" name]
  | .environmentCycle cycle => Report.environmentCycle (.list (cycle.map .str)) cycle

/-- Whether the words of a problem end with the reader's account of it. -/
def quotesReader : Problem → Bool
  | .notYaml .. | .unreadableYaml .. | .settingsNotYaml .. | .unreadableSettings .. => true
  | _ => false

end Problem

inductive Failure where
  | fault (f : Fault)
  | problem (p : Problem)
  /-- The code of a module raised an error of the named kind. -/
  | raised (kind message : String)
  /-- A file that is no module file was to be loaded as one. -/
  | notLoadable (file : String)
  | noSetting (key : String)

namespace Failure

/-- What a failure says, for those that say anything. -/
def message? : Failure → Option String
  | .fault _ => none
  | .problem p => some p.report.message
  | .raised _ message => some message
  | .notLoadable file => some ("Cannot create an import spec for " ++ file)
  | .noSetting key => some ("Setting '" ++ key ++ "' not found")

end Failure

instance : MonadLift (Except Fault) (Except Failure) where
  monadLift x := x.mapError .fault

end Cascade
