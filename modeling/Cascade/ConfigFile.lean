import Cascade.World
import Cascade.Failure
import Cascade.Yaml.Document

/-! Configuration files. The name of a file decides how it is read: JSON, YAML,
or the entry of a package description. A document that is null is an empty
configuration, and any other must be a mapping. -/

namespace Cascade.ConfigFile

/-- The names under which a configuration is looked for, in order. -/
def candidates : List String :=
  [".eslintrc.yaml", ".eslintrc.yml", ".eslintrc.json", ".eslintrc", "package.json"]

def packageName : String := "package.json"

/-- The entry of a package description that is its configuration. -/
def packageKey : String := "eslintConfig"

def yamlSuffixes : List String := [".yaml", ".yml"]

/-- What files are read as. -/
inductive Format where
  | package
  | json
  | yaml
  deriving DecidableEq

def format? (p : Path) : Option Format :=
  if p.name == packageName then some .package
  else if p.suffix == ".json" then some .json
  else if yamlSuffixes.contains p.suffix || p.name == ".eslintrc" then some .yaml
  else none

/-- The entries of a document. -/
def entriesOf (p : Path) : Value → Except Failure Entries
  | .null => .ok []
  | .mapping m => .ok m
  | v => .error (.problem (.fileNotAMapping p v.typeName))

def readJson (p : Path) (text : List Char) : Except Failure Value :=
  (Json.read (String.ofList text)).mapError fun r => .problem (.notJson p r)

def readYaml (p : Path) (text : List Char) : Except Failure Value :=
  (Yaml.read text).mapError fun r => match r with
    | .malformed problem mark => .problem (.notYaml p problem mark)
    | .unacceptable c => .problem (.unreadableYaml p c)
    | .fault f => .fault f

/-- The configuration in the text of a file. -/
def parse (p : Path) (text : List Char) : Except Failure Entries := do
  match format? p with
  | some .package =>
    match ← readJson p text with
    | .mapping m => match Entries.field? m packageKey with
      | some v => entriesOf p v
      | none => throw (.problem (.noConfigKey p))
    | _ => throw (.problem (.noConfigKey p))
  | some .json => entriesOf p (← readJson p text)
  | some .yaml => entriesOf p (← readYaml p text)
  | none => throw (.problem (.unsupportedFormat p))

/-- The configuration in a file. -/
def load (w : World) (p : Path) : Except Failure Entries := do
  if w.isFile p then parse p (← (w.read p).mapError .fault)
  else throw (.problem (.missing .config p.text none none))

/-- Whether the text of a package description has the key of a configuration: as
a key, an item, or a part of a text. -/
def describesConfig (text : List Char) : Bool :=
  match Json.read (String.ofList text) with
  | .ok (.mapping m) => Entries.hasField m packageKey
  | .ok (.list items) => items.any fun v => v.same (.str packageKey)
  | .ok (.str s) => Text.contains s packageKey
  | _ => false

/-- The first configuration file of a directory. -/
def findAmong (w : World) (directory : Path) : List String → Except Fault (Option Path)
  | [] => .ok none
  | name :: rest => do
    let p := directory.child name
    if !w.isFile p then findAmong w directory rest
    else if name != packageName then return some p
    else if describesConfig (← w.read p) then return some p
    else findAmong w directory rest

def find (w : World) (directory : Path) : Except Fault (Option Path) :=
  findAmong w directory candidates

end Cascade.ConfigFile
