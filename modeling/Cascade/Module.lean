import Cascade.Digest
import Cascade.Session

/-! Loading modules. A module is looked for in a directory first and then among
the modules that can be imported. One from a file is registered under a key made
from the resolved path of the file, so that a file is run once and its name never
stands in for another module; a run that fails registers nothing. -/

namespace Cascade

/-- A loaded module and the file that it came from. -/
structure Module where
  value : Value
  file : Option Path

namespace Module

/-- The name of the file that makes a directory a package. -/
def packageFile : String := "__init__.py"

/-- The file of a module below a directory: the module's own file comes before
the package of that name. -/
def findFile (w : World) (name : String) (directory : Path) : Option Path :=
  let parts := Text.fields '.' name
  let base := parts.dropLast.foldl Path.child directory
  let last := parts.getLast?.getD ""
  let file := base.child (last ++ ".py")
  let package := (base.child last).child packageFile
  if w.isFile file then some file
  else if w.isFile package then some package
  else none

def registryName : String := "flatcompat._loaded"

/-- The key of a module file: its name and the first digits of its resolved path's
digest. -/
def key (w : World) (name : String) (path : Path) : Except Fault String := do
  let digits := Text.take 12 (Digest.hexOf (← w.resolve path).text)
  return registryName ++ "." ++ Text.swap '.' '_' name ++ "_" ++ digits

/-- What running a file does; a file with unknown content defines nothing. -/
def execution (w : World) (path : Path) : Execution :=
  match w.find? path with
  | some (.script run) => run
  | _ => .defines []

def noteRun (path : Path) : Action Unit :=
  modifyThe Session fun s =>
    { s with runs := s.runs ++ [((s.world.resolve path).toOption.getD path)] }

/-- The module of a file, run only if it is not registered. -/
def fromFile (name : String) (path : Path) : Action Value := do
  let w ← Action.world
  let key ← Action.ofFault (key w name path)
  match (← getThe Session).registry.lookup key with
  | some value => return value
  | none =>
    if !Text.endsWith path.name ".py" then throw (.notLoadable path.text)
    noteRun path
    match execution w path with
    | .raises kind message _ => throw (.raised kind message)
    | .defines members =>
      let value := Value.object (.moduleNamed key) members
      modifyThe Session fun s => { s with registry := (key, value) :: s.registry }
      return value

/-! ## Importing by name -/

/-- How an import ends. -/
inductive Import where
  | found (m : Imported)
  | absent
  | failed (kind message : String) (missing : Option String)

/-- What one directory has under a name: a package, a file, or a directory that
can be part of a module without a file. -/
inductive Place where
  | package (file directory : Path)
  | file (file : Path)
  | portion (directory : Path)

def placeIn? (w : World) (name : String) (directory : Path) : Option Place :=
  if name.toList.contains '/' then none
  else
    let inner := directory.child name
    let file := directory.child (name ++ ".py")
    if name != "" && w.isFile (inner.child packageFile) then some (.package (inner.child packageFile) inner)
    else if w.isFile file then some (.file file)
    else if name != "" && w.isDirectory inner then some (.portion inner)
    else none

/-- The first package or file among the places, else all portions together. -/
def choose : List Place → List Path → Option (Option Path × Option (List Path))
  | [], [] => none
  | [], portions => some (none, some portions.reverse)
  | .package file directory :: _, _ => some (some file, some [directory])
  | .file file :: _, _ => some (some file, none)
  | .portion directory :: rest, portions => choose rest (directory :: portions)

/-- The module of the given full name, found in directories under its last name. -/
def importIn (name last : String) (directories : List Path) : Action Import := do
  let w ← Action.world
  let remember (m : Imported) : Action Import := do
    modifyThe Session fun s => { s with imported := (name, m) :: s.imported }
    return .found m
  match choose (directories.filterMap (placeIn? w last)) [] with
  | none => return .absent
  | some (none, below) => remember ⟨.object (.moduleNamed name) [], none, below⟩
  | some (some file, below) =>
    noteRun file
    match execution w file with
    | .raises kind message missing => return .failed kind message missing
    | .defines members => remember ⟨.object (.moduleNamed name) members, some file, below⟩

/-- Imports a module into which its parent has been imported, or not. -/
def importBelow (name last : String) : Import → Action Import
  | .found parent => do
    match (← getThe Session).imported.lookup name, parent.below with
    | some m, _ => return .found m
    | none, some directories => importIn name last directories
    | none, none => return .absent
  | other => return other

/-- Imports a module after its parents. The parts of the name come last first. -/
def importParts : List String → Action Import
  | [] => return .absent
  | last :: parents => do
    let name := String.intercalate "." (last :: parents).reverse
    match (← getThe Session).imported.lookup name with
    | some m => return .found m
    | none =>
      if parents.isEmpty then importIn name last (← Action.world).importPath
      else importBelow name last (← importParts parents)

/-- Whether a missing module is the named one or a parent of it. -/
def coversName (missing name : String) : Bool :=
  name == missing || Text.startsWith name (missing ++ ".")

/-- The module of a name that can be imported, none when there is no such module. -/
def import? (name : String) : Action (Option Module) := do
  if name == "" then throw (.fault .badValue)
  else if Text.startsWith name "." then throw (.fault .unsupported)
  else match ← importParts (Text.fields '.' name).reverse with
    | .found m => return some ⟨m.value, m.file⟩
    | .absent => return none
    | .failed kind message missing =>
      if missing.any fun m => coversName m name then return none
      else throw (.raised kind message)

/-! ## Loading -/

/-- The module of a name, from a directory if it is there. -/
def load? (name : String) (directory : Option Path) : Action (Option Module) := do
  match directory.bind (findFile (← Action.world) name) with
  | some path =>
    Action.debug Source.modules ("Loading module '" ++ name ++ "' from " ++ path.text)
    return some ⟨← fromFile name path, some path⟩
  | none => import? name

/-- The module of a file or of a package directory. -/
def loadPath? (path : Path) : Action (Option Module) := do
  let w ← Action.world
  let path := if w.isDirectory path then path.child packageFile else path
  if w.isFile path then
    let name := if path.name == packageFile then path.parent.name else path.stem
    Action.debug Source.modules ("Loading module '" ++ name ++ "' from " ++ path.text)
    return some ⟨← fromFile (Text.swap '-' '_' name) path, some path⟩
  else return none

/-- A member of a module, null when it is not defined. -/
def member (store : Shared) (m : Module) (name : String) : Value := store.member m.value name

end Module

end Cascade
