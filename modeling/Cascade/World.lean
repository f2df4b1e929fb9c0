import Cascade.Path
import Cascade.Value

/-! What a program finds around it: files and directories, modules that can be
imported, environment variables, and values that several places share. Module
files are known by what running them does. -/

namespace Cascade

/-- What running a module does: it defines members, or raises an error of a
named kind. The error may be that another module is missing. -/
inductive Execution where
  | defines (members : List (String × Value))
  | raises (kind message : String) (missing : Option String)

inductive Entry where
  | directory
  | file (content : List UInt8)
  | script (run : Execution)

/-- The bytes of a file; what a module file contains is not known. -/
def Entry.content : Entry → List UInt8
  | .file content => content
  | _ => []

structure World where
  /-- The names of the current directory, from the root. -/
  here : List String
  /-- Files and directories by their names from the root. All directories above
  an entry exist. -/
  entries : List (List String × Entry) := []
  /-- Directories in which modules are looked for. -/
  importPath : List Path := []
  /-- Modules that can be imported without a file. -/
  available : List (String × List (String × Value)) := []
  /-- Environment variables that are set, with their values. -/
  bindings : List (String × String) := []
  shared : Shared := {}

namespace World

variable (w : World)

def directory : Path := ⟨"/", w.here⟩

/-- What has the given names from the root. -/
def entryAt? (names : List String) : Option Entry :=
  match w.entries.lookup names with
  | some e => some e
  | none =>
    if names.isPrefixOf w.here || w.entries.any fun e => names.isPrefixOf e.1 then some .directory
    else none

/-- The end of a walk from a directory; each step needs a directory to be made
from, also the step up. Names come last first. -/
def walk : List String → List String → Option (List String)
  | at_, [] => some at_
  | at_, name :: rest =>
    match w.entryAt? at_.reverse with
    | some .directory => walk (if name == ".." then at_.drop 1 else name :: at_) rest
    | _ => none

/-- What a path leads to. -/
def find? (p : Path) : Option Entry := do
  let whole := w.directory.join p
  w.entryAt? (← w.walk [] whole.names).reverse

def isFile (p : Path) : Bool :=
  match w.find? p with
  | some (.file _) | some (.script _) => true
  | _ => false

def isDirectory (p : Path) : Bool :=
  match w.find? p with
  | some .directory => true
  | _ => false

def bytes (p : Path) : List UInt8 := ((w.find? p).map Entry.content).getD []

/-- The text of a file, every line ending in a line feed. -/
def read (p : Path) : Except Fault (List Char) :=
  match String.fromUTF8? ⟨(w.bytes p).toArray⟩ with
  | some s => .ok (Text.unifyLineEnds s.toList)
  | none => .error .notUtf8

def resolve (p : Path) : Except Fault Path := Path.resolve w.directory p

/-- The world with a file of the given bytes, and the directories above it. -/
def write (p : Path) (content : List UInt8) : World :=
  let names := Path.climb (w.directory.join p).names
  { w with entries := (names, .file content) :: w.entries.filter fun e => e.1 != names }

end World

end Cascade
