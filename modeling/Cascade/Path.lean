import Cascade.Fault
import Cascade.Text.Basic

/-! Paths as names separated by slashes. A path is kept without empty names and
without `.`; whether it is absolute is its root, which is empty, one slash, or
two. Nothing here looks at files. -/

namespace Cascade

structure Path where
  root : String
  names : List String
  deriving DecidableEq, Repr

namespace Path

def isProper (name : String) : Bool := name != "" && name != "."

/-- One slash at the beginning, or three or more, are one; two are kept. -/
def rootOf (s : String) : String :=
  match s.toList with
  | '/' :: '/' :: '/' :: _ => "/"
  | '/' :: '/' :: _ => "//"
  | '/' :: _ => "/"
  | _ => ""

def ofString (s : String) : Path := ⟨rootOf s, (Text.fields '/' s).filter isProper⟩

def isAbsolute (p : Path) : Bool := p.root != ""

/-- The second path seen from the first. -/
def join (p q : Path) : Path := if q.isAbsolute then q else ⟨p.root, p.names ++ q.names⟩

def child (p : Path) (name : String) : Path := p.join (ofString name)

def text (p : Path) : String :=
  if p.names.isEmpty && p.root == "" then "."
  else p.root ++ String.intercalate "/" p.names

def name (p : Path) : String := p.names.getLast?.getD ""

def parent (p : Path) : Path := ⟨p.root, p.names.dropLast⟩

/-- The name from its last point on, unless that begins or ends it. -/
def suffix (p : Path) : String :=
  match Text.cutLast '.' p.name with
  | some (stem, ending) => if stem.isEmpty || ending.isEmpty then "" else "." ++ ending
  | none => ""

/-- The name without its suffix. -/
def stem (p : Path) : String :=
  String.ofList (p.name.toList.take (p.name.length - p.suffix.length))

/-- Names with each `..` taking away the one before it. -/
def climb (names : List String) : List String :=
  (names.foldl (fun done n => if n == ".." then done.drop 1 else n :: done) []).reverse

def hasNul (p : Path) : Bool := p.names.any fun n => n.toList.contains '\x00'

/-- The path from the one root, as it is seen from a directory. No file can have
a NUL in its name. -/
def resolve (directory p : Path) : Except Fault Path :=
  let whole := directory.join p
  if whole.hasNul then .error .badValue
  else .ok ⟨"/", climb whole.names⟩

end Path

end Cascade
