import Cascade.Criteria

/-! What resolving a configuration gives: a list of elements, each of which is a
configuration without references to others. What it referred to is loaded and
stands in its place. -/

namespace Cascade

/-- A plugin or parser that was loaded for a configuration. -/
structure Dependency where
  id : String
  definition : Value
  file : Option Path
  importer : String

def Dependency.value (d : Dependency) : Value :=
  .object .dependency [("id", .str d.id), ("definition", d.definition),
    ("file_path", Problem.optional (d.file.map Path.text)), ("importer_name", .str d.importer)]

/-- The patterns of files that a configuration ignores, and their base. -/
structure IgnorePattern where
  patterns : List String
  base : String

def IgnorePattern.value (p : IgnorePattern) : Value :=
  .object .ignorePattern [("patterns", .list (p.patterns.map .str)), ("base_path", .str p.base)]

structure Node where
  /-- The entries that are taken over as they are. -/
  data : Entries
  parser : Option Dependency := none
  /-- Plugins by their identifiers, in order. -/
  plugins : Option (List (String × Dependency)) := none
  criteria : Option Criteria := none
  ignorePattern : Option IgnorePattern := none

namespace Node

def optionalEntry (name : String) (v : Option Value) : Entries :=
  (v.map fun v => (Value.str name, v)).toList

/-- The entries of a node, in order. -/
def entries (n : Node) : Entries :=
  n.data ++ optionalEntry "parser" (n.parser.map Dependency.value) ++
    optionalEntry "plugins" (n.plugins.map fun ps =>
      .mapping (ps.map fun p => (.str p.1, p.2.value))) ++
    optionalEntry "criteria" (n.criteria.map Criteria.value) ++
    optionalEntry "ignorePattern" (n.ignorePattern.map IgnorePattern.value)

def value (n : Node) : Value := .mapping n.entries

end Node

/-- An element is a configuration, or stands for the processor that a plugin
assigns to a file extension. -/
inductive Element.Kind where
  | config
  | implicitProcessor
  deriving DecidableEq, Repr

def Element.Kind.text : Element.Kind → String
  | .config => "config"
  | .implicitProcessor => "implicit-processor"

structure Element where
  kind : Element.Kind
  name : String
  node : Node
  file : Option Path

end Cascade
