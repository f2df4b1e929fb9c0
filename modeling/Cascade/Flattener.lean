import Cascade.Environment.Builtin
import Cascade.Resolution
import Cascade.Conversion

/-! Flattening configurations: a configuration is resolved, and every element of
the result is converted. Processors that stand by themselves are passed over,
because the conversion of a configuration has them already. -/

namespace Cascade

structure Flattener where
  resolver : Resolver
  table : Environment.Table := Environment.builtin

namespace Flattener

/-- The flattener of a directory; plugins have it too unless they have their own. -/
def ofDirectories (base : Path) (pluginBase : Option Path) : Flattener :=
  { resolver := ⟨base, pluginBase.getD base⟩ }

/-- The flat items of one element. -/
def itemsOf (f : Flattener) (e : Element) : Action (List Value) := do
  match e.kind with
  | .config => Action.ofLogged (convert ⟨f.table, ← Action.shared⟩ e.node.value)
  | kind =>
    Action.debug Source.flattener ("Skipping " ++ kind.text ++ " element: " ++ e.name)
    return []

def flatten (f : Flattener) (elements : List Element) : Action (List Value) := do
  return (← elements.mapM f.itemsOf).flatten

/-- The flat items of a configuration. -/
def config (f : Flattener) (config : Value) : Action (List Value) := do
  f.flatten (← f.resolver.resolve config "<input>" none)

/-- The flat items of the configuration in a file. -/
def configFile (f : Flattener) (file : Path) : Action (List Value) := do
  f.flatten (← f.resolver.resolveFile file)

/-- A configuration with one member. -/
def member (name : String) (v : Value) : Value := .mapping [(.str name, v)]

/-- The flat items of environments that are switched on or off. -/
def env (f : Flattener) (environments : Value) : Action (List Value) := do
  f.config (member "env" (.mapping (← Action.ofFault ((← Action.shared).mappingOf environments))))

/-- The flat items of configurations that are extended. -/
def extends_ (f : Flattener) (names : List Value) : Action (List Value) :=
  f.config (member "extends" (.list names))

/-- The flat items of plugins. -/
def plugins (f : Flattener) (names : List Value) : Action (List Value) :=
  f.config (member "plugins" (.list names))

end Flattener

end Cascade
