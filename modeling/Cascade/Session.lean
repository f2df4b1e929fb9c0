import Cascade.Journal
import Cascade.World

/-! The state of work in a world: modules that have been loaded, which files
were run for that, and the journal. What was loaded and recorded before a
failure stays. -/

namespace Cascade

/-- A module that was imported by its name. -/
structure Imported where
  value : Value
  file : Option Path := none
  /-- Where the modules below it are; a plain module has none. -/
  below : Option (List Path) := none

structure Session where
  world : World
  /-- Modules loaded from files, by the keys of their paths. -/
  registry : List (String × Value) := []
  /-- Modules imported by name. -/
  imported : List (String × Imported) := []
  /-- Definitions of plugins with the files that they came from, by package. -/
  plugins : List (String × Entries × Option Path) := []
  /-- The module files that were run, in order. -/
  runs : List Path := []
  journal : List Record := []

abbrev Action := ExceptT Failure (StateM Session)

namespace Session

/-- The state before any work, when only modules without files are there. -/
def start (world : World) : Session :=
  { world, imported := world.available.map fun m => (m.1, ⟨.object (.moduleNamed m.1) m.2, none, none⟩) }

/-- The module that was imported below another one, which has it as a member from
then on. Modules that are there without being imported are members of none. -/
def submodule? (s : Session) (module name : String) : Option Value :=
  let whole := module ++ "." ++ name
  if (s.world.available.lookup whole).isSome then none
  else (s.imported.lookup whole).map Imported.value

end Session

namespace Action

variable {α : Type}

def world : Action World := do return (← getThe Session).world

def shared : Action Shared := do return (← world).shared

def record (level : Level) (source : Source) (message : String) : Action Unit :=
  modifyThe Session fun s => { s with journal := s.journal ++ [⟨level, source, message⟩] }

def debug (source : Source) (message : String) : Action Unit := record Level.debug source message

def ofFault (x : Except Fault α) : Action α := ExceptT.mk (Pure.pure (x.mapError .fault))

def ofProblem (x : Except Problem α) : Action α := ExceptT.mk (Pure.pure (x.mapError .problem))

/-- A logged computation, whose records go into the journal. -/
def ofLogged (x : Logged α) : Action α := do
  modifyThe Session fun s => { s with journal := s.journal ++ x.records }
  ExceptT.mk (Pure.pure x.result)

end Action

end Cascade
