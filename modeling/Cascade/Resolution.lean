import Cascade.ConfigFile
import Cascade.Module
import Cascade.Node
import Cascade.Package
import Cascade.Value.Probe

/-! Resolving a configuration: everything that it extends comes first, then the
processors of its plugins, the configuration itself, and its overrides. What a
configuration refers to is found from its own directory, except for plugins,
which have a directory of their own. A configuration that extends itself is a
cycle; each one is known by its file, its package, or its place in a plugin. -/

namespace Cascade

/-- Where configurations and plugins are looked for. -/
structure Resolver where
  base : Path
  pluginBase : Path

namespace Resolution

def extensions : List String := [".yaml", ".yml", ".json"]

/-- The names of whole sets of rules, which nothing has to be loaded for. -/
def sentinels : List String := ["eslint:all", "eslint:recommended"]

/-- The entries of a configuration that its node takes over. -/
def nodeKeys : List String :=
  ["env", "globals", "noInlineConfig", "parserOptions", "processor",
    "reportUnusedDisableDirectives", "rules", "settings"]

def baseKeys : List String := nodeKeys ++ ["extends", "overrides", "parser", "plugins"]

def allowedKeys (inOverride : Bool) : List String :=
  baseKeys ++ if inOverride then ["files", "excludedFiles"]
    else ["root", "ignorePatterns", "$schema"]

def mappingKeys : List String := ["env", "globals", "parserOptions", "rules", "settings"]

def booleanKeys : List String := ["noInlineConfig", "reportUnusedDisableDirectives", "root"]

/-- Where a configuration stands and what applies to it. -/
structure Context where
  name : String
  directory : Path
  file : Option Path := none
  criteria : Option Criteria := none
  /-- The configurations that led here by extending each other. -/
  chain : List String := []
  inOverride : Bool := false

/-- Whether a name is that of a file and not of a package. -/
def isPathReference (name : String) : Bool :=
  ["./", "../", ".\\", "..\\", "/"].any (Text.startsWith name) ||
    (".py" :: extensions).any (Text.endsWith name)

/-! ## Plugins and parsers -/

def pluginMembers : List String := ["meta", "configs", "rules", "environments", "processors"]

/-- The value of an attribute, which only objects have. A module below another
one takes the place of what the other one defines under its name. -/
def attribute? (s : Session) (v : Value) (name : String) : Option Value :=
  match s.world.shared.view v with
  | .object (.moduleNamed module) members => (s.submodule? module name).or (members.lookup name)
  | .object _ members => members.lookup name
  | _ => none

/-- What defines a plugin: what its module exports as `plugin`, or the module. -/
def pluginSource (s : Session) (module : Value) : Value :=
  match (attribute? s module "plugin").getD .null with
  | .null => module
  | v => v

/-- The definition of a plugin: the mapping that defines it, or else the members
of the object that does. -/
def pluginDefinition (s : Session) (module : Value) : Entries :=
  let source := pluginSource s module
  let members : Entries := match s.world.shared.view source with
    | .mapping m => m
    | _ => pluginMembers.filterMap fun n => (attribute? s source n).map (Value.str n, ·)
  let usual : Entries := ["configs", "rules", "environments", "processors"].map fun n =>
    (.str n, .mapping [])
  Entries.merge usual members

def fileText (file : Option Path) : String := (Problem.optional (file.map Path.text)).text

def missing {α : Type} (target : Target) (name : String) (ctx : Context) (searched : Path) :
    Action α :=
  throw (.problem (.missing target name (some ctx.name) (some searched.text)))

def loadPlugin (r : Resolver) (name : String) (ctx : Context) : Action Dependency := do
  if Text.startsWith name "." || (name.toList.contains '/' && !Text.startsWith name "@") then
    throw (.problem (.pluginIsAPath ctx.name name))
  let package ← Action.ofFault (Package.normalize Package.pluginKind name)
  let id := Package.shorthand Package.pluginKind package
  match (← getThe Session).plugins.lookup package with
  | some (definition, file) => return ⟨id, .mapping definition, file, ctx.name⟩
  | none =>
    match ← Module.load? (Package.moduleName package) (some r.pluginBase) with
    | none => missing .plugin name ctx r.pluginBase
    | some m =>
      Action.debug Source.resolver
        ("Loaded plugin '" ++ id ++ "' (" ++ package ++ ") from " ++ fileText m.file)
      let definition := pluginDefinition (← getThe Session) m.value
      modifyThe Session fun s => { s with plugins := (package, definition, m.file) :: s.plugins }
      return ⟨id, .mapping definition, m.file, ctx.name⟩

/-- Plugins by identifier; a later one takes the place of one of the same name. -/
def insertPlugin (plugins : List (String × Dependency)) (d : Dependency) :
    List (String × Dependency) :=
  match plugins with
  | [] => [(d.id, d)]
  | p :: rest => if p.1 == d.id then (p.1, d) :: rest else p :: insertPlugin rest d

def loadPlugins (r : Resolver) (names : Value) (ctx : Context) :
    Action (List (String × Dependency)) := do
  match (← Action.shared).view names with
  | .list items => match Value.strings? items with
    | some names => names.foldlM (fun plugins name => do
        return insertPlugin plugins (← loadPlugin r name ctx)) []
    | none => throw (.problem (.pluginsNotStrings ctx.name))
  | _ => throw (.problem (.pluginsNotStrings ctx.name))

def loadParser (parser : Value) (ctx : Context) : Action Dependency := do
  match parser with
  | .str name =>
    let loaded ←
      if isPathReference name then do
        let path ← Action.ofFault ((← Action.world).resolve (ctx.directory.child name))
        Module.loadPath? path
      else Module.load? (Package.moduleName name) (some ctx.directory)
    match loaded with
    | none => missing .parser name ctx ctx.directory
    | some m =>
      Action.debug Source.resolver ("Loaded parser '" ++ name ++ "' from " ++ fileText m.file)
      return ⟨name, m.value, m.file, ctx.name⟩
  | _ => throw (.problem (.parserNotAString ctx.name))

/-! ## Extended configurations -/

/-- A configuration and where it stands. -/
abbrev Extended := Value × Context

/-- Where an extended configuration stands. It is a cycle if it is on the way to
itself. -/
def extend (reference identity : String) (ctx : Context) (file : Option Path)
    (directory : Option Path) : Action Context :=
  if ctx.chain.contains identity then
    throw (.problem (.extendsCycle (ctx.chain.dropWhile (· != identity) ++ [identity])))
  else return {
    name := ctx.name ++ " » " ++ reference
    directory := directory.getD ctx.directory
    file := file
    criteria := ctx.criteria
    chain := ctx.chain ++ [identity] }

/-- The member of a value under a key, if the value contains that key. -/
def containedIn (store : Shared) (v : Value) (key : String) : Except Fault (Option Value) :=
  match store.view v with
  | .mapping m => .ok (Entries.field? m key)
  | .list items | .tuple items =>
    if items.any fun i => (store.view i).same (.str key) then .error .unsupported else .ok none
  | .str s => if Text.contains s key then .error .unsupported else .ok none
  | _ => .error .unsupported

/-- Where a configuration of a plugin stands, if the plugin has it. -/
def extendPlugin (reference : String) (ctx : Context) (identity : String) (directory : Option Path) :
    Option Value → Action Extended
  | none => throw (.problem (.missing .config reference (some ctx.name) none))
  | some config => do return (config, ← extend reference identity ctx none directory)

/-- A configuration of a plugin, whose name may have a slash of its own. -/
def pluginConfig (r : Resolver) (reference : String) (ctx : Context) : Action Extended := do
  match Text.cutLast '/' (Text.drop "plugin:".length reference) with
  | some (pluginName, configName) =>
    if pluginName.isEmpty || configName.isEmpty then
      throw (.problem (.pluginReference ctx.name reference))
    let plugin ← loadPlugin r pluginName ctx
    let store ← Action.shared
    let configs := store.member plugin.definition "configs"
    let found ←
      if store.truthy configs then Action.ofFault (containedIn store configs configName)
      else pure none
    let identity := "plugin:" ++ plugin.id ++ "/" ++ configName
    extendPlugin reference ctx identity (plugin.file.map Path.parent) found
  | none => throw (.problem (.pluginReference ctx.name reference))

/-- The configuration that a module defines. -/
def moduleConfig (m : Module) (reference : String) : Action Value := do
  match (attribute? (← getThe Session) m.value "config").getD .null with
  | .null => throw (.problem (.moduleWithoutConfig reference (m.file.map Path.text)))
  | v => return v

/-- The configuration in a file. -/
def fileConfig (path : Path) : Action Value := do
  match ConfigFile.load (← Action.world) path with
  | .ok m => return .mapping m
  | .error e => throw e

def pathConfig (reference : String) (ctx : Context) : Action Extended := do
  let w ← Action.world
  let path ← Action.ofFault (w.resolve (ctx.directory.child reference))
  let data ←
    if path.suffix == ".py" then do
      match ← Module.loadPath? path with
      | none => missing .config reference ctx ctx.directory
      | some m => moduleConfig m reference
    else if w.isFile path then fileConfig path
    else missing .config reference ctx ctx.directory
  return (data, ← extend reference path.text ctx (some path) (some path.parent))

/-- The file of a package's configuration in a directory. -/
def packageFile? (w : World) (package : String) (directory : Path) : Option Path :=
  (extensions.map fun e => directory.child (package ++ e)).find? w.isFile

/-- The configuration of a package: a file of its name, or a module. -/
def packageConfig (reference : String) (ctx : Context) : Action Extended := do
  let w ← Action.world
  let package ← Action.ofFault (Package.normalize Package.configKind reference)
  match packageFile? w package ctx.directory with
  | some path =>
    let path ← Action.ofFault (w.resolve path)
    Action.debug Source.resolver
      ("Loaded shareable config '" ++ package ++ "' from " ++ path.text)
    let data ← fileConfig path
    return (data, ← extend reference package ctx (some path) (some path.parent))
  | none =>
    match ← Module.load? (Package.moduleName package) (some ctx.directory) with
    | none => missing .config reference ctx ctx.directory
    | some m =>
      let data ← moduleConfig m reference
      return (data, ← extend reference package ctx m.file (m.file.map Path.parent))

/-- What a reference stands for. -/
def loadExtended (r : Resolver) (reference : String) (ctx : Context) : Action Extended := do
  Action.debug Source.resolver ("Loading extends '" ++ reference ++ "' from '" ++ ctx.name ++ "'")
  if sentinels.contains reference then
    let data := Value.mapping [(.str "settings", .mapping [(.str reference, .bool true)])]
    return (data, ← extend reference reference ctx none none)
  else if Text.startsWith reference "plugin:" then pluginConfig r reference ctx
  else if isPathReference reference then pathConfig reference ctx
  else packageConfig reference ctx

/-! ## One configuration -/

def isMapping : Value → Bool
  | .mapping _ => true
  | _ => false

def isBool : Value → Bool
  | .bool _ => true
  | _ => false

/-- Checks that a member is a mapping, if it is there. -/
def checkMapping (store : Shared) (m : Entries) (ctx : Context) (key : String) : Except Problem Unit :=
  match Entries.field? m key with
  | some v =>
    if isMapping (store.view v) then return ()
    else throw (.memberNotAMapping ctx.name key (store.typeName v))
  | none => return ()

/-- Checks that a member is a truth value, if it is there. -/
def checkBoolean (m : Entries) (ctx : Context) (key : String) : Except Problem Unit :=
  match Entries.field? m key with
  | some v => if isBool v then return () else throw (.memberNotABoolean ctx.name key)
  | none => return ()

/-- Checks the keys of a configuration and the types of its members. -/
def checkMembers (store : Shared) (m : Entries) (ctx : Context) : Except Problem Unit := do
  let unexpected := (Entries.keys m).filter fun k =>
    !(allowedKeys ctx.inOverride).any fun a => k.same (.str a)
  if !unexpected.isEmpty then throw (.unexpectedKeys ctx.name ctx.inOverride unexpected)
  mappingKeys.forM (checkMapping store m ctx)
  booleanKeys.forM (checkBoolean m ctx)

/-- The references of a configuration, without empty ones. -/
def references (store : Shared) (m : Entries) (ctx : Context) : Except Problem (List String) :=
  match store.view ((Entries.field? m "extends").getD .null) with
  | .null => .ok []
  | .str s => .ok ([s].filter (· != ""))
  | .list items => match Value.strings? items with
    | some names => .ok (names.filter (· != ""))
    | none => .error (.extendsNotStrings ctx.name)
  | _ => .error (.extendsNotStrings ctx.name)

/-- A member that counts as true. -/
def given? (store : Shared) (m : Entries) (key : String) : Option Value :=
  (Entries.field? m key).filter fun v => store.truthy v

/-- The element of a plugin's processor for a file extension. -/
def processorElement (ctx : Context) (plugin extension : String) : Action Element := do
  let pattern := Value.list [.str ("*" ++ extension)]
  let criteria ← Action.ofProblem
    (Criteria.make {} pattern .null (some ctx.directory.text) "<input>")
  let id := plugin ++ "/" ++ extension
  return {
    kind := .implicitProcessor
    name := ctx.name ++ "#processors[\"" ++ id ++ "\"]"
    node := { data := [(.str "processor", .str id)], criteria }
    file := ctx.file }

/-- The element of a plugin's processor if it has the name of a file extension. -/
def extensionElements (ctx : Context) (plugin : String) : Value → Action (List Element)
  | .str extension =>
    if Text.startsWith extension "." then do return [← processorElement ctx plugin extension]
    else return []
  | _ => throw (.fault .noMember)

/-- The elements of the processors that plugins assign to file extensions. -/
def processorElements (ctx : Context) (plugins : List (String × Dependency)) :
    Action (List Element) := do
  let store ← Action.shared
  let perPlugin ← plugins.mapM fun (id, plugin) => do
    let processors := store.member plugin.definition "processors"
    let names ← if store.truthy processors then Action.ofFault (store.itemsOf processors) else pure []
    return (← names.mapM (extensionElements ctx id)).flatten
  return perPlugin.flatten

/-- The patterns that a configuration ignores, which overrides cannot have. -/
def ignorePattern? (store : Shared) (m : Entries) (ctx : Context) :
    Except Problem (Option IgnorePattern) := do
  let value := (Entries.field? m "ignorePatterns").getD .null
  match ← Criteria.patternList store "ignorePatterns" ctx.name value with
  | none => return none
  | some patterns =>
    if ctx.criteria.isSome then throw (.patternsInOverride ctx.name)
    else return some ⟨patterns, ctx.directory.text⟩

/-- The entries that a node takes over, in the order of their keys. -/
def nodeData (m : Entries) : Entries :=
  nodeKeys.filterMap fun k => (Entries.field? m k).map (Value.str k, ·)

/-- The overrides of a configuration. -/
def overrides (store : Shared) (m : Entries) (ctx : Context) : Except Problem (List Value) :=
  match given? store m "overrides" with
  | none => .ok []
  | some v => match store.view v with
    | .list items => .ok items
    | _ => .error (.overridesNotAList ctx.name)

/-- Where the configuration of an override stands. -/
def overrideContext (store : Shared) (override : Value) (ctx : Context) :
    Except Problem Context := do
  match store.view override with
  | .mapping m =>
    match Entries.field? m "files" with
    | none => throw (.overrideWithoutFiles ctx.name)
    | some files =>
      let excluded := (Entries.field? m "excludedFiles").getD .null
      match ← Criteria.make store files excluded (some ctx.directory.text) ctx.name with
      | none => throw (.overrideWithoutPatterns ctx.name)
      | some c =>
        return { ctx with criteria := Criteria.combine ctx.criteria (some c), inOverride := true }
  | _ => throw (.overrideNotAMapping ctx.name)

/-- The elements that a configuration has by itself: those of the processors of
its plugins, and its own. -/
def ownElements (r : Resolver) (store : Shared) (m : Entries) (ctx : Context) :
    Action (List Element) := do
  let parser ← (given? store m "parser").mapM fun v => loadParser v ctx
  let plugins ← (given? store m "plugins").mapM fun v => loadPlugins r v ctx
  let processors ← processorElements ctx (plugins.getD [])
  let ignorePattern ← Action.ofProblem (ignorePattern? store m ctx)
  return processors ++ [{
    kind := .config
    name := ctx.name
    node := { data := nodeData m, parser, plugins, criteria := ctx.criteria, ignorePattern }
    file := ctx.file }]

/-- The context of an override before its patterns count, by its place. -/
def Context.atOverride (ctx : Context) (i : Nat) : Context :=
  { ctx with name := ctx.name ++ "#overrides[" ++ toString i ++ "]" }

/-- The elements of a configuration, given those of what it extends. The depth
is that of overrides in overrides. -/
def elements (r : Resolver) (extended : String → Context → Action (List Element)) :
    Nat → Value → Context → Action (List Element)
  | 0, _, _ => throw (.fault .endless)
  | depth + 1, config, ctx => do
    let store ← Action.shared
    match store.view config with
    | .mapping m =>
      Action.ofProblem (checkMembers store m ctx)
      let outer ← (← Action.ofProblem (references store m ctx)).mapM fun ref => extended ref ctx
      let own ← ownElements r store m ctx
      let inner ← (← Action.ofProblem (overrides store m ctx)).zipIdx.mapM fun (override, i) => do
        elements r extended depth override
          (← Action.ofProblem (overrideContext store override (ctx.atOverride i)))
      return outer.flatten ++ own ++ inner.flatten
    | v => throw (.problem (.notAMapping ctx.name v.typeName))

/-! ## Bounds -/

mutual

/-- How deeply a value is nested. -/
def depth : Value → Nat
  | .list items | .tuple items => depthOfItems items + 1
  | .mapping entries => depthOfEntries entries + 1
  | .object _ members => depthOfMembers members + 1
  | _ => 1

def depthOfItems : List Value → Nat
  | [] => 0
  | v :: rest => max (depth v) (depthOfItems rest)

def depthOfEntries : List (Value × Value) → Nat
  | [] => 0
  | (_, v) :: rest => max (depth v) (depthOfEntries rest)

def depthOfMembers : List (String × Value) → Nat
  | [] => 0
  | (_, v) :: rest => max (depth v) (depthOfMembers rest)

end

def total : List Nat → Nat
  | [] => 0
  | n :: rest => n + total rest

/-- A bound on the depth of overrides in overrides: a shared value occurs at most
once on the way to the innermost. -/
def depthBound (store : Shared) (config : Value) : Nat :=
  depth config + total (store.entries.map fun e => depth e.2) + 1

/-- The configuration that an entry of a world contains if it is read as one. -/
def entryConfig (e : List String × Entry) : Except Failure Entries := do
  match String.fromUTF8? ⟨e.2.content.toArray⟩ with
  | some s => ConfigFile.parse ⟨"/", e.1⟩ (Text.unifyLineEnds s.toList)
  | none => throw (.fault .notUtf8)

/-- The texts in what an entry of a world contains. -/
def entryTexts (e : List String × Entry) : List String :=
  let members := match e.2 with
    | .script (.defines members) => members
    | _ => []
  Probe.texts.foundInMembers members ++
    Probe.texts.foundInEntries ((entryConfig e).toOption.getD [])

/-- The texts in a configuration and in everything around it. -/
def textsAround (w : World) (config : Value) : List String :=
  Probe.texts.found config ++ Probe.texts.foundInMembers w.shared.entries ++
    w.entries.flatMap entryTexts ++ w.available.flatMap fun m => Probe.texts.foundInMembers m.2

/-- More than the length of any chain of different configurations: each is a set
of rules, a file or its directory, or named by a text, as one of a package or of
a plugin. -/
def chainBound (w : World) (config : Value) : Nat :=
  sentinels.length + 2 * w.entries.length + 2 * (textsAround w config).length + 1

/-- What a reference in a context leads to. -/
abbrev Loader := String → Context → Action Extended

/-- The elements of a configuration whose chain may grow by a number of steps. -/
def elementsTo (r : Resolver) (load : Loader) : Nat → Value → Context → Action (List Element)
  | 0, _, _ => throw (.fault .endless)
  | steps + 1, config, ctx => do
    let extended (reference : String) (ctx : Context) : Action (List Element) := do
      let (config, ctx) ← load reference ctx
      elementsTo r load steps config ctx
    elements r extended (depthBound (← Action.shared) config) config ctx

end Resolution

namespace Resolver

open Resolution

/-- The elements of a configuration, weakest first. A configuration that comes
from a file is found from there. -/
def resolveWith (r : Resolver) (load : Loader) (config : Value) (name : String)
    (file : Option Path) : Action (List Element) := do
  let w ← Action.world
  let path ← file.mapM fun p => Action.ofFault (w.resolve p)
  let ctx : Context := {
    name := name
    directory := (path.map Path.parent).getD r.base
    file := path
    chain := (path.map Path.text).toList }
  elementsTo r load (chainBound w config) config ctx

def resolve (r : Resolver) : Value → String → Option Path → Action (List Element) :=
  r.resolveWith (loadExtended r)

/-- The elements of the configuration in a file. -/
def resolveFile (r : Resolver) (file : Path) : Action (List Element) := do
  let path := r.base.join file
  Action.debug Source.resolver ("Loading config file: " ++ path.text)
  r.resolve (← fileConfig path) path.name (some path)

end Resolver

end Cascade
