import Cascade.Environment.Table
import Cascade.Journal
import Cascade.Precedence
import Cascade.Value.Probe

/-! Converting a node of a cascading configuration into the items of a flat
one. In the flat configuration position is precedence, so each part of the node
either belongs to the node's own item or is an item in front of it, weaker, or
behind what is there, stronger. An environment is a node itself; one that leads
back to itself is a cycle. -/

namespace Cascade.Conversion

def allRules : String := "eslint:all"

def recommendedRules : String := "eslint:recommended"

/-- What a conversion depends on besides the node. -/
structure Setting where
  table : Environment.Table
  shared : Shared

variable (s : Setting)

/-! ## The node's own item -/

def isTrue : Value → Bool
  | .bool b => b
  | _ => false

/-- The name of a whole set of rules, when the settings ask for one. -/
def sentinel (node : Entries) : Logged (Option String) := do
  let settings ← Logged.ofFault
    (s.shared.entriesOrNone ((Entries.field? node "settings").getD .null))
  let asked (name : String) : Bool := isTrue ((Entries.field? settings name).getD .null)
  if asked allRules && asked recommendedRules then
    Logged.record Level.warning Source.conversion
      ("Both '" ++ allRules ++ "' and '" ++ recommendedRules ++ "' are set; using '" ++ allRules ++
        "'")
  if asked allRules then return some allRules
  else if asked recommendedRules then return some recommendedRules
  else return none

/-- The entries of a mapping under the given keys, in the order of the keys. -/
def selected (keys : List String) (m : Entries) : Entries :=
  keys.filterMap fun k => (Entries.field? m k).map (Value.str k, ·)

/-- A mapping is copied; the copy is not the shared value itself. -/
def copied (v : Value) : Value :=
  match s.shared.view v with
  | .mapping m => .mapping m
  | _ => v

def hoistedOptions : List String := ["ecmaVersion", "sourceType"]

/-- The options of the language out of those of the parser. -/
def hoist (options : Entries) : Entries :=
  match Entries.field? options "parserOptions" with
  | some (.mapping m) =>
    let rest := hoistedOptions.foldl (fun m k => Entries.erase m (.str k)) m
    let options :=
      if rest.isEmpty then Entries.erase options (.str "parserOptions")
      else Entries.setField options "parserOptions" (.mapping rest)
    Entries.merge options (selected hoistedOptions m)
  | _ => options

def languageOption (key : String) (node : Entries) : Logged Entries :=
  match Entries.field? node key with
  | none => return []
  | some v =>
    if key == "parser" then do
      Logged.record Level.debug Source.conversion
        ("Using parser '" ++ s.shared.text (s.shared.member v "id") ++ "'")
      return [(.str key, s.shared.member v "definition")]
    else return [(.str key, copied s v)]

def languageOptions (node : Entries) : Logged Entries := do
  let globals ← languageOption s "globals" node
  let parser ← languageOption s "parser" node
  let parserOptions ← languageOption s "parserOptions" node
  return hoist (globals ++ parser ++ parserOptions)

def linterOptions (node : Entries) : Entries :=
  selected ["noInlineConfig", "reportUnusedDisableDirectives"] node

/-- An entry for a mapping, none for an empty one. -/
def group (key : String) (m : Entries) : Entries :=
  if m.isEmpty then [] else [(.str key, .mapping m)]

/-- A pair of patterns sets the files of the item and what is left out of them.
Without included files, one group of negated patterns takes their place. -/
def applyPair (own : Entries) (pair : Value) : Except Fault Entries := do
  match s.shared.member pair "includes", s.shared.member pair "excludes" with
  | .null, .null => return own
  | .null, excludes =>
    let patterns := (← s.shared.itemsOf excludes).map fun e => Value.str ("!" ++ s.shared.text e)
    return Entries.setField own "files" (.list [.list patterns])
  | includes, .null =>
    return Entries.setField own "files" (.list (← s.shared.itemsOf includes))
  | includes, excludes =>
    let own := Entries.setField own "files" (.list (← s.shared.itemsOf includes))
    return Entries.setField own "ignores" (.list (← s.shared.itemsOf excludes))

def applyCriteria (own : Entries) (criteria : Value) : Except Fault Entries := do
  match criteria with
  | .null => return own
  | criteria =>
    let pairs := s.shared.member criteria "patterns"
    if s.shared.truthy pairs then
      (← s.shared.itemsOf pairs).foldlM (applyPair s) own
    else return own

/-! ## Items beside it -/

def item (entries : Entries) : Value := .mapping entries

def ignoreItem (pattern : Value) : Except Fault (List Value) := do
  match pattern with
  | .null => return []
  | pattern =>
    let patterns ← s.shared.itemsOf (s.shared.member pattern "patterns")
    return [item [(.str "ignores", .list patterns)]]

/-- What the plugins of a node contribute: their definitions, items for the
processors of file extensions, and environments under the plugin's name. -/
structure Contribution where
  definitions : Entries
  items : Precedence Value
  environments : Entries

def addProcessor (plugin : String) (items : Precedence Value) (entry : Value × Value) :
    Logged (Precedence Value) :=
  match entry with
  | (.str name, processor) =>
    if Text.startsWith name "." then do
      Logged.record Level.debug Source.conversion ("Assigning processor: " ++ plugin ++ "/" ++ name)
      return items.pushFront
        (item [(.str "files", .list [.str ("**/*" ++ name)]), (.str "processor", processor)])
    else return items
  | _ => Logged.fail (.fault .noMember)

def addPlugin (c : Contribution) (entry : Value × Value) : Logged Contribution := do
  let name := entry.1.text
  let definition := s.shared.member entry.2 "definition"
  let processors ← Logged.ofFault
    (s.shared.entriesOrNone (s.shared.member definition "processors"))
  let items ← processors.foldlM (addProcessor name) c.items
  let environments ← Logged.ofFault
    (s.shared.entriesOrNone (s.shared.member definition "environments"))
  return {
    definitions := Entries.set c.definitions entry.1 definition
    items := items
    environments := environments.foldl (fun m e =>
      Entries.setField m (name ++ "/" ++ s.shared.text e.1) e.2) c.environments }

/-- The names of plugins, which must be texts. -/
def pluginNames (plugins : Value) : Except Fault (List String) := do
  match Value.strings? (← s.shared.itemsOf plugins) with
  | some names => return names
  | none => throw .unsupported

/-- The contribution of a node's plugins to the items so far, none when it has
no plugins. -/
def contribution (node : Entries) (items : Precedence Value) : Logged (Option Contribution) := do
  let plugins := (Entries.field? node "plugins").getD .null
  if s.shared.truthy plugins then
    let names ← Logged.ofFault (pluginNames s plugins)
    Logged.record Level.debug Source.conversion
      ("Translating plugins: " ++ String.intercalate ", " names)
    let entries ← Logged.ofFault (s.shared.entriesOf plugins)
    return some (← entries.foldlM (addPlugin s) ⟨[], items, []⟩)
  else return none

/-! ## Nodes -/

/-- The part of a chain of environments that leads from a name back to it. -/
def cycleAt (chain : List Value) (name : Value) : List Value :=
  chain.dropWhile (fun c => !c.same name) ++ [name]

/-- A cycle is reported by its names. -/
def cycleFailure (chain : List Value) (name : Value) : Failure :=
  match Value.strings? (cycleAt chain name) with
  | some names => .problem (.environmentCycle names)
  | none => .fault .unsupported

/-- The items of an environment that is switched on, in the place that its
origin gives it: below everything for one of the table, above what is there for
one of a plugin. -/
def addEnvironment (expand : Value → Value → Logged (Precedence Value)) (environments : Entries)
    (items : Precedence Value) (entry : Value × Value) : Logged (Precedence Value) := do
  let (name, enabled) := entry
  if !s.shared.truthy enabled then return items
  Logged.record Level.debug Source.conversion ("Translating environment: " ++ s.shared.text name)
  match s.table.get? name, Entries.get? environments name with
  | some fragment, _ => return items.pushFrontAll (← expand name fragment).toList
  | none, some fragment => return items.pushBackAll (← expand name fragment).toList
  | none, none =>
    Logged.record Level.debug Source.conversion
      ("Unknown environment ignored: " ++ s.shared.text name)
    return items

/-- The items of a node that asks for no whole set of rules. -/
def ordinary (expand : Value → Value → Logged (Precedence Value)) (node : Entries) :
    Logged (Precedence Value) := do
  let language ← languageOptions s node
  let own := selected ["settings", "rules", "processor"] node ++
    group "languageOptions" language ++ group "linterOptions" (linterOptions node)
  let ignored ← Logged.ofFault (ignoreItem s ((Entries.field? node "ignorePattern").getD .null))
  let items := Precedence.empty.pushFrontAll ignored
  let own ← Logged.ofFault (applyCriteria s own ((Entries.field? node "criteria").getD .null))
  let plugins ← contribution s node items
  let own := match plugins with
    | some c => Entries.setField own "plugins" (.mapping c.definitions)
    | none => own
  let (items, environments) := match plugins with
    | some c => (c.items, c.environments)
    | none => (items, [])
  let env ← Logged.ofFault (s.shared.entriesOrNone ((Entries.field? node "env").getD .null))
  let items ← env.foldlM (addEnvironment s expand environments) items
  return if own.isEmpty then items else items.pushBack (item own)

/-- The items of a node that is reached by a chain of environments. -/
def ofNode : Nat → List Value → Value → Logged (Precedence Value)
  | 0, _, _ => Logged.fail (.fault .endless)
  | fuel + 1, chain, node => do
    let node ← Logged.ofFault (s.shared.entriesOf node)
    match ← sentinel s node with
    | some name => return Precedence.ofList [.str name]
    | none =>
      ordinary s (fun name fragment =>
        if chain.any fun c => c.same name then Logged.fail (cycleFailure chain name)
        else ofNode fuel (chain ++ [name]) fragment) node

/-- The names of all environments that a conversion can meet: each of them is a
key in the node, the table or a shared value. -/
def namesAround (node : Value) : List String :=
  Probe.keys.found node ++ Probe.keys.foundInEntries s.table.entries ++
    Probe.keys.foundInMembers s.shared.entries

/-- More than the length of any chain of different environments. -/
def chainBound (node : Value) : Nat := (namesAround s node).length + 1

end Conversion

/-- The items of a flat configuration that stand for a node, weakest first. -/
def convert (s : Conversion.Setting) (node : Value) : Logged (List Value) := do
  return (← Conversion.ofNode s (Conversion.chainBound s node) [] node).toList

end Cascade
