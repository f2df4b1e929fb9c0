import Cascade.Failure
import Cascade.Json.Writer

/-! Flat configurations as plain data for display: plugins are named, parsers
and processors that are objects are described in a word, and everything else is
null, truth values, numbers, texts, lists, and mappings with texts as keys. -/

namespace Cascade

/-- A short description of an object. -/
def Shared.describe (store : Shared) (v : Value) : String :=
  let angled (name : String) := "<" ++ name ++ ">"
  match store.view v with
  | .object (.moduleNamed name) _ => "<module " ++ name ++ ">"
  | content =>
    let name := match store.view (store.member content "meta") with
      | .mapping m => (Entries.field? m "name").getD .null
      | _ => .null
    if store.truthy name then angled (store.text name)
    else match content with
      | .object (.classNamed name) _ => angled (if name.isEmpty then "type" else name)
      | .object _ members =>
        let own := (members.lookup "__qualname__").getD .null
        angled (if store.truthy own then store.text own else content.typeName)
      | content => angled content.typeName

mutual

/-- A value as plain data, given what the references in it are. -/
def Value.plainWith (store : Shared) (f : String → Except Fault Value) :
    Value → Except Fault Value
  | .null => .ok .null
  | .bool b => .ok (.bool b)
  | .int n => .ok (.int n)
  | .float x => .ok (.float x)
  | .str s => .ok (.str s)
  | .list items | .tuple items => (Value.plainItems store f items).map .list
  | .mapping entries =>
    (Value.plainEntries store f entries).map fun m => .mapping (Entries.ofPairs m)
  | .shared name => f name
  | v => .ok (.str (store.describe v))

def Value.plainItems (store : Shared) (f : String → Except Fault Value) :
    List Value → Except Fault (List Value)
  | [] => .ok []
  | v :: rest => do return (← v.plainWith store f) :: (← Value.plainItems store f rest)

def Value.plainEntries (store : Shared) (f : String → Except Fault Value) :
    List (Value × Value) → Except Fault (List (Value × Value))
  | [] => .ok []
  | (k, v) :: rest => do
    return (.str k.text, ← v.plainWith store f) :: (← Value.plainEntries store f rest)

end

namespace Shared

/-- Plain data with references followed to a depth. -/
def plainTo (store : Shared) : Nat → Value → Except Fault Value
  | 0, v => v.plainWith store fun _ => .error .endless
  | depth + 1, v => v.plainWith store fun name => store.plainTo depth (store.view (.shared name))

/-- A value as plain data. References nested deeper than there are names, one more
for a name that stands for nothing, mean that a value contains itself, so that
there is no such data. -/
def plain (store : Shared) (v : Value) : Except Fault Value := store.plainTo (store.entries.length + 1) v

/-! ## Items -/

/-- Whether a value contains the text `parser`: as a key, an item or a part. -/
def hasParser (store : Shared) (v : Value) : Except Fault Bool :=
  match store.view v with
  | .mapping m => .ok (Entries.hasField m "parser")
  | .list items | .tuple items => .ok (items.any fun i => (store.view i).same (.str "parser"))
  | .str s => .ok (Text.contains s "parser")
  | _ => .error .unsupported

/-- The entry of an item for display. -/
def plainEntry (store : Shared) (key v : Value) : Except Fault (Value × Value) :=
  match key with
  | .str "plugins" => do
    let names ← store.itemsOf v
    if names.all Value.isHashable then
      let pairs := names.map fun n => (n, Value.str ("<plugin " ++ store.text n ++ ">"))
      return (key, .mapping (Entries.ofPairs pairs))
    else throw .unsupported
  | .str "processor" =>
    match store.view v with
    | .str s => .ok (key, .str s)
    | _ => .ok (key, .str (store.describe v))
  | .str "languageOptions" => do
    if ← store.hasParser v then
      let m ← store.entriesOf v
      let options ← store.plain (.mapping (Entries.erase m (.str "parser")))
      let parser := (Entries.field? m "parser").getD .null
      return (key, .mapping (Entries.setField (← entriesOf {} options) "parser"
        (.str (store.describe parser))))
    else return (key, ← store.plain v)
  | key => (store.plain v).map (key, ·)

/-- An item for display: a text stands for itself. -/
def plainItem (store : Shared) (v : Value) : Except Fault Value :=
  match store.view v with
  | .str s => .ok (.str s)
  | _ => do
    let entries ← store.entriesOf v
    return .mapping (← entries.mapM fun e => store.plainEntry e.1 e.2)

/-- The items of a flat configuration for display. -/
def plainConfig (store : Shared) (items : List Value) : Except Fault (List Value) :=
  items.mapM store.plainItem

end Shared

end Cascade
