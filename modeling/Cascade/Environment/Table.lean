import Cascade.Failure

/-! Tables of environments. An environment is a named fragment of a
configuration: global variables and defaults for the parser. -/

namespace Cascade.Environment

/-- Fragments by name, in order. -/
structure Table where
  entries : Entries

namespace Table

def ofList (fragments : List (String × Entries)) : Table :=
  ⟨fragments.map fun f => (.str f.1, .mapping f.2)⟩

/-- The table that a mapping lists; a value that counts as false lists nothing. -/
def ofValue (store : Shared) (v : Value) : Except Fault Table := do
  if store.truthy v then return ⟨← store.mappingOf v⟩ else return ⟨[]⟩

def get? (t : Table) (name : Value) : Option Value := Entries.get? t.entries name

/-- The fragment of a name; only what may be a key can be asked for. -/
def find? (t : Table) (name : Value) : Except Fault (Option Value) :=
  if name.isHashable then .ok (t.get? name) else .error .unsupported

/-- The fragment of a name that must be there. -/
def get (t : Table) (name : Value) : Except Fault Value := do
  match ← t.find? name with
  | some fragment => return fragment
  | none => throw .noKey

def contains (t : Table) (name : Value) : Bool := Entries.has t.entries name

def names (t : Table) : List Value := Entries.keys t.entries

def size (t : Table) : Nat := t.entries.length

/-- The table with other fragments in the places of those of the same name, and
new ones at the end. -/
def withOverrides (t : Table) (fragments : Entries) : Table := ⟨Entries.merge t.entries fragments⟩

/-- The table with the fragments of a mapping in it. -/
def withValue (t : Table) (store : Shared) (v : Value) : Except Fault Table :=
  match store.view v with
  | .mapping fragments => .ok (t.withOverrides fragments)
  | _ => .error .unsupported

/-- The order of names: by characters, or of numbers by size. -/
def comesBefore (a b : Value) : Bool :=
  match a.asNumber, b.asNumber with
  | .str s, .str t => s ≤ t
  | .int m, .int n => m ≤ n
  | .float x, .float y => x ≤ y
  | .int m, .float y => Float.ofInt m ≤ y
  | .float x, .int n => x ≤ Float.ofInt n
  | _, _ => true

def isNumeric (v : Value) : Bool :=
  match v.asNumber with
  | .int _ | .float _ => true
  | _ => false

/-- The names in order, when they can be compared. -/
def sortedNames (t : Table) : Except Fault (List Value) :=
  let names := t.names
  if names.length ≤ 1 || (Value.strings? names).isSome || names.all isNumeric then
    .ok (names.mergeSort comesBefore)
  else .error .unsupported

def shown (t : Table) : Except Fault String := do
  return "EnvironmentTable(" ++ (Value.list (← t.sortedNames)).shown ++ ")"

end Table

/-- Checks that every entry is a fragment, and makes the names texts. -/
def fragments (store : Shared) (source : String) : Entries → Except Problem Entries
  | [] => .ok []
  | (name, fragment) :: rest =>
    match store.view fragment with
    | .mapping _ => (fragments store source rest).map ((.str name.text, fragment) :: ·)
    | _ => .error (.fragmentNotAMapping name source (store.typeName fragment))

/-- The environments of a document, which is a mapping of mappings or null. -/
def ofDocument (store : Shared) (data : Value) (source : String) : Except Problem Entries :=
  match store.view data with
  | .null => .ok []
  | .mapping m => (fragments store source m).map Entries.ofPairs
  | _ => .error (.tableNotAMapping source (store.typeName data))

end Cascade.Environment
