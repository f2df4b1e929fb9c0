import Cascade.Decimal.Shortest
import Cascade.Fault

/-! The values that configurations are made of: scalars, sequences, ordered
mappings, objects with named members, and references to values that several
places share. A mapping keeps the order in which its keys were first set; equal
keys are one key, and numbers are equal across their types. -/

namespace Cascade

structure Date where
  year : Nat
  month : Nat
  day : Nat
  deriving DecidableEq, Repr

/-- A time of day on a date, with the offset from universal time in minutes
when it is known. -/
structure Moment where
  date : Date
  hour : Nat
  minute : Nat
  second : Nat
  microsecond : Nat
  offset : Option Int
  deriving DecidableEq, Repr

/-- What an object is, apart from its members. -/
inductive Kind where
  | instanceOf (className : String)
  | classNamed (name : String)
  | moduleNamed (name : String)
  | dependency
  | ignorePattern
  | patternPair
  | criteria
  | settings
  deriving DecidableEq, Repr

inductive Value where
  | null
  | bool (b : Bool)
  | int (n : Int)
  | float (x : Float)
  | str (s : String)
  | date (d : Date)
  | moment (t : Moment)
  | bytes (bs : List UInt8)
  | list (items : List Value)
  | tuple (items : List Value)
  | mapping (entries : List (Value × Value))
  | object (kind : Kind) (members : List (String × Value))
  /-- The value that a name stands for wherever it occurs. -/
  | shared (name : String)
  deriving Inhabited

/-- An ordered mapping. -/
abbrev Entries := List (Value × Value)

namespace Value

/-- Equality of numbers of either type, truth values counting as 0 and 1. -/
def sameNumber : Value → Value → Bool
  | .int a, .int b => a == b
  | .float a, .float b => a == b
  | .int a, .float b => Decimal.exactInt? b == some a
  | .float a, .int b => Decimal.exactInt? a == some b
  | _, _ => false

/-- A truth value as a number. -/
def asNumber : Value → Value
  | .bool b => .int (if b then 1 else 0)
  | v => v

mutual

/-- Equality of values that may be keys. -/
def same : Value → Value → Bool
  | .null, .null => true
  | .str a, .str b => a == b
  | .date a, .date b => a == b
  | .moment a, .moment b => a == b
  | .bytes a, .bytes b => a == b
  | .shared a, .shared b => a == b
  | .list xs, .list ys => sameItems xs ys
  | .tuple xs, .tuple ys => sameItems xs ys
  | a, b => sameNumber a.asNumber b.asNumber

def sameItems : List Value → List Value → Bool
  | [], [] => true
  | x :: xs, y :: ys => same x y && sameItems xs ys
  | _, _ => false

end

/-- Truth of a value in a condition: zero, null and everything empty are false. -/
def truthy : Value → Bool
  | .null => false
  | .bool b => b
  | .int n => n != 0
  | .float x => x != 0.0
  | .str s => !s.isEmpty
  | .bytes bs => !bs.isEmpty
  | .list items | .tuple items => !items.isEmpty
  | .mapping entries => !entries.isEmpty
  | _ => true

/-- The name of a value's type, as messages give it. -/
def typeName : Value → String
  | .null => "NoneType"
  | .bool _ => "bool"
  | .int _ => "int"
  | .float _ => "float"
  | .str _ => "str"
  | .date _ => "date"
  | .moment _ => "datetime"
  | .bytes _ => "bytes"
  | .list _ => "list"
  | .tuple _ => "tuple"
  | .mapping _ => "dict"
  | .object kind _ => match kind with
    | .instanceOf name => name
    | .classNamed _ => "type"
    | .moduleNamed _ => "module"
    | .dependency => "ResolvedDependency"
    | .ignorePattern => "IgnorePattern"
    | .patternPair => "OverridePattern"
    | .criteria => "OverrideCriteria"
    | .settings => "Settings"
  | .shared _ => "object"

def str? : Value → Option String
  | .str s => some s
  | _ => none

/-- The strings of a list, none when something else is among them. -/
def strings? (items : List Value) : Option (List String) := items.mapM str?

/-- Whether a value may be a key: it is a scalar, an object or a tuple of such. -/
def isHashable : Value → Bool
  | .list _ | .mapping _ => false
  | .tuple items => go items
  | _ => true
where
  go : List Value → Bool
  | [] => true
  | v :: rest => isHashable v && go rest

end Value

namespace Entries

def get? (m : Entries) (key : Value) : Option Value :=
  (m.find? fun e => e.1.same key).map Prod.snd

def has (m : Entries) (key : Value) : Bool := m.any fun e => e.1.same key

/-- The key keeps its first spelling and its place; a new one goes to the end. -/
def set (m : Entries) (key value : Value) : Entries :=
  match m with
  | [] => [(key, value)]
  | e :: rest => if e.1.same key then (e.1, value) :: rest else e :: set rest key value

def erase (m : Entries) (key : Value) : Entries := m.filter fun e => !e.1.same key

/-- The mapping that results from setting the pairs one after the other. -/
def ofPairs (pairs : List (Value × Value)) : Entries := pairs.foldl (fun m e => set m e.1 e.2) []

/-- The first mapping with the pairs of the second set in it. -/
def merge (m n : Entries) : Entries := n.foldl (fun m e => set m e.1 e.2) m

def keys (m : Entries) : List Value := m.map Prod.fst

def field? (m : Entries) (name : String) : Option Value := get? m (.str name)

def hasField (m : Entries) (name : String) : Bool := has m (.str name)

def setField (m : Entries) (name : String) (value : Value) : Entries := set m (.str name) value

end Entries

/-- The values that references stand for, by name. A value may refer to itself. -/
structure Shared where
  entries : List (String × Value) := []

namespace Shared

/-- A value itself, or the value that a reference stands for. -/
def view (store : Shared) : Value → Value
  | .shared name => (store.entries.lookup name).getD .null
  | v => v

def truthy (store : Shared) (v : Value) : Bool := (store.view v).truthy

def typeName (store : Shared) (v : Value) : String := (store.view v).typeName

/-- A member of a mapping or of an object, null when there is none. -/
def member (store : Shared) (v : Value) (name : String) : Value :=
  match store.view v with
  | .mapping m => (Entries.field? m name).getD .null
  | .object _ members => (members.lookup name).getD .null
  | _ => .null

/-- The entries of a mapping. -/
def entriesOf (store : Shared) (v : Value) : Except Fault Entries :=
  match store.view v with
  | .mapping m => .ok m
  | _ => .error .noMember

/-- The entries of a mapping, none for a value that counts as false. -/
def entriesOrNone (store : Shared) (v : Value) : Except Fault Entries :=
  if store.truthy v then store.entriesOf v else .ok []

/-- What iterating over a value gives: items, keys, characters or bytes. -/
def itemsOf (store : Shared) (v : Value) : Except Fault (List Value) :=
  match store.view v with
  | .list items | .tuple items => .ok items
  | .mapping m => .ok (Entries.keys m)
  | .str s => .ok (s.toList.map fun c => .str c.toString)
  | .bytes bs => .ok (bs.map fun b => .int b.toNat)
  | _ => .error .unsupported

/-- The key and value that a sequence of two is. -/
def pairOf (store : Shared) (v : Value) : Except Fault (Value × Value) := do
  match ← store.itemsOf v with
  | [k, x] => if k.isHashable then return (k, x) else throw .unsupported
  | _ => throw .badValue

/-- A mapping as it is, or the mapping that a sequence of pairs gives. -/
def mappingOf (store : Shared) (v : Value) : Except Fault Entries := do
  match store.view v with
  | .mapping m => return m
  | v => return Entries.ofPairs (← (← store.itemsOf v).mapM store.pairOf)

end Shared

mutual

/-- The value with every reference replaced by what `f` gives for its name. -/
def Value.graft (f : String → Value) : Value → Value
  | .list items => .list (Value.graftItems f items)
  | .tuple items => .tuple (Value.graftItems f items)
  | .mapping entries => .mapping (Value.graftEntries f entries)
  | .object kind members => .object kind (Value.graftMembers f members)
  | .shared name => f name
  | v => v

def Value.graftItems (f : String → Value) : List Value → List Value
  | [] => []
  | v :: rest => v.graft f :: Value.graftItems f rest

def Value.graftEntries (f : String → Value) : List (Value × Value) → List (Value × Value)
  | [] => []
  | (k, v) :: rest => (k, v.graft f) :: Value.graftEntries f rest

def Value.graftMembers (f : String → Value) : List (String × Value) → List (String × Value)
  | [] => []
  | (n, v) :: rest => (n, v.graft f) :: Value.graftMembers f rest

end

/-- A value with references replaced by their values, to a depth. -/
def Shared.expandTo (store : Shared) : Nat → Value → Value
  | 0, v => v
  | depth + 1, v => v.graft fun name => match store.entries.lookup name with
    | some content => store.expandTo depth content
    | none => .null

/-- A value with references replaced by their values. Nested references to
more depth than there are names mean a cycle; such references stay. -/
def Shared.expand (store : Shared) (v : Value) : Value := store.expandTo store.entries.length v

mutual

/-- Whether a reference occurs in a value. -/
def Value.hasShared : Value → Bool
  | .list items | .tuple items => Value.hasSharedItems items
  | .mapping entries => Value.hasSharedEntries entries
  | .object _ members => Value.hasSharedMembers members
  | .shared _ => true
  | _ => false

def Value.hasSharedItems : List Value → Bool
  | [] => false
  | v :: rest => v.hasShared || Value.hasSharedItems rest

def Value.hasSharedEntries : List (Value × Value) → Bool
  | [] => false
  | (_, v) :: rest => v.hasShared || Value.hasSharedEntries rest

def Value.hasSharedMembers : List (String × Value) → Bool
  | [] => false
  | (_, v) :: rest => v.hasShared || Value.hasSharedMembers rest

end

end Cascade
