import Cascade.World
import Cascade.Failure
import Cascade.Yaml.Document

/-! The settings of a project: one mapping, read from a file in the project's
directory. A key with points leads through nested mappings. Texts may refer to
environment variables; a variable that is not set leaves its reference as it is. -/

namespace Cascade

structure Settings where
  data : Entries

namespace Settings

/-- The settings that a value holds; one that counts as false holds none. -/
def ofValue (store : Shared) (v : Value) : Except Fault Settings :=
  (store.entriesOrNone v).map Settings.mk

def value (s : Settings) : Value := .object .settings [("data", .mapping s.data)]

def member (s : Settings) (key : String) : Value := (Entries.field? s.data key).getD .null

def baseDirectory (s : Settings) : Value := s.member "base_directory"

def pluginDirectory (s : Settings) : Value := s.member "resolve_plugins_relative_to"

def format (s : Settings) : Value := s.member "format"

/-! ## Looking up -/

/-- What nested mappings have under a path of keys. -/
def walk (store : Shared) : List String → Value → Option Value
  | [], v => some v
  | key :: rest, v =>
    match store.view v with
    | .mapping m => (Entries.field? m key).bind (walk store rest)
    | _ => none

/-- What a key with points leads to. -/
def find? (s : Settings) (store : Shared) (key : String) : Option Value :=
  walk store (Text.fields '.' key) (.mapping s.data)

def get (s : Settings) (store : Shared) (key : String) (default : Value) : Value :=
  (s.find? store key).getD default

def contains (s : Settings) (store : Shared) (key : String) : Bool := (s.find? store key).isSome

def keys (s : Settings) : List Value := Entries.keys s.data

/-- The setting of a key. With points it is what they lead to, or null; without,
it must be there, and a mapping is settings in turn. -/
def item (s : Settings) (store : Shared) (key : String) : Except Failure Value :=
  if key.toList.contains '.' then .ok (s.get store key .null)
  else match Entries.field? s.data key with
    | none => .error (.noSetting key)
    | some v => match store.view v with
      | .mapping m => .ok (Settings.value ⟨m⟩)
      | _ => .ok v

/-- The item at a position, counted from the end when it is negative. -/
def itemAt (items : List Value) (n : Int) : Except Fault Value :=
  let n := if n < 0 then n + items.length else n
  if n < 0 then .error .noItem
  else match items[n.toNat]? with
    | some v => .ok v
    | none => .error .noItem

/-- What a value that is not settings has under a key. -/
def index (store : Shared) (v key : Value) : Except Fault Value :=
  match store.view v, key.asNumber with
  | .mapping m, _ =>
    if key.isHashable then match Entries.get? m key with
      | some v => .ok v
      | none => .error .noKey
    else .error .unsupported
  | .list items, .int n | .tuple items, .int n => itemAt items n
  | .str s, .int n => itemAt (s.toList.map fun c => .str c.toString) n
  | _, _ => .error .unsupported

/-- What a path of keys leads to, one step after the other. -/
def items (store : Shared) : Value → List Value → Except Failure Value
  | v, [] => .ok v
  | v, key :: rest => do
    let next ← match v, key with
      | .object .settings members, .str key =>
        let s ← ((Settings.ofValue store ((members.lookup "data").getD .null)).mapError .fault)
        s.item store key
      | .object .settings _, _ => .error (.fault .unsupported)
      | v, key => (index store v key).mapError .fault
    items store next rest

/-! ## Validity -/

def textKeys : List String := ["base_directory", "resolve_plugins_relative_to", "format"]

def formats : List String := ["json", "yaml"]

def isText : Value → Bool
  | .str _ => true
  | _ => false

def isKnownFormat : Value → Bool
  | .str s => formats.contains s
  | _ => false

/-- What is wrong with the settings, in words. -/
def errors (s : Settings) (store : Shared) : List String :=
  let wrongType (key type : String) (v : Value) : String :=
    "Setting '" ++ key ++ "' must be a " ++ type ++ ", got " ++ store.typeName v
  let texts := textKeys.filterMap fun key => match s.member key with
    | .null => none
    | v => if isText v then none else some (wrongType key "string" v)
  let format := match s.format with
    | .null => []
    | v =>
      if isKnownFormat v then []
      else ["Setting 'format' must be 'json' or 'yaml', got '" ++ store.text v ++ "'"]
  let logging := match store.view (s.member "logging") with
    | .null | .mapping _ => []
    | v => [wrongType "logging" "dictionary" v]
  texts ++ format ++ logging

def validate (s : Settings) (store : Shared) : Except Problem Unit :=
  match s.errors store with
  | [] => .ok ()
  | errors => .error (.invalidSettings errors)

/-! ## Environment variables -/

/-- The name in a reference `${name}` that a text starts with, and what follows.
A name is not empty and ends at the first closing brace. -/
def reference? : List Char → Option (List Char × List Char)
  | '$' :: '\x7b' :: rest =>
    let name := rest.takeWhile (· != '\x7d')
    match rest.dropWhile (· != '\x7d') with
    | _ :: after => if name.isEmpty then none else some (name, after)
    | [] => none
  | _ => none

theorem reference?_length {cs name after : List Char} (h : reference? cs = some (name, after)) :
    after.length < cs.length := by
  unfold reference? at h
  split at h
  · rename_i rest
    have hd : (rest.dropWhile (· != '\x7d')).length ≤ rest.length :=
      (List.dropWhile_suffix _).length_le
    split at h
    · rename_i hr
      dsimp only at h
      split at h
      · cases h
      · obtain ⟨_, rfl⟩ := Prod.mk.inj (Option.some.inj h)
        rw [hr] at hd
        simp only [List.length_cons] at hd ⊢
        omega
    · cases h
  · cases h

/-- The names of the variables that a text refers to. -/
def referencesIn : List Char → List String
  | [] => []
  | c :: rest =>
    ((reference? (c :: rest)).map fun r => String.ofList r.1).toList ++ referencesIn rest

/-- The text with every reference to a set variable replaced by its value. -/
def substituteText (bindings : List (String × String)) (cs : List Char) : List Char :=
  match cs with
  | [] => []
  | c :: rest =>
    match _h : reference? (c :: rest) with
    | some (name, after) =>
      (match bindings.lookup (String.ofList name) with
        | some v => v.toList
        | none => "$\x7b".toList ++ name ++ ['\x7d']) ++ substituteText bindings after
    | none => c :: substituteText bindings rest
termination_by cs.length
decreasing_by
  · exact reference?_length _h
  · simp

mutual

/-- The value with the references in its texts replaced, as far as lists and
mappings reach; keys stay. -/
def substitute (bindings : List (String × String)) : Value → Value
  | .str s => .str (String.ofList (substituteText bindings s.toList))
  | .list items => .list (substituteItems bindings items)
  | .mapping entries => .mapping (substituteEntries bindings entries)
  | v => v

def substituteItems (bindings : List (String × String)) : List Value → List Value
  | [] => []
  | v :: rest => substitute bindings v :: substituteItems bindings rest

def substituteEntries (bindings : List (String × String)) :
    List (Value × Value) → List (Value × Value)
  | [] => []
  | (k, v) :: rest => (k, substitute bindings v) :: substituteEntries bindings rest

end

/-! ## The settings file -/

def fileName : String := ".flatcompat.yaml"

/-- The settings in the text of a file. -/
def parse (bindings : List (String × String)) (p : Path) (text : List Char) :
    Except Failure Settings := do
  let data ← (Yaml.read text).mapError fun r => match r with
    | .malformed problem mark => .problem (.settingsNotYaml p problem mark)
    | .unacceptable c => .problem (.unreadableSettings p c)
    | .fault f => .fault f
  match if data.truthy then substitute bindings data else .mapping [] with
  | .mapping m =>
    (validate ⟨m⟩ {}).mapError .problem
    return ⟨m⟩
  | v => throw (.problem (.settingsNotAMapping p v.typeName))

/-- The settings of a project, none without a file. -/
def load (w : World) (project : Path) : Except Failure Settings := do
  let p := project.child fileName
  if w.isFile p then parse w.bindings p (← (w.read p).mapError .fault)
  else return ⟨[]⟩

end Settings

end Cascade
