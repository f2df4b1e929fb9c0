import Cascade.Conversion
import Cascade.Proofs.Result

/-! # The parts of a node

A well-shaped node gives its parts without a fault: its whole set of rules, its
own item, the items of its plugins' processors, the files it ignores, and the
fragments that its environments stand for. Each part is a plain function of
the node's entries here; the theorems say that the conversion computes it. -/
namespace Cascade

/-- The value under a key, null when there is none. -/
abbrev Entries.at (m : Entries) (key : String) : Value := (Entries.field? m key).getD .null

namespace Shared

variable (store : Shared)

/-- A mapping, or something that counts as false. -/
def Mappable (v : Value) : Prop := ∃ m, store.entriesOrNone v = .ok m

def Iterable (v : Value) : Prop := ∃ items, store.itemsOf v = .ok items

/-- The entries of a mapping, none of anything else. -/
def entriesIn (v : Value) : Entries := (store.entriesOrNone v).toOption.getD []

/-- What iterating over a value gives, nothing where that is not possible. -/
def itemsIn (v : Value) : List Value := (store.itemsOf v).toOption.getD []

variable {store}

theorem Mappable.entriesOrNone {v : Value} (h : store.Mappable v) :
    store.entriesOrNone v = .ok (store.entriesIn v) := by
  obtain ⟨m, hm⟩ := h
  rw [entriesIn, hm]
  rfl

theorem Iterable.itemsOf {v : Value} (h : store.Iterable v) :
    store.itemsOf v = .ok (store.itemsIn v) := by
  obtain ⟨items, hi⟩ := h
  rw [itemsIn, hi]
  rfl

/-- What is mappable and does not count as false is a mapping. -/
theorem Mappable.view {v : Value} (h : store.Mappable v) (ht : store.truthy v = true) :
    store.view v = .mapping (store.entriesIn v) := by
  obtain ⟨m, hm⟩ := h
  rw [Shared.entriesIn, hm]
  rw [Shared.entriesOrNone, if_pos ht, Shared.entriesOf] at hm
  split at hm
  · rename_i hv
    cases hm
    exact hv
  · cases hm

theorem entriesIn_mapping (m : Entries) : store.entriesIn (.mapping m) = m := by
  cases m <;> rfl

theorem entriesIn_of_not_truthy {v : Value} (h : store.truthy v = false) : store.entriesIn v = [] := by
  simp only [entriesIn, entriesOrNone, h]
  rfl

end Shared

namespace Conversion

variable (s : Setting)

/-! ## Well-shaped nodes -/

/-- Each side of a pair of patterns is absent or can be listed. -/
def PairShaped (pair : Value) : Prop :=
  ∀ side ∈ ["includes", "excludes"],
    s.shared.member pair side = .null ∨ s.shared.Iterable (s.shared.member pair side)

def CriteriaShaped (criteria : Value) : Prop :=
  criteria = .null ∨ s.shared.truthy (s.shared.member criteria "patterns") = false ∨
    s.shared.Iterable (s.shared.member criteria "patterns") ∧
      ∀ pair ∈ s.shared.itemsIn (s.shared.member criteria "patterns"), PairShaped s pair

/-- The processors that a plugin defines, by name. -/
def processorsOf (plugin : Value) : Entries :=
  s.shared.entriesIn (s.shared.member (s.shared.member plugin "definition") "processors")

/-- The environments that a plugin defines, by name. -/
def environmentsOf (plugin : Value) : Entries :=
  s.shared.entriesIn (s.shared.member (s.shared.member plugin "definition") "environments")

structure PluginShaped (plugin : Value) : Prop where
  processors :
    s.shared.Mappable (s.shared.member (s.shared.member plugin "definition") "processors")
  processorNames : ∀ e ∈ processorsOf s plugin, ∃ name, e.1 = .str name
  environments :
    s.shared.Mappable (s.shared.member (s.shared.member plugin "definition") "environments")

structure PluginsShaped (plugins : Value) : Prop where
  mappable : s.shared.Mappable plugins
  names : ∀ p ∈ s.shared.entriesIn plugins, ∃ name, p.1 = .str name
  each : ∀ p ∈ s.shared.entriesIn plugins, PluginShaped s p.2

/-- The entries of a node are what a conversion expects of them. -/
structure Shaped (m : Entries) : Prop where
  settings : s.shared.Mappable (m.at "settings")
  ignorePattern : m.at "ignorePattern" = .null ∨
    s.shared.Iterable (s.shared.member (m.at "ignorePattern") "patterns")
  criteria : CriteriaShaped s (m.at "criteria")
  plugins : PluginsShaped s (m.at "plugins")
  env : s.shared.Mappable (m.at "env")
  envNames : ∀ e ∈ s.shared.entriesIn (m.at "env"),
    s.shared.truthy e.2 = true → ∃ name, e.1 = .str name

/-- Every enabled name that is not a string is unknown to the table. Those of plugins
are strings anyhow. -/
def Known (env : Entries) : Prop :=
  ∀ e ∈ env, s.shared.truthy e.2 = true → (∃ name, e.1 = .str name) ∨ s.table.get? e.1 = none

/-- The entries of a node are what a conversion can read. Names of environments that
are no strings are ignored. -/
structure Readable (m : Entries) : Prop where
  settings : s.shared.Mappable (m.at "settings")
  ignorePattern : m.at "ignorePattern" = .null ∨
    s.shared.Iterable (s.shared.member (m.at "ignorePattern") "patterns")
  criteria : CriteriaShaped s (m.at "criteria")
  plugins : PluginsShaped s (m.at "plugins")
  env : s.shared.Mappable (m.at "env")
  known : Known s (s.shared.entriesIn (m.at "env"))

theorem Shaped.readable {s : Setting} {m : Entries} (h : Shaped s m) : Readable s m :=
  ⟨h.settings, h.ignorePattern, h.criteria, h.plugins, h.env, fun e he ht => .inl (h.envNames e he ht)⟩

/-! Whether a node is well-shaped can be computed. -/

instance (v : Value) : Decidable (v = .null) :=
  match v with
  | .null => .isTrue rfl
  | .bool _ | .int _ | .float _ | .str _ | .date _ | .moment _ | .bytes _ | .list _ | .tuple _
  | .mapping _ | .object _ _ | .shared _ => .isFalse (fun h => nomatch h)

instance (v : Value) : Decidable (∃ name, v = .str name) :=
  match v with
  | .str name => .isTrue ⟨name, rfl⟩
  | .null | .bool _ | .int _ | .float _ | .date _ | .moment _ | .bytes _ | .list _ | .tuple _
  | .mapping _ | .object _ _ | .shared _ => .isFalse (fun ⟨_, h⟩ => nomatch h)

instance (v : Value) : Decidable (s.shared.Mappable v) :=
  match h : s.shared.entriesOrNone v with
  | .ok m => .isTrue ⟨m, h⟩
  | .error _ => .isFalse (fun ⟨m, hm⟩ => by rw [h] at hm; cases hm)

instance (v : Value) : Decidable (s.shared.Iterable v) :=
  match h : s.shared.itemsOf v with
  | .ok items => .isTrue ⟨items, h⟩
  | .error _ => .isFalse (fun ⟨items, hi⟩ => by rw [h] at hi; cases hi)

instance (pair : Value) : Decidable (PairShaped s pair) :=
  inferInstanceAs (Decidable (∀ side ∈ ["includes", "excludes"],
    s.shared.member pair side = .null ∨ s.shared.Iterable (s.shared.member pair side)))

instance (criteria : Value) : Decidable (CriteriaShaped s criteria) :=
  inferInstanceAs (Decidable (criteria = .null ∨
    s.shared.truthy (s.shared.member criteria "patterns") = false ∨
      s.shared.Iterable (s.shared.member criteria "patterns") ∧
        ∀ pair ∈ s.shared.itemsIn (s.shared.member criteria "patterns"), PairShaped s pair))

instance (plugin : Value) : Decidable (PluginShaped s plugin) :=
  decidable_of_iff (s.shared.Mappable (s.shared.member (s.shared.member plugin "definition") "processors") ∧
      (∀ e ∈ processorsOf s plugin, ∃ name, e.1 = .str name) ∧
      s.shared.Mappable (s.shared.member (s.shared.member plugin "definition") "environments"))
    ⟨fun ⟨h, hn, he⟩ => ⟨h, hn, he⟩, fun ⟨h, hn, he⟩ => ⟨h, hn, he⟩⟩

instance (plugins : Value) : Decidable (PluginsShaped s plugins) :=
  decidable_of_iff (s.shared.Mappable plugins ∧
      (∀ p ∈ s.shared.entriesIn plugins, ∃ name, p.1 = .str name) ∧
      ∀ p ∈ s.shared.entriesIn plugins, PluginShaped s p.2)
    ⟨fun ⟨h, hn, he⟩ => ⟨h, hn, he⟩, fun ⟨h, hn, he⟩ => ⟨h, hn, he⟩⟩

instance (m : Entries) : Decidable (Shaped s m) :=
  decidable_of_iff (s.shared.Mappable (m.at "settings") ∧
      (m.at "ignorePattern" = .null ∨
        s.shared.Iterable (s.shared.member (m.at "ignorePattern") "patterns")) ∧
      CriteriaShaped s (m.at "criteria") ∧ PluginsShaped s (m.at "plugins") ∧
      s.shared.Mappable (m.at "env") ∧
      ∀ e ∈ s.shared.entriesIn (m.at "env"),
        s.shared.truthy e.2 = true → ∃ name, e.1 = .str name)
    ⟨fun ⟨hs, hi, hc, hp, he, hn⟩ => ⟨hs, hi, hc, hp, he, hn⟩,
      fun ⟨hs, hi, hc, hp, he, hn⟩ => ⟨hs, hi, hc, hp, he, hn⟩⟩

/-! ## Its parts -/

/-- Whether the settings of a node ask for a whole set of rules. -/
def asksFor (m : Entries) (rules : String) : Bool :=
  isTrue (Entries.at (s.shared.entriesIn (m.at "settings")) rules)

/-- The plugins of a node with their names. -/
def pluginsOf (m : Entries) : Entries := s.shared.entriesIn (m.at "plugins")

/-- The item of a processor that is named by a file extension. -/
def processorItem? : Value × Value → Option Value
  | (.str name, processor) =>
    if Text.startsWith name "." then
      some (item [(.str "files", .list [.str ("**/*" ++ name)]), (.str "processor", processor)])
    else none
  | _ => none

/-- The items of file extensions, by plugin and then by processor. -/
def processorItems (m : Entries) : List Value :=
  (pluginsOf s m).flatMap fun p => (processorsOf s p.2).filterMap processorItem?

/-- The item of the files that a node ignores. -/
def ignoreItems (m : Entries) : List Value := (ignoreItem s (m.at "ignorePattern")).toOption.getD []

/-- The environments of a plugin under the names `plugin/environment`. -/
def namedBy (p : Value × Value) : List (String × Value) :=
  (environmentsOf s p.2).map fun e => (p.1.text ++ "/" ++ s.shared.text e.1, e.2)

def namedEnvironments (m : Entries) : List (String × Value) := (pluginsOf s m).flatMap (namedBy s)

/-- The definitions of a node's plugins by their names. -/
def definitionsOf (m : Entries) : Entries :=
  (pluginsOf s m).foldl (fun d p => Entries.set d p.1 (s.shared.member p.2 "definition")) []

def languageEntry (m : Entries) (key : String) : Entries :=
  match Entries.field? m key with
  | none => []
  | some v => [(.str key, if key == "parser" then s.shared.member v "definition" else copied s v)]

/-- The entries of a node's own item; there is no item when there are none. -/
def ownEntries (m : Entries) : Entries :=
  let language := hoist (["globals", "parser", "parserOptions"].flatMap (languageEntry s m))
  let options := selected ["settings", "rules", "processor"] m ++ group "languageOptions" language ++
    group "linterOptions" (linterOptions m)
  let restricted := (applyCriteria s options (m.at "criteria")).toOption.getD options
  if s.shared.truthy (m.at "plugins") then
    Entries.setField restricted "plugins" (.mapping (definitionsOf s m))
  else restricted

def ownItems (m : Entries) : List Value :=
  if (ownEntries s m).isEmpty then [] else [item (ownEntries s m)]

/-- The environments of a node, switched on or off. -/
def envOf (m : Entries) : Entries := s.shared.entriesIn (m.at "env")

/-- The names that are switched on, in order. -/
def enabledNames (env : Entries) : List String :=
  env.filterMap fun e => if s.shared.truthy e.2 then e.1.str? else none

/-- The enabled names that the table has, with their fragments. -/
def tableFragments (env : Entries) : List (String × Value) :=
  (enabledNames s env).filterMap fun name => (s.table.get? (.str name)).map (name, ·)

/-- The enabled names that the table does not have but a plugin does. The last
of several environments of one name counts. -/
def pluginFragments (named : List (String × Value)) (env : Entries) : List (String × Value) :=
  (enabledNames s env).filterMap fun name => match s.table.get? (.str name) with
    | some _ => none
    | none => (named.reverse.lookup name).map (name, ·)

end Conversion

end Cascade
