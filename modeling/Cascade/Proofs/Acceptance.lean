import Cascade.Environment.Builtin
import Cascade.Proofs.Conversion.Cycle
import Cascade.Proofs.Conversion.Importer
import Cascade.Proofs.Resolution.WellFormed

/-! # What is resolved can be converted

A conversion checks nothing. It does not have to: the node of every configuration
that is resolved is one that it can read, as long as what plugins define has the
right shape. Then nothing is left that can go wrong but a cycle of environments. -/
namespace Cascade

namespace Conversion

/-- What a plugin defines for a conversion: processors by their names, and
environments that are nodes. -/
structure DefinitionShaped (s : Setting) (definition : Value) : Prop where
  processors : s.shared.Mappable (s.shared.member definition "processors")
  processorNames : ∀ e ∈ s.shared.entriesIn (s.shared.member definition "processors"),
    ∃ name, e.1 = .str name
  environments : s.shared.Mappable (s.shared.member definition "environments")
  fragments : ∀ e ∈ s.shared.entriesIn (s.shared.member definition "environments"), Legible s e.2

/-- A table lists environments that are nodes by their names. -/
structure TableShaped (s : Setting) : Prop where
  names : ∀ e ∈ s.table.entries, ∃ name, e.1 = .str name
  fragments : ∀ e ∈ s.table.entries, Legible s e.2

variable {s : Setting}

theorem mem_of_get? {m : Entries} {key v : Value} (h : Entries.get? m key = some v) : ∃ e ∈ m, e.2 = v := by
  obtain ⟨e, hfind, rfl⟩ := Option.map_eq_some_iff.mp h
  exact ⟨e, List.mem_of_find?_eq_some hfind, rfl⟩

/-- A key that is no string is not in a table whose keys are strings. -/
theorem TableShaped.known (h : TableShaped s) (env : Entries) : Known s env := by
  intro e _ _
  by_cases hstr : ∃ name, e.1 = .str name
  · exact .inl hstr
  · refine .inr (Option.map_eq_none_iff.mpr (List.find?_eq_none.mpr fun entry hentry hsame => hstr ?_))
    obtain ⟨name, hname⟩ := h.names entry hentry
    rw [hname, Value.str_same] at hsame
    exact ⟨name, hsame⟩

/-- What a node enters is an environment of the table, or one of a plugin of the node. -/
theorem Enters.fragment {node fragment : Value} {m : Entries} {name : String} (h : Enters s node name fragment)
    (hv : s.shared.view node = .mapping m) :
    (∃ e ∈ s.table.entries, e.2 = fragment) ∨ ∃ p ∈ pluginsOf s m, ∃ e ∈ environmentsOf s p.2, e.2 = fragment := by
  obtain ⟨m', hm, -, -, hsteps⟩ := h
  cases hv.symm.trans hm
  rcases List.mem_append.mp hsteps with hin | hin
  · obtain ⟨key, -, hkey⟩ := List.mem_filterMap.mp hin
    obtain ⟨v, hget, heq⟩ := Option.map_eq_some_iff.mp hkey
    cases heq
    exact .inl (mem_of_get? hget)
  · obtain ⟨key, -, hkey⟩ := List.mem_filterMap.mp hin
    split at hkey
    · cases hkey
    · obtain ⟨v, hlookup, heq⟩ := Option.map_eq_some_iff.mp hkey
      cases heq
      obtain ⟨p, hp, hnamed⟩ := List.mem_flatMap.mp (List.mem_reverse.mp (mem_of_lookup hlookup))
      obtain ⟨e, he, heq⟩ := List.mem_map.mp hnamed
      cases heq
      exact .inr ⟨p, hp, e, he, rfl⟩

/-- A node can be read with all it leads to when it can be read itself, and its
plugins and the table are shaped. -/
theorem legible_of_readable {node : Value} {m : Entries} (hv : s.shared.view node = .mapping m)
    (hr : Readable s m) (ht : TableShaped s)
    (hp : ∀ p ∈ pluginsOf s m, DefinitionShaped s (s.shared.member p.2 "definition")) : Legible s node := by
  intro names last hl
  cases hl with
  | here => exact ⟨m, hv, hr⟩
  | step henters hrest =>
    rcases henters.fragment hv with ⟨e, he, rfl⟩ | ⟨p, hmem, e, he, rfl⟩
    · exact ht.fragments e he _ _ hrest
    · exact (hp p hmem).fragments e he _ _ hrest

/-! ## Nodes of configurations -/

theorem mappable_at {m : Entries} {key : String}
    (h : ∀ v, Entries.field? m key = some v → ∃ entries, s.shared.view v = .mapping entries) :
    s.shared.Mappable (m.at key) := by
  rw [Entries.at]
  cases hv : Entries.field? m key with
  | none => exact ⟨[], rfl⟩
  | some v =>
    obtain ⟨entries, hview⟩ := h v hv
    unfold Shared.Mappable Shared.entriesOrNone Shared.entriesOf
    rw [Option.getD_some, hview]
    split
    · exact ⟨entries, rfl⟩
    · exact ⟨[], rfl⟩

theorem iterable_ofStrings (store : Shared) (patterns : Option (List String)) :
    Value.ofStrings patterns = .null ∨ store.Iterable (Value.ofStrings patterns) := by
  cases patterns with
  | none => exact .inl rfl
  | some patterns => exact .inr ⟨_, rfl⟩

theorem criteriaShaped_value (c : Criteria) : CriteriaShaped s c.value := by
  refine .inr (.inr ⟨⟨_, rfl⟩, fun pair hpair => ?_⟩)
  obtain ⟨p, -, rfl⟩ := List.mem_map.mp (show pair ∈ c.pairs.map PatternPair.value from hpair)
  intro side hside
  rcases List.mem_pair.mp hside with rfl | rfl
  · exact iterable_ofStrings s.shared p.includes
  · exact iterable_ofStrings s.shared p.excludes

theorem pluginsShaped_null : PluginsShaped s .null where
  mappable := ⟨[], rfl⟩
  names _ h := nomatch h
  each _ h := nomatch h

theorem mem_pluginEntries {plugins : List (String × Dependency)} {p : Value × Value}
    (h : p ∈ Node.pluginEntries plugins) : ∃ q ∈ plugins, p = (.str q.1, q.2.value) := by
  obtain ⟨q, hq, rfl⟩ := List.mem_map.mp h
  exact ⟨q, hq, rfl⟩

/-- Nothing is read from the plugins of a node but their names and definitions. -/
theorem pluginsShaped_mapping {plugins : List (String × Dependency)}
    (h : ∀ p ∈ plugins, DefinitionShaped s p.2.definition) : PluginsShaped s (.mapping (Node.pluginEntries plugins)) := by
  refine ⟨by cases plugins <;> exact ⟨_, rfl⟩, ?_, ?_⟩ <;> rw [Shared.entriesIn_mapping] <;> intro p hp <;>
    obtain ⟨q, hq, rfl⟩ := mem_pluginEntries hp
  · exact ⟨q.1, rfl⟩
  · have hq := h q hq
    exact ⟨hq.processors, hq.processorNames, hq.environments⟩

end Conversion

namespace Node

open Conversion Resolution

variable {s : Setting} {n : Node}

theorem WellFormed.plain {store : Shared} (h : n.WellFormed store) : Plain n := by
  intro key hkey
  rw [Entries.field?, Entries.get?, Option.map_eq_none_iff, List.find?_eq_none]
  intro e he hsame
  obtain ⟨name, hname, heq⟩ := h.keys e he
  rw [heq, Value.same_str, Value.str.injEq] at hsame
  exact hkey (hsame ▸ hname)

/-- A member that is taken over from the configuration is found in the data of the node. -/
theorem at_data (n : Node) {key : String} (h : key ∈ nodeKeys) :
    n.entries.at key = (Entries.field? n.data key).getD .null := by
  have hne : ∀ other ∉ nodeKeys, other ≠ key := fun other ho heq => ho (heq ▸ h)
  rw [Entries.at, field?_entries, if_neg (hne "parser" (by decide)), if_neg (hne "plugins" (by decide)),
    if_neg (hne "criteria" (by decide)), if_neg (hne "ignorePattern" (by decide))]
  simp

theorem WellFormed.mappable (h : n.WellFormed s.shared) {key : String}
    (hkey : key ∈ ["env", "globals", "parserOptions", "rules", "settings"]) (hin : key ∈ nodeKeys) :
    s.shared.Mappable (n.entries.at key) := by
  rw [at_data n hin]
  exact mappable_at (m := n.data) (h.mappings key hkey)

theorem WellFormed.at_plugins (h : n.WellFormed s.shared) : n.entries.at "plugins" =
    (n.plugins.map fun plugins => .mapping (pluginEntries plugins)).getD .null := by
  rw [Entries.at, plugins_field?, h.plain "plugins" (by decide), Option.none_or]

/-- The plugins of a node are what a conversion reads as its plugins. -/
theorem WellFormed.pluginsOf_eq (h : n.WellFormed s.shared) :
    pluginsOf s n.entries = pluginEntries (n.plugins.getD []) := by
  rw [pluginsOf, h.at_plugins]
  cases n.plugins with
  | none => rfl
  | some plugins => exact Shared.entriesIn_mapping _

/-- A well-formed node can be read when its plugins and the table are shaped. -/
theorem WellFormed.readable (h : n.WellFormed s.shared) (ht : TableShaped s)
    (hp : ∀ plugins ∈ n.plugins, ∀ p ∈ plugins, DefinitionShaped s p.2.definition) : Readable s n.entries := by
  have hdata : ∀ key ∉ nodeKeys, Entries.field? n.data key = none := h.plain
  refine ⟨h.mappable (by decide) (by decide), ?_, ?_, ?_, h.mappable (by decide) (by decide), ht.known _⟩
  · rw [Entries.at, field?_entries, hdata "ignorePattern" (by decide)]
    cases n.ignorePattern with
    | none => exact .inl rfl
    | some pattern => exact .inr ⟨_, rfl⟩
  · rw [Entries.at, criteria_field?, hdata "criteria" (by decide), Option.none_or]
    cases n.criteria with
    | none => exact .inl rfl
    | some c => exact criteriaShaped_value c
  · rw [h.at_plugins]
    cases hplugins : n.plugins with
    | none => exact pluginsShaped_null
    | some plugins => exact pluginsShaped_mapping (hp plugins hplugins)

theorem WellFormed.legible (h : n.WellFormed s.shared) (ht : TableShaped s)
    (hp : ∀ plugins ∈ n.plugins, ∀ p ∈ plugins, DefinitionShaped s p.2.definition) : Legible s n.value := by
  refine legible_of_readable rfl (h.readable ht hp) ht fun p hmem => ?_
  rw [h.pluginsOf_eq] at hmem
  obtain ⟨q, hq, rfl⟩ := mem_pluginEntries hmem
  cases hplugins : n.plugins with
  | none =>
    rw [hplugins] at hq
    cases hq
  | some plugins =>
    rw [hplugins] at hq
    exact hp plugins hplugins q hq

end Node

namespace Conversion

/-- The members of a node that decide how it is converted. -/
def decisive : List String := ["settings", "ignorePattern", "criteria", "plugins", "env"]

/-- A node that has other members only can always be read, and leads nowhere. -/
theorem legible_of_plain (s : Setting) {m : Entries} (h : ∀ key ∈ decisive, Entries.field? m key = none) :
    Legible s (.mapping m) := by
  have hnull : ∀ key ∈ decisive, m.at key = .null := fun key hkey => by rw [Entries.at, h key hkey]; rfl
  have henv : envOf s m = [] := by rw [envOf, hnull "env" (by decide)]; rfl
  intro names last hl
  cases hl with
  | here =>
    refine ⟨m, rfl, ?_, .inl (hnull _ (by decide)), .inl (hnull _ (by decide)), ?_, ?_, ?_⟩
    · rw [hnull "settings" (by decide)]
      exact ⟨[], rfl⟩
    · rw [hnull "plugins" (by decide)]
      exact pluginsShaped_null
    · rw [hnull "env" (by decide)]
      exact ⟨[], rfl⟩
    · rw [← envOf, henv, Known]
      simp
  | step henters _ =>
    obtain ⟨m', hm, -, -, hsteps⟩ := henters
    cases hm
    rw [henv] at hsteps
    cases hsteps

/-- Whether a fragment has none of the members that decide how it is converted. -/
def isPlain : Value → Bool
  | .mapping m => decisive.all fun key => (Entries.field? m key).isNone
  | _ => false

theorem legible_of_isPlain (s : Setting) {fragment : Value} (h : isPlain fragment = true) : Legible s fragment := by
  cases fragment with
  | mapping m => exact legible_of_plain s fun key hkey => by simpa using List.all_eq_true.mp h key hkey
  | _ => cases h

/-- The built-in environments have global variables and options of the parser only. -/
theorem tableShaped_builtin (store : Shared) : TableShaped ⟨Environment.builtin, store⟩ where
  names e he := by
    obtain ⟨f, -, rfl⟩ := List.mem_map.mp he
    exact ⟨f.1, rfl⟩
  fragments e he := by
    have hall : Environment.builtin.entries.all (fun e => isPlain e.2) = true := by decide +kernel
    exact legible_of_isPlain _ (List.all_eq_true.mp hall e he)

end Conversion

namespace Resolver

open Conversion Resolution

/-- Every configuration of a resolution has a well-formed node. Where what plugins
define is shaped, and so is the table, as the built-in one is, the conversion of the
node ends with items or with a cycle of environments. -/
theorem resolve_wellFormed {r : Resolver} {config : Value} {name : String} {file : Option Path}
    {start t : Session} {es : List Element} (h : (r.resolve config name file).runFrom start = (.ok es, t)) :
    (∀ store, TableShaped ⟨Environment.builtin, store⟩) ∧ ∀ e ∈ es, e.kind = .config → e.node.WellFormed start.world.shared ∧
      ∀ s : Setting, s.shared = start.world.shared → TableShaped s →
        (∀ plugins ∈ e.node.plugins, ∀ p ∈ plugins, DefinitionShaped s p.2.definition) →
        (∃ items, (convert s e.node.value).result = .ok items) ∨
          ∃ cycle, (convert s e.node.value).result = .error (.problem (.environmentCycle cycle)) := by
  refine ⟨tableShaped_builtin, fun e he hkind => ?_⟩
  obtain ⟨path, -, places, rfl, -, hp⟩ := resolve_laid h
  obtain ⟨p, hin, hmem⟩ := List.mem_flatMap.mp he
  obtain rfl := (hp p hin).own_eq hmem hkind
  have hwf := (hp p hin).wellFormed (by simp [startContext])
  refine ⟨hwf, fun s hs ht hdefinitions => ?_⟩
  rw [← hs] at hwf
  exact convert_legible (hwf.legible ht hdefinitions)

/-! A plugin with a processor and an environment, and an override that extends a
configuration of it. -/

def definedMembers : Entries := [
  (.str "configs", .mapping [(.str "c", .mapping [ruleOf "curly"])]),
  (.str "rules", .mapping []),
  (.str "environments", .mapping [
    (.str "x", .mapping [(.str "globals", .mapping [(.str "test", .bool true)])])]),
  (.str "processors", .mapping [(.str ".md", .str "markdown")])]

def definedWorld : World where
  here := ["work"]
  available := [("eslint_plugin_p", [("plugin", .mapping definedMembers)])]

def definedConfig : Value := withOverrides
  [(.str "env", .mapping [(.str "p/x", .bool true), (.str "browser", .bool true), (.int 1, .bool true)]),
    (.str "plugins", .list [.str "p"])]
  [overrideFor "*.ts" [(.str "extends", .str "plugin:p/c")]]

theorem definitionShaped_definedMembers : DefinitionShaped ⟨Environment.builtin, {}⟩ (.mapping definedMembers) where
  processors := ⟨_, rfl⟩
  processorNames e he := by
    cases List.mem_singleton.mp he
    exact ⟨_, rfl⟩
  environments := ⟨_, rfl⟩
  fragments e he := by
    cases List.mem_singleton.mp he
    exact legible_of_isPlain _ rfl

theorem resolve_wellFormed_definedWorld : ∃ es t e,
    (workResolver.resolve definedConfig "<input>" none).runFrom (Session.start definedWorld) = (.ok es, t) ∧
    e ∈ es ∧ e.kind = .config ∧ e.node.plugins = some [("p", ⟨"p", .mapping definedMembers, none, "<input>"⟩)] ∧
    DefinitionShaped ⟨Environment.builtin, {}⟩ (.mapping definedMembers) ∧ e.node.WellFormed {} ∧
    ((∃ items, (convert ⟨Environment.builtin, {}⟩ e.node.value).result = .ok items) ∨
      ∃ cycle, (convert ⟨Environment.builtin, {}⟩ e.node.value).result =
        .error (.problem (.environmentCycle cycle))) := by
  obtain ⟨es, t, e, hrun, he, hkind, hplugins⟩ : ∃ es t e,
      (workResolver.resolve definedConfig "<input>" none).runFrom (Session.start definedWorld) = (.ok es, t) ∧
      e ∈ es ∧ e.kind = .config ∧ e.node.plugins = some [("p", ⟨"p", .mapping definedMembers, none, "<input>"⟩)] :=
    ⟨_, _, _, rfl, .tail _ (.head _), rfl, rfl⟩
  obtain ⟨hbuiltin, hall⟩ := resolve_wellFormed hrun
  obtain ⟨hwf, hconvert⟩ := hall e he hkind
  refine ⟨es, t, e, hrun, he, hkind, hplugins, definitionShaped_definedMembers, hwf,
    hconvert _ rfl (hbuiltin {}) fun plugins hin p hp => ?_⟩
  cases hplugins.symm.trans hin
  cases List.mem_singleton.mp hp
  exact definitionShaped_definedMembers

end Resolver

end Cascade
