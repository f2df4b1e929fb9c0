import Mathlib.Data.List.Basic
import Cascade.Proofs.Conversion.Parts
import Cascade.Proofs.Resolution.Agreement

/-! # Who imports a plugin does not matter

The nodes of a configuration remember the name of the configuration that imports
a plugin or a parser. A conversion reads the identifiers and the definitions of
what is imported, and nothing else, so under other names there are the same items. -/
namespace Cascade

/-! ## The fields of a node -/

namespace Node

/-- Plugins as the entries of a mapping. -/
def pluginEntries (plugins : List (String × Dependency)) : Entries :=
  plugins.map fun p => (.str p.1, p.2.value)

theorem anonymous_data (n : Node) : n.anonymous.data = n.data := rfl

theorem anonymous_plugins (n : Node) : n.anonymous.plugins = n.plugins.map anonymousPlugins := rfl

theorem field?_entries (n : Node) (key : String) : Entries.field? n.entries key =
    (Entries.field? n.data key).or
      ((if "parser" = key then n.parser.map Dependency.value else none).or
      ((if "plugins" = key then
        n.plugins.map fun ps => .mapping (ps.map fun p => (.str p.1, p.2.value)) else none).or
      ((if "criteria" = key then n.criteria.map Criteria.value else none).or
      (if "ignorePattern" = key then n.ignorePattern.map IgnorePattern.value else none)))) := by
  simp only [entries, Entries.field?_append, Entries.field?_optionalEntry, Option.or_assoc]

theorem parser_field? (n : Node) : Entries.field? n.entries "parser" =
    (Entries.field? n.data "parser").or (n.parser.map Dependency.value) := by
  simp [field?_entries]

theorem plugins_field? (n : Node) : Entries.field? n.entries "plugins" =
    (Entries.field? n.data "plugins").or (n.plugins.map fun ps => .mapping (Node.pluginEntries ps)) := by
  simp [field?_entries, Node.pluginEntries]

theorem criteria_field? (n : Node) : Entries.field? n.entries "criteria" =
    (Entries.field? n.data "criteria").or (n.criteria.map Criteria.value) := by
  simp [field?_entries]

theorem field?_anonymous (n : Node) {key : String} (hparser : "parser" ≠ key) (hplugins : "plugins" ≠ key) :
    Entries.field? n.anonymous.entries key = Entries.field? n.entries key := by
  simp only [field?_entries, if_neg hparser, if_neg hplugins]
  rfl

end Node

/-! ## What a conversion reads of them -/

theorem Dependency.member_definition (store : Shared) (d : Dependency) :
    store.member d.value "definition" = d.definition := rfl

namespace Conversion

variable {s : Setting}

theorem languageEntry_anonymous (n : Node) {key : String} (h : "plugins" ≠ key) :
    languageEntry s n.anonymous.entries key = languageEntry s n.entries key := by
  by_cases hparser : "parser" = key
  · subst hparser
    rw [languageEntry, languageEntry, Node.parser_field?, Node.parser_field?]
    rw [Node.anonymous]
    cases Entries.field? n.data "parser" with
    | some v => rfl
    | none => cases n.parser <;> rfl
  · rw [languageEntry, languageEntry, Node.field?_anonymous n hparser h]

theorem addPlugins_anonymous (plugins : List (String × Dependency)) (c : Contribution) :
    (Node.pluginEntries (Node.anonymousPlugins plugins)).foldlM (addPlugin s) c =
      (Node.pluginEntries plugins).foldlM (addPlugin s) c := by
  induction plugins generalizing c with
  | nil => rfl
  | cons p rest ih =>
    have hp : addPlugin s c (.str p.1, p.2.anonymous.value) = addPlugin s c (.str p.1, p.2.value) := by
      simp only [addPlugin, Dependency.member_definition]
      rfl
    simp only [Node.pluginEntries, Node.anonymousPlugins, List.map_cons, List.foldlM_cons] at ih ⊢
    rw [hp]
    exact bind_congr fun c => ih c

/-- Plugins contribute by their names and by what is made of each. -/
theorem contribution_mapping {m plugins : Entries} (h : Entries.field? m "plugins" = some (.mapping plugins))
    (items : Precedence Value) : (contribution s m items).result =
      if plugins.isEmpty then .ok none
      else match Value.strings? (Entries.keys plugins) with
        | some _ => (plugins.foldlM (addPlugin s) ⟨[], items, []⟩).result.map some
        | none => .error (.fault .unsupported) := by
  unfold contribution
  rw [h]
  cases plugins with
  | nil => rfl
  | cons p rest =>
    have ht : s.shared.truthy (.mapping (p :: rest)) = true := rfl
    simp only [Option.getD_some, ht, if_true, Logged.result_bind, Logged.result_ofFault, pluginNames,
      Shared.itemsOf, Shared.view, ok_bind]
    cases Value.strings? (Entries.keys (p :: rest)) with
    | none => rfl
    | some names =>
      simp only [mapError_ok, ok_bind, Logged.result_record, Shared.entriesOf, Shared.view,
        Logged.result_pure, List.isEmpty_cons, pure_eq_ok]
      cases ((p :: rest).foldlM (addPlugin s) ⟨[], items, []⟩).result <;> rfl

theorem contribution_anonymous (n : Node) (items : Precedence Value) :
    (contribution s n.anonymous.entries items).result = (contribution s n.entries items).result := by
  have hfield := n.plugins_field?
  have hfield' := n.anonymous.plugins_field?
  rw [Node.anonymous_data] at hfield'
  cases hdata : Entries.field? n.data "plugins" with
  | some v =>
    rw [hdata, Option.some_or] at hfield hfield'
    rw [contribution, contribution, hfield, hfield']
  | none =>
    rw [hdata, Option.none_or] at hfield hfield'
    cases hplugins : n.plugins with
    | none =>
      rw [hplugins] at hfield
      rw [Node.anonymous_plugins, hplugins] at hfield'
      rw [contribution, contribution, hfield, hfield']
      rfl
    | some plugins =>
      rw [hplugins] at hfield
      rw [Node.anonymous_plugins, hplugins] at hfield'
      have hkeys : Entries.keys (Node.pluginEntries (Node.anonymousPlugins plugins)) =
          Entries.keys (Node.pluginEntries plugins) := by
        simp [Entries.keys, Node.pluginEntries, Node.anonymousPlugins, Function.comp_def]
      have hempty : (Node.pluginEntries (Node.anonymousPlugins plugins)).isEmpty =
          (Node.pluginEntries plugins).isEmpty := by
        simp [Node.pluginEntries, Node.anonymousPlugins]
      rw [contribution_mapping hfield, contribution_mapping hfield', hkeys, addPlugins_anonymous]
      simp only [hempty]

theorem ordinary_anonymous (expand : Value → Value → Logged (Precedence Value)) (n : Node) :
    (ordinary s expand n.anonymous.entries).result = (ordinary s expand n.entries).result := by
  have hsame : ∀ key, "parser" ≠ key → "plugins" ≠ key →
      Entries.field? n.anonymous.entries key = Entries.field? n.entries key :=
    fun key => n.field?_anonymous
  have hlanguage : ["globals", "parser", "parserOptions"].flatMap (languageEntry s n.anonymous.entries) =
      ["globals", "parser", "parserOptions"].flatMap (languageEntry s n.entries) := by
    simp only [List.flatMap_cons, languageEntry_anonymous n (show "plugins" ≠ "globals" by decide),
      languageEntry_anonymous n (show "plugins" ≠ "parser" by decide),
      languageEntry_anonymous n (show "plugins" ≠ "parserOptions" by decide)]
    rfl
  have hselected : ∀ keys : List String, (∀ key ∈ keys, "parser" ≠ key ∧ "plugins" ≠ key) →
      selected keys n.anonymous.entries = selected keys n.entries := fun keys hk =>
    List.filterMap_congr fun key hkey => by rw [hsame key (hk key hkey).1 (hk key hkey).2]
  have hown := hselected ["settings", "rules", "processor"] (by decide)
  have hlinter : linterOptions n.anonymous.entries = linterOptions n.entries := hselected _ (by decide)
  unfold ordinary
  simp only [Logged.result_bind, languageOptions_result, hlanguage, hown, hlinter, ok_bind,
    hsame "ignorePattern" (by decide) (by decide), hsame "criteria" (by decide) (by decide),
    hsame "env" (by decide) (by decide), contribution_anonymous]

theorem foundInEntries_append (p : Probe) (m m' : Entries) :
    p.foundInEntries (m ++ m') = p.foundInEntries m ++ p.foundInEntries m' := by
  induction m with
  | nil => rfl
  | cons e rest ih =>
    simp only [List.cons_append, Probe.foundInEntries, ih, List.append_assoc]

theorem found_anonymous (n : Node) :
    Probe.keys.found n.anonymous.value = Probe.keys.found n.value := by
  have hparser : Probe.keys.foundInEntries
      (Node.optionalEntry "parser" (n.anonymous.parser.map Dependency.value)) =
        Probe.keys.foundInEntries (Node.optionalEntry "parser" (n.parser.map Dependency.value)) := by
    rw [Node.anonymous]
    cases n.parser <;> rfl
  have heach : ∀ plugins : List (String × Dependency), Probe.keys.foundInEntries
      (Node.pluginEntries (Node.anonymousPlugins plugins)) = Probe.keys.foundInEntries (Node.pluginEntries plugins) := by
    intro plugins
    induction plugins with
    | nil => rfl
    | cons p rest ih =>
      exact congrArg (fun names => Probe.keys.key (.str p.1) ++ Probe.keys.found p.2.value ++ names) ih
  have hplugins : Probe.keys.foundInEntries (Node.optionalEntry "plugins"
      (n.anonymous.plugins.map fun ps => .mapping (ps.map fun p => (.str p.1, p.2.value)))) =
        Probe.keys.foundInEntries (Node.optionalEntry "plugins"
          (n.plugins.map fun ps => .mapping (ps.map fun p => (.str p.1, p.2.value)))) := by
    rw [Node.anonymous]
    cases n.plugins with
    | none => rfl
    | some plugins =>
      exact congrArg (fun names => Probe.keys.key (.str "plugins") ++ names ++ []) (heach plugins)
  show Probe.keys.foundInEntries n.anonymous.entries = Probe.keys.foundInEntries n.entries
  rw [Node.entries, Node.entries]
  simp only [foundInEntries_append]
  rw [hparser, hplugins]
  rfl

theorem namesAround_anonymous (n : Node) : namesAround s n.anonymous.value = namesAround s n.value := by
  rw [namesAround, namesAround, found_anonymous]

theorem ofNode_anonymous (fuel : Nat) (chain : List Value) (n : Node) :
    (ofNode s fuel chain n.anonymous.value).result = (ofNode s fuel chain n.value).result := by
  cases fuel with
  | zero => rfl
  | succ fuel =>
    have hsettings : (sentinel s n.anonymous.entries) = sentinel s n.entries := by
      rw [sentinel, sentinel, n.field?_anonymous (by decide) (by decide)]
    have hentries : ∀ n : Node, s.shared.entriesOf n.value = .ok n.entries := fun _ => rfl
    simp only [ofNode, Logged.result_bind, hentries, Logged.result_ofFault, mapError_ok, ok_bind, hsettings]
    refine bind_congr fun name => ?_
    cases name with
    | some name => rfl
    | none => exact ordinary_anonymous _ n

/-- The items of a node do not depend on who imports its plugins and its parser. -/
theorem convert_anonymous (n : Node) : (convert s n.anonymous.value).result = (convert s n.value).result := by
  rw [convert, convert, Logged.result_bind, Logged.result_bind, chainBound, namesAround_anonymous,
    ← chainBound, ofNode_anonymous]

end Conversion

end Cascade
