import Cascade.Proofs.Conversion.Expansion

/-! # The processors of a converted node

Whatever a node is made of, when its conversion succeeds the items of its plugins'
processors stand together. In front of them are environments of the table only, and
behind them the ignored files, environments of plugins and the item of the node. -/
namespace Cascade.Conversion

variable {s : Setting} {m : Entries}

/-! ## What a success says about plugins -/

theorem addProcessors_named {plugin : String} {processors : Entries} {items items' : Precedence Value}
    (h : (processors.foldlM (addProcessor plugin) items).result = .ok items') :
    ∀ e ∈ processors, ∃ name, e.1 = .str name := by
  induction processors generalizing items with
  | nil => exact fun _ he => nomatch he
  | cons e rest ih =>
    rw [List.foldlM_cons, Logged.result_bind] at h
    obtain ⟨next, hfirst, hrest⟩ := bind_eq_ok.mp h
    refine List.forall_mem_cons.mpr ⟨?_, ih hrest⟩
    obtain ⟨key, processor⟩ := e
    cases key with
    | str name => exact ⟨name, rfl⟩
    | _ => cases hfirst

theorem addPlugin_shaped {p : Value × Value} {c c' : Contribution} (h : (addPlugin s c p).result = .ok c') :
    PluginShaped s p.2 := by
  unfold addPlugin at h
  simp only [Logged.result_bind, Logged.result_ofFault] at h
  obtain ⟨processors, hprocessors, h⟩ := bind_eq_ok.mp h
  obtain ⟨items, hitems, h⟩ := bind_eq_ok.mp h
  obtain ⟨environments, henvironments, -⟩ := bind_eq_ok.mp h
  have hprocessors := mapError_eq_ok.mp hprocessors
  refine ⟨⟨processors, hprocessors⟩, ?_, ⟨environments, mapError_eq_ok.mp henvironments⟩⟩
  rw [processorsOf, Shared.entriesIn, hprocessors]
  exact addProcessors_named hitems

theorem addPlugins_shaped {plugins : Entries} {c c' : Contribution}
    (h : (plugins.foldlM (addPlugin s) c).result = .ok c') : ∀ p ∈ plugins, PluginShaped s p.2 := by
  induction plugins generalizing c with
  | nil => exact fun _ hp => nomatch hp
  | cons p rest ih =>
    rw [List.foldlM_cons, Logged.result_bind] at h
    obtain ⟨next, hfirst, hrest⟩ := bind_eq_ok.mp h
    exact List.forall_mem_cons.mpr ⟨addPlugin_shaped hfirst, ih hrest⟩

/-- Plugins that contribute have definitions that can be read. -/
theorem contribution_shaped {items : Precedence Value} {c : Option Contribution}
    (h : (contribution s m items).result = .ok c) : PluginsShaped s (m.at "plugins") := by
  by_cases ht : s.shared.truthy (m.at "plugins") = true
  · unfold contribution at h
    simp only [ht, if_true, Logged.result_bind, Logged.result_ofFault] at h
    obtain ⟨names, hnames, h⟩ := bind_eq_ok.mp h
    obtain ⟨-, -, h⟩ := bind_eq_ok.mp h
    obtain ⟨plugins, hplugins, h⟩ := bind_eq_ok.mp h
    obtain ⟨c, hc, -⟩ := bind_eq_ok.mp h
    have hplugins := mapError_eq_ok.mp hplugins
    have hmappable : s.shared.entriesOrNone (m.at "plugins") = .ok plugins := by
      rw [Shared.entriesOrNone, if_pos ht]
      exact hplugins
    have hin : s.shared.entriesIn (m.at "plugins") = plugins := by
      rw [Shared.entriesIn, hmappable]
      rfl
    have hview : s.shared.view (m.at "plugins") = .mapping plugins := by
      rw [← hin]
      exact Shared.Mappable.view ⟨plugins, hmappable⟩ ht
    refine ⟨⟨plugins, hmappable⟩, ?_, ?_⟩ <;> rw [hin]
    -- the names are read first, and are not read where a key is no string
    · have hkeys := mapError_eq_ok.mp hnames
      rw [pluginNames, Shared.itemsOf, show s.shared.view ((Entries.field? m "plugins").getD .null) =
        .mapping plugins from hview] at hkeys
      simp only [ok_bind] at hkeys
      split at hkeys
      · rename_i listed hlisted
        intro p hp
        have hmem : p.1 ∈ listed.map Value.str :=
          Value.strings?_eq_some.mp hlisted ▸ List.mem_map_of_mem hp
        obtain ⟨name, -, hname⟩ := List.mem_map.mp hmem
        exact ⟨name, hname.symm⟩
      · cases hkeys
    · exact addPlugins_shaped hc
  · have hnone : s.shared.entriesIn (m.at "plugins") = [] :=
      Shared.entriesIn_of_not_truthy (by simpa using ht)
    refine ⟨⟨[], ?_⟩, ?_, ?_⟩
    · rw [Shared.entriesOrNone, if_neg ht]
    · simp [hnone]
    · simp [hnone]

/-! ## What stands around them -/

theorem pluginFragments_cons (named : List (String × Value)) (e : Value × Value) (rest : Entries) :
    pluginFragments s named (e :: rest) = pluginFragments s named [e] ++ pluginFragments s named rest := by
  simp only [pluginFragments, enabledNames]
  rw [← List.filterMap_append, ← List.filterMap_append, List.singleton_append]

/-- An environment that is found among those of plugins and not in the table is a
fragment of a plugin. -/
theorem pluginFragments_ne_nil {named : List (String × Value)} {e : Value × Value} {fragment : Value}
    (ht : s.shared.truthy e.2 = true) (hnone : s.table.get? e.1 = none)
    (h : Entries.get? (named.foldl (fun m e => Entries.setField m e.1 e.2) []) e.1 = some fragment) :
    pluginFragments s named [e] ≠ [] := by
  obtain ⟨key, enabled⟩ := e
  by_cases hkey : ∀ name, key ≠ .str name
  · rw [get?_named_other hkey] at h
    cases h
  · obtain ⟨name, rfl⟩ := Classical.not_forall_not.mp hkey
    have hlookup : named.reverse.lookup name = some fragment := by
      have hnamed := get?_named named [] name
      rw [Entries.field?, h] at hnamed
      simpa [Entries.field?, Entries.get?] using hnamed.symm
    simp [pluginFragments, enabledNames, ht, Value.str?, hnone, hlookup]

/-- An environment puts its items in front or behind, and behind only when it is one
of a plugin. -/
theorem addEnvironment_around {expand : Value → Value → Logged (Precedence Value)}
    {named : List (String × Value)} {e : Value × Value} {items items' : Precedence Value}
    (h : (addEnvironment s expand (named.foldl (fun m e => Entries.setField m e.1 e.2) []) items e).result =
      .ok items') : ∃ front back,
      items'.items = front ++ items.items ++ back ∧ (pluginFragments s named [e] = [] → back = []) := by
  rw [addEnvironment_result] at h
  split at h
  · rename_i ht
    split at h
    · obtain ⟨r, -, rfl⟩ := map_eq_ok.mp h
      exact ⟨r.items, [], by simp, fun _ => rfl⟩
    · rename_i hnone hsome
      obtain ⟨r, -, rfl⟩ := map_eq_ok.mp h
      exact ⟨[], r.items, by simp, fun hnil => absurd hnil (pluginFragments_ne_nil ht hnone hsome)⟩
    · cases h
      exact ⟨[], [], by simp, fun _ => rfl⟩
  · cases h
    exact ⟨[], [], by simp, fun _ => rfl⟩

theorem foldEnvironments_around {expand : Value → Value → Logged (Precedence Value)}
    {named : List (String × Value)} {env : Entries} {items items' : Precedence Value}
    (h : foldEnvironments s expand named env items = .ok items') : ∃ front back,
      items'.items = front ++ items.items ++ back ∧ (pluginFragments s named env = [] → back = []) := by
  induction env generalizing items with
  | nil =>
    cases h
    exact ⟨[], [], by simp, fun _ => rfl⟩
  | cons e rest ih =>
    rw [foldEnvironments, List.foldlM_cons] at h
    obtain ⟨next, hnext, hrest⟩ := bind_eq_ok.mp h
    obtain ⟨front, back, hitems, hback⟩ := addEnvironment_around hnext
    obtain ⟨front', back', hitems', hback'⟩ := ih hrest
    refine ⟨front' ++ front, back ++ back', by simp [hitems', hitems], fun hnil => ?_⟩
    rw [pluginFragments_cons, List.append_eq_nil_iff] at hnil
    rw [hback hnil.1, hback' hnil.2]
    rfl

/-! ## The whole conversion -/

/-- The items of a node, when its conversion succeeds, around those of the processors
of its plugins. -/
structure Around (s : Setting) (m : Entries) (items : List Value) : Prop where
  shaped : PluginsShaped s (m.at "plugins")
  items : ∃ front ignored back own, items = front ++ (processorItems s m).reverse ++ (ignored ++ back ++ [item own]) ∧
    ignoreItem s (m.at "ignorePattern") = .ok ignored ∧
    (pluginFragments s (namedEnvironments s m) (envOf s m) = [] → back = []) ∧
    ∃ definitions, Entries.field? own "plugins" = some definitions

theorem ordinary_around {expand : Value → Value → Logged (Precedence Value)} {items : Precedence Value}
    (ht : s.shared.truthy (m.at "plugins") = true) (h : (ordinary s expand m).result = .ok items) :
    Around s m items.items := by
  unfold ordinary at h
  simp only [Logged.result_bind, languageOptions_result, ok_bind, Logged.result_ofFault] at h
  obtain ⟨ignored, hignored, h⟩ := bind_eq_ok.mp h
  obtain ⟨own, -, h⟩ := bind_eq_ok.mp h
  obtain ⟨c, hc, h⟩ := bind_eq_ok.mp h
  have hshaped := contribution_shaped hc
  rw [contribution_result hshaped, if_pos ht] at hc
  cases hc
  obtain ⟨env, henv, h⟩ := bind_eq_ok.mp h
  have hin : envOf s m = env := by
    rw [envOf, Shared.entriesIn, Entries.at, mapError_eq_ok.mp henv]
    rfl
  rw [Logged.result_foldlM] at h
  obtain ⟨folded, hfold, h⟩ := bind_eq_ok.mp h
  have hfold : foldEnvironments s _ (namedEnvironments s m) env _ = .ok folded := hfold
  obtain ⟨front, back, hitems, hback⟩ := foldEnvironments_around hfold
  have hplugins : Entries.field? (Entries.setField own "plugins" (.mapping (definitionsOf s m))) "plugins" =
      some (.mapping (definitionsOf s m)) := by
    rw [Entries.field?_setField, if_pos rfl]
  have hown : (Entries.setField own "plugins" (.mapping (definitionsOf s m))).isEmpty = false := by
    rw [Bool.eq_false_iff, Ne, List.isEmpty_iff]
    intro hnil
    rw [hnil] at hplugins
    cases hplugins
  dsimp only at h
  rw [hown] at h
  cases h
  refine ⟨hshaped, front, ignored, back, _, ?_, mapError_eq_ok.mp hignored, hin ▸ hback, _, hplugins⟩
  simp [Precedence.pushBack, hitems, Precedence.pushFrontAll, Precedence.empty]

theorem convert_around {node : Value} {items : List Value} (hv : s.shared.view node = .mapping m)
    (ht : s.shared.truthy (m.at "plugins") = true) (hall : asksFor s m allRules = false)
    (hrecommended : asksFor s m recommendedRules = false) (h : (convert s node).result = .ok items) :
    Around s m items := by
  have hentries : s.shared.entriesOf node = .ok m := by rw [Shared.entriesOf, hv]
  unfold convert chainBound ofNode at h
  simp only [Logged.result_bind, Logged.result_ofFault, hentries, mapError_ok, ok_bind] at h
  obtain ⟨converted, hconverted, h⟩ := bind_eq_ok.mp h
  cases h
  obtain ⟨set, hset, hordinary⟩ := bind_eq_ok.mp hconverted
  have hsettings : s.shared.Mappable (m.at "settings") := by
    unfold sentinel at hset
    rw [Logged.result_bind, Logged.result_ofFault] at hset
    obtain ⟨settings, hsettings, -⟩ := bind_eq_ok.mp hset
    exact ⟨settings, mapError_eq_ok.mp hsettings⟩
  rw [sentinel_result hsettings, hall, hrecommended] at hset
  cases hset
  exact ordinary_around ht hordinary

end Cascade.Conversion
