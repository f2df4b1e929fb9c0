import Cascade.Node
import Cascade.Proofs.Conversion.Shape

/-! # What a conversion computes from a well-shaped node

Each stage of the conversion succeeds and gives the part of the node that is
named for it. What remains of an ordinary node is then one fold over its
environments, between the items in front and the node's own item. -/
namespace Cascade

/-! ## Keys that are texts -/

namespace Value

@[simp] theorem same_str (v : Value) (name : String) : v.same (.str name) = true ↔ v = .str name := by
  cases v <;> simp [same, sameNumber, asNumber]

theorem str_same (name : String) (v : Value) : (str name).same v = true ↔ v = .str name := by
  cases v <;> simp [same, sameNumber, asNumber]
  exact eq_comm

theorem strings?_map_str (names : List String) : strings? (names.map .str) = some names := by
  induction names with
  | nil => rfl
  | cons name rest ih =>
    rw [strings?] at ih ⊢
    simp [str?, ih]

/-- The strings of a list are given just when it consists of them. -/
theorem strings?_eq_some {vs : List Value} {names : List String} :
    strings? vs = some names ↔ vs = names.map .str := by
  constructor
  · intro h
    induction vs generalizing names with
    | nil => cases h; rfl
    | cons v rest ih =>
      rw [strings?, List.mapM_cons] at h
      obtain ⟨name, hname, h⟩ := Option.bind_eq_some_iff.mp h
      obtain ⟨others, hothers, h⟩ := Option.bind_eq_some_iff.mp h
      cases h
      rw [ih hothers, List.map_cons]
      cases v <;> cases hname
      rfl
  · rintro rfl
    exact strings?_map_str names

theorem strings?_of_all {vs : List Value} (h : ∀ v ∈ vs, ∃ name, v = .str name) :
    ∃ names, strings? vs = some names := by
  induction vs with
  | nil => exact ⟨[], rfl⟩
  | cons v rest ih =>
    obtain ⟨name, rfl⟩ := h v (by simp)
    obtain ⟨names, hn⟩ := ih fun v hv => h v (List.mem_cons_of_mem _ hv)
    rw [strings?] at hn
    exact ⟨name :: names, by simp [strings?, str?, hn]⟩

end Value

namespace Entries

theorem field?_append (m m' : Entries) (key : String) :
    field? (m ++ m') key = (field? m key).or (field? m' key) := by
  simp only [field?, get?, List.find?_append]
  cases m.find? fun e => e.1.same (.str key) <;> rfl

theorem field?_optionalEntry (name : String) (v : Option Value) (key : String) :
    field? (Node.optionalEntry name v) key = if name = key then v else none := by
  cases v <;> by_cases h : name = key <;> simp [Node.optionalEntry, field?, get?, h]

theorem field?_setField (m : Entries) (key : String) (value : Value) (name : String) :
    field? (setField m key value) name = if key = name then some value else field? m name := by
  induction m with
  | nil => by_cases h : key = name <;> simp [setField, set, field?, get?, h]
  | cons e rest ih =>
    simp only [setField, field?, get?, set] at ih ⊢
    by_cases he : e.1 = .str key
    · by_cases h : key = name
      · subst h; simp [he]
      · simp [he, h]
    · by_cases hn : e.1 = .str name
      · have h : key ≠ name := fun h => he (h ▸ hn)
        simp [hn, h, Ne.symm h]
      · simp [he, hn, ih]

theorem hasField_iff {m : Entries} {key : String} : hasField m key = true ↔ ∃ v, field? m key = some v := by
  rw [hasField, has, List.any_eq_true, ← List.find?_isSome, Option.isSome_iff_exists, field?, get?]
  simp only [Option.map_eq_some_iff, exists_eq_right, Prod.exists]
  exact exists_comm

theorem hasField_eq_false {m : Entries} {key : String} : hasField m key = false ↔ field? m key = none := by
  rw [Option.eq_none_iff_forall_ne_some, Bool.eq_false_iff, Ne, hasField_iff, not_exists]

theorem keys_setField {m : Entries} {key : String} {old : Value} (h : field? m key = some old)
    (value : Value) : keys (setField m key value) = keys m := by
  induction m with
  | nil => cases h
  | cons e rest ih =>
    simp only [setField, set, field?, get?] at ih h ⊢
    by_cases he : e.1.same (.str key) = true
    · rw [if_pos he]
      rfl
    · rw [if_neg he]
      rw [List.find?_cons_of_neg (by simpa using he)] at h
      exact congrArg (e.1 :: ·) (ih h)

/-- A mapping whose keys are strings stays one when a string is set. -/
theorem setField_named {m : Entries} (h : ∀ e ∈ m, ∃ name, e.1 = .str name) (key : String)
    (value : Value) : ∀ e ∈ setField m key value, ∃ name, e.1 = .str name := by
  induction m with
  | nil => simp [setField, set]
  | cons first rest ih =>
    obtain ⟨hfirst, hrest⟩ := List.forall_mem_cons.mp h
    rw [setField, set]
    split
    · exact List.forall_mem_cons.mpr ⟨hfirst, hrest⟩
    · exact List.forall_mem_cons.mpr ⟨hfirst, ih hrest⟩

end Entries

namespace Conversion

variable {s : Setting} {m : Entries}

theorem sentinel_result (h : s.shared.Mappable (m.at "settings")) :
    (sentinel s m).result = .ok (if asksFor s m allRules then some allRules
      else if asksFor s m recommendedRules then some recommendedRules else none) := by
  unfold sentinel
  rw [Logged.result_bind, Logged.result_ofFault, h.entriesOrNone]
  simp only [mapError_ok, ok_bind, asksFor, Entries.at]
  by_cases ha : isTrue ((Entries.field? (s.shared.entriesIn (m.at "settings")) allRules).getD .null) = true
  · by_cases hr : isTrue
      ((Entries.field? (s.shared.entriesIn (m.at "settings")) recommendedRules).getD .null) = true <;>
        simp [ha, hr]
  · by_cases hr : isTrue
      ((Entries.field? (s.shared.entriesIn (m.at "settings")) recommendedRules).getD .null) = true <;>
        simp [ha, hr]

theorem languageOption_result (key : String) :
    (languageOption s key m).result = .ok (languageEntry s m key) := by
  unfold languageOption languageEntry
  cases Entries.field? m key with
  | none => rfl
  | some v =>
    by_cases h : (key == "parser") = true
    · simp only [h, if_true, Logged.result_bind, Logged.result_record, ok_bind, Logged.result_pure]
    · simp only [h]
      rfl

theorem languageOptions_result : (languageOptions s m).result =
    .ok (hoist (["globals", "parser", "parserOptions"].flatMap (languageEntry s m))) := by
  unfold languageOptions
  simp [languageOption_result]

theorem ignoreItem_ok (h : Readable s m) : ignoreItem s (m.at "ignorePattern") = .ok (ignoreItems s m) := by
  have : ∃ items, ignoreItem s (m.at "ignorePattern") = .ok items := by
    unfold ignoreItem
    split
    · exact ⟨[], rfl⟩
    · rename_i hn
      rw [(h.ignorePattern.resolve_left hn).itemsOf]
      exact ⟨_, rfl⟩
  obtain ⟨items, hi⟩ := this
  rw [ignoreItems, hi]
  rfl

theorem applyPair_ok {pair : Value} (h : PairShaped s pair) (own : Entries) :
    ∃ own', applyPair s own pair = .ok own' := by
  have hi := h "includes" (by simp)
  have he := h "excludes" (by simp)
  unfold applyPair
  split
  · exact ⟨own, rfl⟩
  · rename_i hn
    rw [(he.resolve_left (by simpa using hn)).itemsOf]
    exact ⟨_, rfl⟩
  · rename_i hn
    rw [(hi.resolve_left (by simpa using hn)).itemsOf]
    exact ⟨_, rfl⟩
  · rename_i hn hn' _
    rw [(hi.resolve_left hn).itemsOf, (he.resolve_left hn').itemsOf]
    exact ⟨_, rfl⟩

theorem foldlM_applyPair_ok {pairs : List Value} (h : ∀ pair ∈ pairs, PairShaped s pair) :
    ∀ own, ∃ own', pairs.foldlM (applyPair s) own = .ok own' := by
  induction pairs with
  | nil => exact fun own => ⟨own, rfl⟩
  | cons pair rest ih =>
    intro own
    obtain ⟨own', ho⟩ := applyPair_ok (h pair (by simp)) own
    rw [List.foldlM_cons, ho, ok_bind]
    exact ih (fun pair hp => h pair (List.mem_cons_of_mem _ hp)) own'

theorem applyCriteria_ok {criteria : Value} (h : CriteriaShaped s criteria) (own : Entries) :
    applyCriteria s own criteria = .ok ((applyCriteria s own criteria).toOption.getD own) := by
  have : ∃ own', applyCriteria s own criteria = .ok own' := by
    unfold applyCriteria
    split
    · exact ⟨own, rfl⟩
    · rename_i hn
      rcases h.resolve_left hn with hf | ⟨hi, hp⟩
      · simp only [hf]
        exact ⟨own, rfl⟩
      · by_cases ht : s.shared.truthy (s.shared.member criteria "patterns") = true
        · simp only [ht, if_true, hi.itemsOf, ok_bind]
          exact foldlM_applyPair_ok hp own
        · simp only [ht]
          exact ⟨own, rfl⟩
  obtain ⟨own', ho⟩ := this
  rw [ho]
  rfl

/-! ## Plugins -/

theorem addProcessor_result (plugin : String) (items : Precedence Value) {entry : Value × Value}
    (h : ∃ name, entry.1 = .str name) : (addProcessor plugin items entry).result =
      .ok ⟨(processorItem? entry).toList ++ items.items⟩ := by
  obtain ⟨key, processor⟩ := entry
  obtain ⟨name, rfl⟩ := h
  unfold addProcessor processorItem?
  by_cases hd : Text.startsWith name "." = true
  · simp only [hd, if_true]
    rfl
  · simp only [hd]
    rfl

/-- Processors are put in front one after the other, so their order is reversed. -/
theorem addProcessors_result (plugin : String) {processors : Entries}
    (h : ∀ e ∈ processors, ∃ name, e.1 = .str name) (items : Precedence Value) :
    (processors.foldlM (addProcessor plugin) items).result =
      .ok ⟨(processors.filterMap processorItem?).reverse ++ items.items⟩ := by
  induction processors generalizing items with
  | nil => rfl
  | cons e rest ih =>
    rw [List.foldlM_cons, Logged.result_bind, addProcessor_result plugin items (h e (by simp)), ok_bind,
      ih fun e he => h e (List.mem_cons_of_mem _ he)]
    cases hp : processorItem? e <;> simp [hp]

theorem addPlugin_result {p : Value × Value} (h : PluginShaped s p.2) (c : Contribution) :
    (addPlugin s c p).result = .ok {
      definitions := Entries.set c.definitions p.1 (s.shared.member p.2 "definition")
      items := ⟨((processorsOf s p.2).filterMap processorItem?).reverse ++ c.items.items⟩
      environments := (namedBy s p).foldl (fun m e => Entries.setField m e.1 e.2) c.environments } := by
  unfold addPlugin
  simp only [Logged.result_bind, Logged.result_ofFault, h.processors.entriesOrNone,
    h.environments.entriesOrNone, mapError_ok, ok_bind, Logged.result_pure]
  rw [← processorsOf, addProcessors_result p.1.text h.processorNames, ok_bind]
  rw [namedBy, List.foldl_map, environmentsOf]

theorem addPlugins_result {plugins : Entries} (h : ∀ p ∈ plugins, PluginShaped s p.2)
    (c : Contribution) : (plugins.foldlM (addPlugin s) c).result = .ok {
      definitions :=
        plugins.foldl (fun d p => Entries.set d p.1 (s.shared.member p.2 "definition")) c.definitions
      items := ⟨(plugins.flatMap fun p => (processorsOf s p.2).filterMap processorItem?).reverse ++
        c.items.items⟩
      environments :=
        (plugins.flatMap (namedBy s)).foldl (fun m e => Entries.setField m e.1 e.2) c.environments } := by
  induction plugins generalizing c with
  | nil => rfl
  | cons p rest ih =>
    rw [List.foldlM_cons, Logged.result_bind, addPlugin_result (h p (by simp)), ok_bind,
      ih fun p hp => h p (List.mem_cons_of_mem _ hp)]
    simp

theorem contribution_result (h : PluginsShaped s (m.at "plugins")) (items : Precedence Value) :
    (contribution s m items).result = .ok (if s.shared.truthy (m.at "plugins") then some {
      definitions := definitionsOf s m
      items := ⟨(processorItems s m).reverse ++ items.items⟩
      environments := (namedEnvironments s m).foldl (fun m e => Entries.setField m e.1 e.2) [] }
    else none) := by
  unfold contribution
  by_cases ht : s.shared.truthy (m.at "plugins") = true
  · have hv := h.mappable.view ht
    have each : ∀ p ∈ pluginsOf s m, PluginShaped s p.2 := h.each
    obtain ⟨names, hn⟩ : ∃ names, Value.strings? (Entries.keys (pluginsOf s m)) = some names := by
      refine Value.strings?_of_all fun v hm => ?_
      obtain ⟨p, hp, rfl⟩ := List.mem_map.mp hm
      exact h.names p hp
    have hnames : pluginNames s (m.at "plugins") = .ok names := by
      simp only [pluginNames, Shared.itemsOf, hv, ok_bind]
      rw [← pluginsOf, hn]
      rfl
    have hentries : s.shared.entriesOf (m.at "plugins") = .ok (pluginsOf s m) := by
      simp only [Shared.entriesOf, hv]
      rfl
    simp only [ht, if_true, hnames, hentries, Logged.result_bind, Logged.result_ofFault, mapError_ok,
      ok_bind, Logged.result_record, Logged.result_pure]
    rw [addPlugins_result each, ok_bind]
    rfl
  · simp only [ht]
    rfl

/-- Of several environments of one name the last one is found. -/
theorem get?_named (named : List (String × Value)) (m : Entries) (name : String) :
    Entries.field? (named.foldl (fun m e => Entries.setField m e.1 e.2) m) name =
      (named.reverse.lookup name).or (Entries.field? m name) := by
  induction named generalizing m with
  | nil => rfl
  | cons e rest ih =>
    obtain ⟨key, fragment⟩ := e
    rw [List.foldl_cons, ih, Entries.field?_setField, List.reverse_cons, List.lookup_append,
      Option.or_assoc]
    by_cases he : key = name
    · simp [he]
    · have hne : (name == key) = false := by simpa using Ne.symm he
      simp [he, List.lookup_cons, hne]

/-- Nothing that is no string is found among environments of plugins. -/
theorem get?_named_other {key : Value} (h : ∀ name, key ≠ .str name) (named : List (String × Value)) :
    Entries.get? (named.foldl (fun m e => Entries.setField m e.1 e.2) []) key = none := by
  have hkeys : ∀ m : Entries, (∀ e ∈ m, ∃ name, e.1 = .str name) →
      ∀ e ∈ named.foldl (fun m e => Entries.setField m e.1 e.2) m, ∃ name, e.1 = .str name := by
    induction named with
    | nil => exact fun m hm => hm
    | cons e rest ih => exact fun m hm => ih _ (Entries.setField_named hm e.1 e.2)
  rw [Entries.get?, Option.map_eq_none_iff, List.find?_eq_none]
  intro e he hsame
  obtain ⟨name, hname⟩ := hkeys [] (by simp) e he
  rw [hname, Value.str_same] at hsame
  exact h name hsame

/-! ## An ordinary node -/

/-- Everything but the environments of an ordinary node is there before and
after the fold over them. -/
theorem ordinary_result (h : Readable s m) (expand : Value → Value → Logged (Precedence Value)) :
    (ordinary s expand m).result =
      ((envOf s m).foldlM (fun items e => (addEnvironment s expand
        ((namedEnvironments s m).foldl (fun m e => Entries.setField m e.1 e.2) []) items e).result)
        ⟨(processorItems s m).reverse ++ ignoreItems s m⟩).map
          fun items => ⟨items.items ++ ownItems s m⟩ := by
  unfold ordinary
  rw [Logged.result_bind, languageOptions_result, ok_bind, Logged.result_bind, Logged.result_ofFault,
    ignoreItem_ok h, mapError_ok, ok_bind, Logged.result_bind, Logged.result_ofFault,
    applyCriteria_ok h.criteria, mapError_ok, ok_bind, Logged.result_bind, contribution_result h.plugins,
    ok_bind]
  have closing : ∀ (r : Except Failure (Precedence Value)) (own : Entries),
      (r >>= fun items => .ok (if own.isEmpty then items else items.pushBack (item own))) =
        r.map fun items => ⟨items.items ++ if own.isEmpty then [] else [item own]⟩ := by
    intro r own
    cases r <;> cases own.isEmpty <;> simp [Precedence.pushBack]
  by_cases ht : s.shared.truthy (m.at "plugins") = true
  · simp only [ht, if_true, Logged.result_bind, Logged.result_ofFault, h.env.entriesOrNone, mapError_ok,
      ok_bind, Logged.result_foldlM, Logged.result_pure]
    rw [closing, ownItems, ownEntries, if_pos ht, envOf]
    simp [Precedence.pushFrontAll, Precedence.empty]
  · have hp : pluginsOf s m = [] := Shared.entriesIn_of_not_truthy (by simpa using ht)
    have hn : namedEnvironments s m = [] := by rw [namedEnvironments, hp]; rfl
    have hi : processorItems s m = [] := by rw [processorItems, hp]; rfl
    rw [if_neg ht]
    simp only [Logged.result_bind, Logged.result_ofFault, h.env.entriesOrNone, mapError_ok, ok_bind,
      Logged.result_foldlM, Logged.result_pure]
    rw [closing, ownItems, ownEntries, if_neg ht, envOf, hn, hi]
    simp [Precedence.pushFrontAll, Precedence.empty]

end Conversion

end Cascade
