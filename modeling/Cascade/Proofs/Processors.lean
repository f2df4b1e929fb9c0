import Cascade.Proofs.Acceptance
import Cascade.Proofs.Conversion.Processors

/-! # Which processor wins

Plugins assign processors to file extensions twice: a resolution has an element for
each of them, in the order of the plugins, and a conversion puts an item for each in
front of what is there. Both orders mean precedence, so of several plugins for the
same extension the last one wins in the resolution, and the first one in the
conversion. -/
namespace Cascade

section
variable {α β : Type}

/-- A list of lists begins as the first of them that is not empty. -/
theorem head?_flatMap {l : List α} {f : α → List β} (keep : α → Bool)
    (hf : ∀ x ∈ l, keep x = true ↔ f x ≠ []) :
    (l.flatMap f).head? = (l.filter keep).head?.bind fun x => (f x).head? := by
  induction l with
  | nil => rfl
  | cons x rest ih =>
    have ih := ih fun y hy => hf y (List.mem_cons_of_mem _ hy)
    rw [List.flatMap_cons]
    by_cases hx : f x = []
    · have hkeep : ¬ keep x = true := fun h => (hf x (by simp)).mp h hx
      rw [hx, List.nil_append, ih, List.filter_cons_of_neg hkeep]
    · obtain ⟨first, tail, htail⟩ := List.exists_cons_of_ne_nil hx
      rw [List.filter_cons_of_pos ((hf x (by simp)).mpr hx), List.head?_cons, Option.bind_some, htail]
      rfl

/-- A list of lists ends as the last of them that is not empty. -/
theorem getLast?_flatMap {l : List α} {f : α → List β} (keep : α → Bool)
    (hf : ∀ x ∈ l, keep x = true ↔ f x ≠ []) :
    (l.flatMap f).getLast? = (l.filter keep).getLast?.bind fun x => (f x).getLast? := by
  rw [List.getLast?_eq_head?_reverse, List.reverse_flatMap, List.getLast?_eq_head?_reverse, ← List.filter_reverse,
    head?_flatMap keep fun x hx => ?_]
  · simp only [Function.comp_apply, ← List.getLast?_eq_head?_reverse]
  · rw [hf x (List.mem_reverse.mp hx)]
    simp

end

open Resolution Conversion

/-! ## In a resolution -/

/-- Whether an element is for the processor of a file extension. -/
def isFor (extension : String) (e : Element) : Bool :=
  e.kind == .implicitProcessor && e.node.criteria.any fun c => c.pairs == [⟨some ["*" ++ extension], none⟩]

/-- The plugins that have a processor for a file extension. -/
def providers (store : Shared) (extension : String) (plugins : List (String × Dependency)) :
    List (String × Dependency) :=
  plugins.filter fun p => (extensionsOf store p.2).contains extension

theorem isFor_implicitElement (ctx : Context) (plugin extension other : String) :
    isFor extension (implicitElement ctx plugin other) = (other == extension) := by
  have hname : "*" ++ other = "*" ++ extension ↔ other = extension := String.append_right_inj "*"
  rw [Bool.eq_iff_iff]
  simp [isFor, implicitElement, extensionCriteria, hname]

/-- Of the elements for an extension the last one is that of the last plugin for it. -/
theorem implicitElements_last {store : Shared} {plugins : List (String × Dependency)} {extension : String}
    {last : String × Dependency} (h : (providers store extension plugins).getLast? = some last) (ctx : Context) :
    ((implicitElements store ctx plugins).filter (isFor extension)).getLast? =
      some (implicitElement ctx last.1 extension) := by
  have hfor : ∀ p : String × Dependency, ((extensionsOf store p.2).map (implicitElement ctx p.1)).filter (isFor extension) =
      ((extensionsOf store p.2).filter (· == extension)).map (implicitElement ctx p.1) := by
    intro p
    rw [List.filter_map]
    congr 2
    exact funext fun other => isFor_implicitElement ctx p.1 extension other
  have hprovides : ∀ p : String × Dependency, (extensionsOf store p.2).contains extension = true ↔
      ((extensionsOf store p.2).map (implicitElement ctx p.1)).filter (isFor extension) ≠ [] := by
    intro p
    rw [hfor, Ne, List.map_eq_nil_iff, List.filter_eq_nil_iff]
    simp
  rw [implicitElements, List.filter_flatMap, getLast?_flatMap _ fun p _ => hprovides p]
  rw [providers] at h
  rw [h, Option.bind_some, hfor, List.getLast?_map]
  have hne : (extensionsOf store last.2).filter (· == extension) ≠ [] := by
    have hmem := (List.mem_filter.mp (List.mem_of_getLast? h)).2
    rw [hprovides, hfor] at hmem
    exact fun hnil => hmem (by rw [hnil]; rfl)
  have hlast := (List.mem_filter.mp (List.getLast_mem hne)).2
  rw [List.getLast?_eq_some_getLast hne, Option.map_some, beq_iff_eq.mp hlast]

/-! ## In a conversion -/

/-- The processor of an item that is for a file extension. -/
def entryFor? (extension : String) : Value → Option Value
  | .mapping [(.str "files", .list [.str pattern]), (.str "processor", processor)] =>
    if pattern = "**/*" ++ extension then some processor else none
  | _ => none

/-- The processor that a plugin has for a file extension. -/
def processorFor? (store : Shared) (extension : String) (plugin : Dependency) : Option Value :=
  Entries.field? (store.entriesIn (store.member plugin.definition "processors")) extension

/-- An item of plugins is never one for a file extension. -/
theorem entryFor?_plugins {own : Entries} {definitions : Value} (extension : String)
    (h : Entries.field? own "plugins" = some definitions) : entryFor? extension (item own) = none := by
  unfold entryFor? item
  split
  · rename_i heq
    cases heq
    simp [Entries.field?, Entries.get?] at h
  · rfl

theorem entryFor?_ignored {s : Setting} {pattern : Value} {ignored : List Value} (extension : String)
    (h : ignoreItem s pattern = .ok ignored) : ignored.filterMap (entryFor? extension) = [] := by
  unfold ignoreItem at h
  split at h
  · cases h
    rfl
  · obtain ⟨patterns, -, h⟩ := bind_eq_ok.mp h
    cases h
    rfl

/-- The item of a processor is for the extension that it is named by. -/
theorem entryFor?_processorItem? {extension : String} (hdot : Text.startsWith extension "." = true)
    {e : Value × Value} : (processorItem? e).bind (entryFor? extension) =
      if e.1.same (.str extension) then some e.2 else none := by
  obtain ⟨key, processor⟩ := e
  by_cases hkey : key = .str extension
  · subst hkey
    simp [processorItem?, hdot, item, entryFor?]
  · rw [if_neg (by simpa using hkey)]
    unfold processorItem?
    split
    · rename_i name _ heq
      cases heq
      split
      · have hne : "**/*" ++ name ≠ "**/*" ++ extension := fun h => hkey (by rw [(String.append_right_inj "**/*").mp h])
        simp [item, entryFor?, hne]
      · rfl
    · rfl

/-- The values of a mapping under a string, of which the first one counts. -/
def valuesAt (m : Entries) (key : String) : List Value :=
  m.filterMap fun e => if e.1.same (.str key) then some e.2 else none

theorem field?_eq_head? (m : Entries) (key : String) : Entries.field? m key = (valuesAt m key).head? := by
  induction m with
  | nil => rfl
  | cons e rest ih =>
    simp only [Entries.field?, Entries.get?, valuesAt, List.find?_cons, List.filterMap_cons] at ih ⊢
    cases e.1.same (.str key) with
    | true => rfl
    | false => simpa using ih

/-- The extensions of a plugin are read off the names of its processors. -/
theorem extensionsOf_eq {s : Setting} {plugin : Dependency} (h : PluginShaped s plugin.value) :
    extensionsOf s.shared plugin = (Entries.keys (processorsOf s plugin.value)).filterMap fun name =>
      name.str?.filter fun extension => Text.startsWith extension "." := by
  have hprocessors : s.shared.Mappable (s.shared.member plugin.definition "processors") := h.processors
  have hdefinition : s.shared.member plugin.value "definition" = plugin.definition := rfl
  rw [extensionsOf, processorsOf, hdefinition]
  congr 1
  by_cases ht : s.shared.truthy (s.shared.member plugin.definition "processors") = true
  · rw [if_pos ht, Shared.itemsOf, hprocessors.view ht]
    rfl
  · rw [if_neg ht, Shared.entriesIn_of_not_truthy (by simpa using ht)]
    rfl

/-- The extensions of a plugin are those that it has a processor for. -/
theorem provides_iff {s : Setting} {plugin : Dependency} {extension : String}
    (hdot : Text.startsWith extension "." = true) (h : PluginShaped s plugin.value) :
    (extensionsOf s.shared plugin).contains extension = true ↔
      valuesAt (processorsOf s plugin.value) extension ≠ [] := by
  rw [extensionsOf_eq h, List.contains_iff_mem, List.mem_filterMap, valuesAt, Ne, List.filterMap_eq_nil_iff]
  constructor
  · rintro ⟨key, hkey, hext⟩ hnone
    obtain ⟨e, he, rfl⟩ := List.mem_map.mp hkey
    obtain ⟨hstr, -⟩ := Option.filter_eq_some_iff.mp hext
    have hsame : e.1.same (.str extension) = true := by
      rw [Value.same_str]
      cases hk : e.1 <;> rw [hk] at hstr <;> cases hstr
      rfl
    have := hnone e he
    rw [if_pos hsame] at this
    cases this
  · intro hsome
    simp only [not_forall] at hsome
    obtain ⟨e, he, hne⟩ := hsome
    have hsame : e.1.same (.str extension) = true := by
      by_contra hnot
      exact hne (if_neg hnot)
    refine ⟨e.1, List.mem_map_of_mem he, ?_⟩
    rw [(Value.same_str _ _).mp hsame]
    exact Option.filter_eq_some_iff.mpr ⟨rfl, hdot⟩

/-- Of the items for an extension, in the order of plugins, the first one has the
processor of the first plugin for it. -/
theorem processorItems_first {s : Setting} {m : Entries} {plugins : List (String × Dependency)} {extension : String}
    (hdot : Text.startsWith extension "." = true) (hplugins : pluginsOf s m = Node.pluginEntries plugins)
    (hshaped : ∀ p ∈ plugins, PluginShaped s p.2.value) {first : String × Dependency}
    (h : (providers s.shared extension plugins).head? = some first) : ∃ processor,
      processorFor? s.shared extension first.2 = some processor ∧
      ((processorItems s m).filterMap (entryFor? extension)).head? = some processor := by
  have hitems : (processorItems s m).filterMap (entryFor? extension) =
      plugins.flatMap fun p => valuesAt (processorsOf s p.2.value) extension := by
    rw [processorItems, hplugins, Node.pluginEntries, List.flatMap_map, List.filterMap_flatMap]
    refine List.flatMap_congr fun p _ => ?_
    rw [List.filterMap_filterMap]
    exact List.filterMap_congr fun e _ => entryFor?_processorItem? hdot
  obtain ⟨hmem, hprovides⟩ := List.mem_filter.mp (List.mem_of_head? h)
  obtain ⟨processor, rest, hvalues⟩ :=
    List.exists_cons_of_ne_nil ((provides_iff hdot (hshaped first hmem)).mp hprovides)
  refine ⟨processor, ?_, ?_⟩
  · rw [processorFor?, field?_eq_head?]
    exact congrArg List.head? hvalues
  · rw [providers] at h
    rw [hitems, head?_flatMap _ fun p hp => provides_iff hdot (hshaped p hp), h, Option.bind_some, hvalues]
    rfl

/-- An item for a file extension is the last one when no other one is behind it. -/
theorem lastEntry_append {extension : String} {front own back : List Value} {processor : Value}
    (h : (own.filterMap (entryFor? extension)).getLast? = some processor)
    (hback : back.filterMap (entryFor? extension) = []) :
    ((front ++ own ++ back).filterMap (entryFor? extension)).getLast? = some processor := by
  rw [List.filterMap_append, List.filterMap_append, hback, List.append_nil, List.getLast?_append, h]
  rfl

/-- The items for the plugins of a node stand together in a conversion, and the last one
of them for an extension has the processor of the first plugin for it. -/
theorem convert_first {s : Setting} {n : Node} (hn : n.WellFormed s.shared) {plugins : List (String × Dependency)}
    (hp : n.plugins = some plugins) (hne : plugins ≠ []) {extension : String}
    (hdot : Text.startsWith extension "." = true) {first : String × Dependency}
    (hf : (providers s.shared extension plugins).head? = some first) (hall : asksFor s n.entries allRules = false)
    (hrecommended : asksFor s n.entries recommendedRules = false) {items : List Value}
    (hitems : (convert s n.value).result = .ok items) : ∃ processor front own back,
      processorFor? s.shared extension first.2 = some processor ∧ items = front ++ own ++ back ∧
      own = (processorItems s n.entries).reverse ∧
      (own.filterMap (entryFor? extension)).getLast? = some processor ∧
      (pluginFragments s (namedEnvironments s n.entries) (envOf s n.entries) = [] →
        (items.filterMap (entryFor? extension)).getLast? = some processor) := by
  have ht : s.shared.truthy (n.entries.at "plugins") = true := by
    rw [hn.at_plugins, hp]
    cases plugins with
    | nil => exact absurd rfl hne
    | cons q rest => rfl
  obtain ⟨hshaped, front, ignored, back, own, rfl, hignored, hback, definitions, hown⟩ :=
    convert_around rfl ht hall hrecommended hitems
  -- The conversion reads the same plugins in the same order, so that the first of its
  -- items, each of which goes in front of the others, ends up as the last one.
  have hin : pluginsOf s n.entries = Node.pluginEntries plugins := by
    rw [hn.pluginsOf_eq, hp]
    rfl
  have heach : ∀ q ∈ plugins, PluginShaped s q.2.value := fun q hq =>
    hshaped.each (.str q.1, q.2.value) (by
      rw [← pluginsOf, hin]
      exact List.mem_map.mpr ⟨q, hq, rfl⟩)
  obtain ⟨processor, hprocessor, hhead⟩ := processorItems_first hdot hin heach hf
  have hlast : ((processorItems s n.entries).reverse.filterMap (entryFor? extension)).getLast? = some processor := by
    rw [List.filterMap_reverse, List.getLast?_reverse, hhead]
  refine ⟨processor, front, _, _, hprocessor, rfl, rfl, hlast, fun hnone => lastEntry_append hlast ?_⟩
  rw [hback hnone, List.append_nil, List.filterMap_append, entryFor?_ignored extension hignored]
  simp [entryFor?_plugins extension hown]

/-! ## The two of them -/

/-- Of the plugins of a configuration that have a processor for a file extension, the
last one wins in the resolution and the first one in the conversion. -/
structure Winners (store : Shared) (p : Place) (plugins : List (String × Dependency)) (extension : String)
    (first last : String × Dependency) : Prop where
  resolved : (p.processors.filter (isFor extension)).getLast? = some (implicitElement p.ctx last.1 extension)
  /-- The items for all plugins of the node stand together. Behind them there are
  others for the extension only if an environment of a plugin is switched on. -/
  converted : ∀ s : Setting, s.shared = store → asksFor s p.own.node.entries allRules = false →
    asksFor s p.own.node.entries recommendedRules = false → ∀ items,
    (convert s p.own.node.value).result = .ok items → ∃ processor front own back,
      processorFor? store extension first.2 = some processor ∧ items = front ++ own ++ back ∧
      own = (processorItems s p.own.node.entries).reverse ∧
      (own.filterMap (entryFor? extension)).getLast? = some processor ∧
      (pluginFragments s (namedEnvironments s p.own.node.entries) (envOf s p.own.node.entries) = [] →
        (items.filterMap (entryFor? extension)).getLast? = some processor)
  same : first.1 = last.1 ↔ (providers store extension plugins).length = 1

/-- Plugins that are filed once have the same first and last one just when there is one. -/
theorem first_eq_last {plugins : List (String × Dependency)} (hn : (plugins.map Prod.fst).Nodup)
    {first last : String × Dependency} (hf : plugins.head? = some first) (hl : plugins.getLast? = some last) :
    first.1 = last.1 ↔ plugins.length = 1 := by
  obtain ⟨rest, rfl⟩ := List.head?_eq_some_iff.mp hf
  cases rest with
  | nil =>
    cases hl
    simp
  | cons second rest =>
    have hmem : last ∈ second :: rest := by
      rw [List.getLast?_cons_cons] at hl
      exact List.mem_of_getLast? hl
    refine ⟨fun heq => ?_, fun h => by simp at h⟩
    rw [List.map_cons, List.nodup_cons] at hn
    exact absurd (heq ▸ List.mem_map_of_mem hmem) hn.1

/-- The order of plugins in a resolution and in a conversion. -/
theorem Resolution.Place.Below.winners {r : Resolver} {w : World} {start : Extended} {p : Place} (h : p.Below r w start)
    (hstart : start.2.criteria = none) {plugins : List (String × Dependency)}
    (hp : p.own.node.plugins = some plugins) {extension : String} (hdot : Text.startsWith extension "." = true)
    {first last : String × Dependency} (hf : (providers w.shared extension plugins).head? = some first)
    (hl : (providers w.shared extension plugins).getLast? = some last) :
    Winners w.shared p plugins extension first last := by
  obtain ⟨m, -, -, howns⟩ := h.owns
  obtain ⟨hne, hfiled⟩ := howns.plugins plugins hp
  refine ⟨?_, ?_, ?_⟩
  · rw [howns.processors, hp]
    exact implicitElements_last hl p.ctx
  · intro s hs hall hrecommended items hitems
    have hwf := h.wellFormed (by simp [hstart])
    rw [← hs] at hwf hf ⊢
    exact convert_first hwf hp hne hdot hf hall hrecommended hitems
  · refine first_eq_last ?_ hf hl
    exact hfiled.once.sublist (List.filter_sublist.map Prod.fst)

namespace Resolver

/-- At every place of a resolution where plugins have a processor for a file extension,
the last one of them wins in the resolution and the first one in the conversion. -/
theorem resolve_winners {r : Resolver} {config : Value} {name : String} {file : Option Path}
    {start t : Session} {es : List Element} (h : (r.resolve config name file).runFrom start = (.ok es, t)) :
    ∃ path, file.mapM start.world.resolve = .ok path ∧ ∃ places : List Place,
      es = places.flatMap Place.elements ∧ (places.map Place.route).Pairwise Before ∧
      ∀ p ∈ places, p.Below r start.world (config, startContext r name path) ∧
        ∀ plugins ∈ p.own.node.plugins, ∀ extension, Text.startsWith extension "." = true → ∀ first last,
          (providers start.world.shared extension plugins).head? = some first →
          (providers start.world.shared extension plugins).getLast? = some last →
          Winners start.world.shared p plugins extension first last := by
  obtain ⟨path, hpath, places, hes, hsorted, hp⟩ := resolve_laid h
  exact ⟨path, hpath, places, hes, hsorted, fun p hmem => ⟨hp p hmem,
    fun plugins hplugins extension hdot first last hf hl => (hp p hmem).winners rfl hplugins hdot hf hl⟩⟩

/-! Plugins with processors for the same extension, one of which has an environment with
a plugin of its own. -/

def processing (processor : String) (environments : Entries) : Entries := [
  (.str "configs", .mapping []), (.str "rules", .mapping []),
  (.str "environments", .mapping environments),
  (.str "processors", .mapping [(.str ".md", .str processor)])]

def secondPlugin : Entries := processing "second" []

/-- An environment that brings the second plugin along. -/
def bringing : Value := .mapping [(.str "plugins", .mapping [
  (.str "b", .object .dependency [("definition", .mapping secondPlugin)])])]

def firstPlugin : Entries := processing "first" [(.str "x", bringing)]

def processedWorld : World where
  here := ["work"]
  available := [("eslint_plugin_a", [("plugin", .mapping firstPlugin)]),
    ("eslint_plugin_b", [("plugin", .mapping secondPlugin)])]

def listing (names : List String) (members : Entries) : Value :=
  .mapping ((.str "plugins", .list (names.map .str)) :: members)

/-- The name of the processor that the last item for a file extension has. -/
def lastProcessor? (extension : String) (items : List Value) : Option (Option String) :=
  (items.filterMap (entryFor? extension)).getLast?.map Value.str?

/-- A configuration with both plugins has them at its own place, where the second one
wins in the resolution and the first one in the conversion. -/
theorem resolve_winners_processedWorld : ∃ es t e first last,
    (workResolver.resolve (listing ["a", "b"] []) "<input>" none).runFrom (Session.start processedWorld) =
      (.ok es, t) ∧ e ∈ es ∧ e.node.plugins = some [first, last] ∧ first.1 ≠ last.1 ∧
    (∃ items, (convert ⟨Environment.builtin, {}⟩ e.node.value).result = .ok items ∧
      lastProcessor? ".md" items = some (some "first")) ∧
    ∃ p : Place, p.own = e ∧ Winners {} p [first, last] ".md" first last := by
  obtain ⟨es, t, e, first, last, hrun, he, hkind, hplugins, hne, hitems, hf, hl⟩ : ∃ es t e first last,
      (workResolver.resolve (listing ["a", "b"] []) "<input>" none).runFrom (Session.start processedWorld) =
        (.ok es, t) ∧ e ∈ es ∧ e.kind = .config ∧ e.node.plugins = some [first, last] ∧ first.1 ≠ last.1 ∧
      (∃ items, (convert ⟨Environment.builtin, {}⟩ e.node.value).result = .ok items ∧
        lastProcessor? ".md" items = some (some "first")) ∧
      (providers {} ".md" [first, last]).head? = some first ∧
      (providers {} ".md" [first, last]).getLast? = some last :=
    ⟨_, _, _, _, _, rfl, .tail _ (.tail _ (.head _)), rfl, rfl, by decide, exists_ok_of_map (by decide +kernel),
      rfl, rfl⟩
  refine ⟨es, t, e, first, last, hrun, he, hplugins, hne, hitems, ?_⟩
  obtain ⟨path, -, places, rfl, -, hp⟩ := resolve_winners hrun
  obtain ⟨p, hin, hmem⟩ := List.mem_flatMap.mp he
  obtain ⟨hbelow, hwinners⟩ := hp p hin
  obtain rfl := hbelow.own_eq hmem hkind
  exact ⟨p, rfl, hwinners _ hplugins ".md" (by decide) first last hf hl⟩

/-- The processor that an element is for, by its plugin and its name. -/
def processorName? (e : Element) : Option String :=
  (Entries.field? e.node.data "processor").bind Value.str?

/-- The last element and the last item for a file extension are of one plugin. -/
def SameWinner (store : Shared) (plugins : List (String × Dependency)) (extension : String)
    (es : List Element) (items : List Value) : Prop :=
  ∃ p ∈ plugins, ∃ processor, processorFor? store extension p.2 = some processor ∧
    (es.filter (isFor extension)).getLast?.bind processorName? = some (p.1 ++ "/" ++ extension) ∧
    (items.filterMap (entryFor? extension)).getLast? = some processor

/-- A configuration whose plugins have a processor for a file extension, and another one
wins in its conversion than in its resolution. -/
def Disagrees (config : Value) : Prop := ∃ es t e plugins items,
  (workResolver.resolve config "<input>" none).runFrom (Session.start processedWorld) = (.ok es, t) ∧
    e ∈ es ∧ e.kind = .config ∧ e.node.plugins = some plugins ∧ providers {} ".md" plugins ≠ [] ∧
    (convert ⟨Environment.builtin, {}⟩ e.node.value).result = .ok items ∧ ¬ SameWinner {} plugins ".md" es items

theorem disagrees {config : Value} {es : List Element} {t : Session} {e : Element}
    {plugins : List (String × Dependency)} (winner : Option (Option String))
    (hrun : (workResolver.resolve config "<input>" none).runFrom (Session.start processedWorld) = (.ok es, t))
    (he : e ∈ es) (hkind : e.kind = .config) (hplugins : e.node.plugins = some plugins)
    (hproviders : (providers {} ".md" plugins).length ≠ 0)
    (hitems : (convert ⟨Environment.builtin, {}⟩ e.node.value).result.toOption.map (lastProcessor? ".md") = some winner)
    (hother : ∀ p ∈ plugins, (es.filter (isFor ".md")).getLast?.bind processorName? = some (p.1 ++ "/" ++ ".md") →
      (processorFor? {} ".md" p.2).map Value.str? ≠ winner) : Disagrees config := by
  obtain ⟨items, hitems, hlast⟩ := exists_ok_of_map hitems
  refine ⟨es, t, e, plugins, items, hrun, he, hkind, hplugins, by simpa using hproviders, hitems, ?_⟩
  rintro ⟨p, hp, processor, hprocessor, hname, hwins⟩
  refine hother p hp hname ?_
  rw [← hlast, lastProcessor?, hprocessor, hwins]

/-- Another plugin wins where two have a processor for the same extension, where a
whole rule set takes the place of all items, and where an environment brings a plugin
along. -/
theorem resolve_disagrees : Disagrees (listing ["a", "b"] []) ∧
    Disagrees (listing ["a"] [(.str "settings", .mapping [(.str "eslint:all", .bool true)])]) ∧
    Disagrees (listing ["a"] [(.str "env", .mapping [(.str "a/x", .bool true)])]) := by
  refine ⟨disagrees (some (some "first")) rfl (.tail _ (.tail _ (.head _))) rfl rfl (by decide +kernel) ?_ ?_,
    disagrees none rfl (.tail _ (.head _)) rfl rfl (by decide +kernel) ?_ ?_,
    disagrees (some (some "second")) rfl (.tail _ (.head _)) rfl rfl (by decide +kernel) ?_ ?_⟩
  all_goals decide +kernel

end Resolver

end Cascade
