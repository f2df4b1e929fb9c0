import Cascade.Proofs.Contents
import Cascade.Proofs.Resolution.Sources

/-! # Identities of extended configurations

A configuration that is extended comes from a file, a module or a plugin of the
world, or stands for a whole set of rules. It adds one identity to the chain,
which was not there before. In a world there are only so many of them, because
each is a set of rules, a file or its directory, or is made from a text. -/
namespace Cascade

/-- The configurations that a world has, wherever they are. -/
inductive World.HasConfig (w : World) : Value → Prop where
  | file {p : Path} {m : Entries} : ConfigFile.load w p = .ok m → HasConfig w (.mapping m)
  | module {members : List (String × Value)} {v : Value} :
      w.Defines members → members.lookup "config" = some v → HasConfig w v
  | plugin {s : Session} {module v : Value} {m : Entries} {name : String} : s.Imports w →
      w.HasModule module →
      w.shared.view (w.shared.member (.mapping (Resolution.pluginDefinition s module)) "configs") =
        .mapping m →
      Entries.field? m name = some v → HasConfig w v
  | rules (name : String) :
      HasConfig w (.mapping [(.str "settings", .mapping [(.str name, .bool true)])])

namespace Resolution

/-! ## Texts of the world -/

/-- A collection of texts that has all those of a world. -/
structure Covers (w : World) (texts : List String) : Prop where
  shared : Probe.texts.foundInMembers w.shared.entries ⊆ texts
  entries : ∀ e ∈ w.entries, entryTexts e ⊆ texts
  available : ∀ m ∈ w.available, Probe.texts.foundInMembers m.2 ⊆ texts

theorem covers_textsAround (w : World) (config : Value) : Covers w (textsAround w config) where
  shared := fun _ h => by simp [textsAround, h]
  entries := fun e he _ h => by
    simp only [textsAround, List.mem_append, List.mem_flatMap]
    exact .inl (.inr ⟨e, he, h⟩)
  available := fun m hm _ h => by
    simp only [textsAround, List.mem_append, List.mem_flatMap]
    exact .inr ⟨m, hm, h⟩

namespace Covers

variable {w : World} {texts : List String}

theorem defines (hc : Covers w texts) {members : List (String × Value)} (h : w.Defines members) :
    Probe.texts.foundInMembers members ⊆ texts := by
  rcases h with rfl | ⟨names, he⟩ | ⟨name, hm⟩
  · exact List.nil_subset _
  · exact List.Subset.trans (List.subset_append_left _ _) (hc.entries _ he)
  · exact hc.available _ hm

theorem hasModule (hc : Covers w texts) {v : Value} (h : w.HasModule v) :
    Probe.texts.found v ⊆ texts := by
  obtain ⟨name, members, rfl, hm⟩ := h
  exact hc.defines hm

theorem attributeOf (hc : Covers w texts) {s : Session} (hs : s.Imports w) {v : Value}
    (h : Probe.texts.found v ⊆ texts) (name : String) :
    Probe.texts.found ((attribute? s v name).getD .null) ⊆ texts := by
  have hv := Probe.found_view hc.shared h
  unfold attribute?
  rw [hs.world]
  split
  · rename_i module members hm
    rw [hm] at hv
    cases hsub : s.submodule? module name with
    | some below => exact hc.hasModule (hs.submodule? hsub)
    | none => exact Probe.found_of_lookup hv name
  · rename_i kind members _ hm
    rw [hm] at hv
    exact Probe.found_of_lookup hv name
  · simp

theorem pluginDefinition (hc : Covers w texts) {s : Session} (hs : s.Imports w) {module : Value}
    (h : w.HasModule module) : Probe.texts.foundInEntries (pluginDefinition s module) ⊆ texts := by
  have hmodule := hc.hasModule h
  have hsource : Probe.texts.found (pluginSource s module) ⊆ texts := by
    unfold pluginSource
    split
    · exact hmodule
    · exact hc.attributeOf hs hmodule "plugin"
  refine Probe.found_merge (Probe.foundInEntries_subset ?_) ?_
  · simp [Probe.texts, Probe.found, Probe.foundInEntries]
  · split
    · rename_i m hm
      have := Probe.found_view hc.shared hsource
      rw [← hs.world, hm] at this
      exact this
    · refine Probe.foundInEntries_subset fun e he => ?_
      obtain ⟨name, -, hn⟩ := List.mem_filterMap.mp he
      obtain ⟨v, hv, rfl⟩ := Option.map_eq_some_iff.mp hn
      have := hc.attributeOf hs hsource name
      rw [hv] at this
      exact ⟨List.nil_subset _, this⟩

theorem file (hc : Covers w texts) {p : Path} (hp : p.IsResolved) {m : Entries}
    (h : ConfigFile.load w p = .ok m) : Probe.texts.foundInEntries m ⊆ texts := by
  unfold ConfigFile.load at h
  split at h
  · rename_i hf
    obtain ⟨e, he, hm⟩ := World.entry_of_isFile hp hf
    have hpath : (⟨"/", p.names⟩ : Path) = p := by rw [← hp.1]
    have hconfig : entryConfig (p.names, e) = .ok m := by
      rw [entryConfig, hpath]
      rw [World.read, World.bytes, he] at h
      simp only [Option.map_some, Option.getD_some] at h
      cases hs : String.fromUTF8? ⟨e.content.toArray⟩ with
      | none => rw [hs] at h; cases h
      | some s => rw [hs] at h; exact h
    have := hc.entries _ hm
    rw [entryTexts, hconfig] at this
    exact List.Subset.trans (List.subset_append_right _ _) this
  · cases h

theorem plugin (hc : Covers w texts) {s : Session} (hs : s.Imports w) {module : Value}
    (h : w.HasModule module) {m : Entries}
    (hm : w.shared.view (w.shared.member (.mapping (Resolution.pluginDefinition s module)) "configs") =
      .mapping m) {name : String} {v : Value} (hv : Entries.field? m name = some v) :
    Probe.texts.found v ⊆ texts := by
  have hd : Probe.texts.found (.mapping (Resolution.pluginDefinition s module)) ⊆ texts :=
    hc.pluginDefinition hs h
  have hconfigs := Probe.found_view hc.shared (Probe.found_member hc.shared hd "configs")
  rw [hm] at hconfigs
  have := Probe.found_of_get? hconfigs (.str name)
  rwa [show Entries.get? m (.str name) = some v from hv] at this

end Covers

/-! ## Identities -/

/-- The identity that a reference to a configuration of a plugin gets. -/
def pluginIdentity? (reference : String) : Option String :=
  match Text.cutLast '/' (Text.drop "plugin:".length reference) with
  | some (name, config) => match Package.normalize Package.pluginKind name with
    | .ok package =>
      some ("plugin:" ++ Package.shorthand Package.pluginKind package ++ "/" ++ config)
    | .error _ => none
  | none => none

def packageIdentity? (reference : String) : Option String :=
  (Package.normalize Package.configKind reference).toOption

/-- All identities that a chain can have in a world with the given texts. -/
def identities (w : World) (texts : List String) : List String :=
  sentinels ++ texts.filterMap pluginIdentity? ++ texts.filterMap packageIdentity? ++
    w.entries.flatMap fun e => [Path.text ⟨"/", e.1⟩, Path.text ⟨"/", e.1.dropLast⟩]

theorem identities_length (w : World) (config : Value) :
    (identities w (textsAround w config)).length < chainBound w config := by
  have hplugin := List.length_filterMap_le pluginIdentity? (textsAround w config)
  have hpackage := List.length_filterMap_le packageIdentity? (textsAround w config)
  have hpath : ∀ l : List (List String × Entry), (l.flatMap fun e =>
      [Path.text ⟨"/", e.1⟩, Path.text ⟨"/", e.1.dropLast⟩]).length = 2 * l.length := by
    intro l
    induction l with
    | nil => rfl
    | cons e rest ih => simp only [List.flatMap_cons, List.length_append, List.length_cons,
        List.length_nil, ih]; omega
  have := hpath w.entries
  simp only [identities, chainBound, List.length_append]
  omega

variable {w : World} {texts : List String}

theorem path_mem_identities {path : Path} (hp : path.IsResolved)
    (h : w.isFile path = true ∨ w.isFile (path.child Module.packageFile) = true) :
    path.text ∈ identities w texts := by
  have hpath : (⟨"/", path.names⟩ : Path) = path := by rw [← hp.1]
  simp only [identities, List.mem_append, List.mem_flatMap]
  right
  rcases h with h | h
  · obtain ⟨e, -, he⟩ := World.entry_of_isFile hp h
    exact ⟨_, he, by simp [hpath]⟩
  · have hchild : path.child Module.packageFile = ⟨path.root, path.names ++ ["__init__.py"]⟩ :=
      Path.child_packageFile path
    rw [hchild] at h
    have hinner : (⟨path.root, path.names ++ ["__init__.py"]⟩ : Path).IsResolved :=
      ⟨hp.1, by simpa using hp.2⟩
    obtain ⟨e, -, he⟩ := World.entry_of_isFile hinner h
    exact ⟨_, he, by simp [hpath]⟩

end Resolution

end Cascade
