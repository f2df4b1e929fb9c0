import Cascade.Proofs.FileOutcome
import Cascade.Proofs.Resolution.Identity
import Cascade.Proofs.Resolution.Origin

/-! # What a reference leads to

Whatever kind of reference it is, loading it gives a configuration of the world
and a chain with one more identity, which is that of the reference's origin, or
fails in a regular way. -/
namespace Cascade.Resolution

variable {w : World} {texts : List String} {C : List String → Prop}

/-- Where a configuration stands that is resolved by itself or from a file. -/
def startContext (r : Resolver) (name : String) (path : Option Path) : Context where
  name := name
  directory := (path.map Path.parent).getD r.base
  file := path
  chain := (path.map Path.text).toList

/-- The configuration that a reference in a context leads to, and its context. What
is no mapping is found out later. -/
structure Extension (w : World) (texts : List String) (reference : String) (ctx : Context)
    (e : Extended) : Prop where
  config : w.HasConfig e.1 ∨ ∀ m, w.shared.view e.1 ≠ .mapping m
  content : Probe.texts.found e.1 ⊆ texts
  origin : ∃ origin, originOf? w reference ctx.directory = some origin ∧
    origin.identity ∈ identities w texts ∧ origin.identity ∉ ctx.chain ∧
    e.2.chain = ctx.chain ++ [origin.identity]

theorem Extension.chain {reference : String} {ctx : Context} {e : Extended}
    (h : Extension w texts reference ctx e) :
    ∃ identity ∈ identities w texts, identity ∉ ctx.chain ∧ e.2.chain = ctx.chain ++ [identity] := by
  obtain ⟨origin, -, hi, hn, hc⟩ := h.origin
  exact ⟨origin.identity, hi, hn, hc⟩

/-- A reference leaves fewer identities that are not on the chain. -/
theorem Extension.unused_lt {reference : String} {ctx : Context} {e : Extended}
    (h : Extension w texts reference ctx e) :
    unused (identities w texts) e.2.chain < unused (identities w texts) ctx.chain := by
  obtain ⟨identity, hmem, hnew, hchain⟩ := h.chain
  rw [hchain]
  exact unused_append hmem hnew

theorem Extension.nodup {reference : String} {ctx : Context} {e : Extended}
    (h : Extension w texts reference ctx e) (hd : ctx.chain.Nodup) : e.2.chain.Nodup := by
  obtain ⟨identity, -, hnew, hchain⟩ := h.chain
  rw [hchain]
  exact nodup_snoc hd hnew

/-- A reference whose identity is on the chain makes a cycle of a certain kind. -/
def Closes (w : World) (C : List String → Prop) (reference : String) (ctx : Context) : Prop :=
  ∀ origin, originOf? w reference ctx.directory = some origin → origin.identity ∈ ctx.chain →
    C (ctx.chain.dropWhile (· != origin.identity) ++ [origin.identity])

theorem closes_of_nodup {ctx : Context} (hd : ctx.chain.Nodup) (reference : String) :
    Closes w IsCycle reference ctx := fun _ _ hmem => isCycle_of_mem hd hmem

theorem extend_gives {ctx : Context} {identity : String} (hC : identity ∈ ctx.chain →
      C (ctx.chain.dropWhile (· != identity) ++ [identity])) (reference : String)
    (file directory : Option Path) : Gives w C (extend reference identity ctx file directory)
      fun c => identity ∉ ctx.chain ∧ c.chain = ctx.chain ++ [identity] := by
  unfold extend
  split
  · rename_i hc
    refine .throw ⟨by simp, fun chain heq => ?_⟩
    cases heq
    exact hC (by simpa using hc)
  · rename_i hc
    exact .pure ⟨by simpa using hc, rfl⟩

/-- Extending with a configuration of the world. -/
theorem extended_gives {reference : String} {ctx : Context} (hC : Closes w C reference ctx) {config : Value}
    (hc : w.HasConfig config ∨ ∀ m, w.shared.view config ≠ .mapping m) (ht : Probe.texts.found config ⊆ texts)
    {origin : Origin} (ho : originOf? w reference ctx.directory = some origin)
    (hi : origin.identity ∈ identities w texts) (file directory : Option Path) :
    Gives w C (do return (config, ← extend reference origin.identity ctx file directory))
      (Extension w texts reference ctx) :=
  (extend_gives (hC origin ho) reference file directory).bind fun _ h =>
    .pure ⟨hc, ht, origin, ho, hi, h.1, h.2⟩

theorem containedIn_ok {store : Shared} {v : Value} {key : String} {found : Value}
    (h : containedIn store v key = .ok (some found)) :
    ∃ m, store.view v = .mapping m ∧ Entries.field? m key = some found := by
  unfold containedIn at h
  split at h
  · rename_i m hm
    exact ⟨m, hm, Except.ok.inj h⟩
  · split at h <;> cases h
  · split at h <;> cases h
  · split at h <;> cases h
  · cases h

theorem containedIn_error {store : Shared} {v : Value} {key : String} {e : Fault}
    (h : containedIn store v key = .error e) : e = .unsupported := by
  unfold containedIn at h
  split at h
  · cases h
  · split at h <;> cases h
    rfl
  · split at h <;> cases h
    rfl
  · split at h <;> cases h
    rfl
  · cases h
    rfl

section Plugin

variable {reference name config package : String}
  (hcut : Text.cutLast '/' (Text.drop "plugin:".length reference) = some (name, config))
  (hn : Package.normalize Package.pluginKind name = .ok package)
include hcut hn

theorem originOf?_plugin (hrules : ¬ sentinels.contains reference = true)
    (hp : Text.startsWith reference "plugin:" = true) (directory : Path) :
    originOf? w reference directory = some (.plugin package config) := by
  rw [originOf?, if_neg hrules, if_pos hp, hcut, Option.bind_eq_bind, Option.bind_some]
  simp only [hn]
  rfl

theorem pluginIdentity_mem (hr : reference ∈ texts) :
    (Origin.plugin package config).identity ∈ identities w texts := by
  have hidentity : pluginIdentity? reference = some (Origin.plugin package config).identity := by
    rw [pluginIdentity?, hcut]
    simp only [hn]
    rfl
  simp only [identities, List.mem_append, List.mem_filterMap]
  exact .inl (.inl (.inr ⟨reference, hr, hidentity⟩))

end Plugin

theorem pluginConfig_gives (hw : Covers w texts) (r : Resolver) {reference : String}
    (hr : reference ∈ texts) {ctx : Context} (hC : Closes w C reference ctx)
    (hrules : ¬ sentinels.contains reference = true) (hp : Text.startsWith reference "plugin:" = true) :
    Gives w C (pluginConfig r reference ctx) (Extension w texts reference ctx) := by
  unfold pluginConfig
  split
  · rename_i pluginName configName hcut
    split
    · exact .throw ⟨by simp, by simp⟩
    refine (loadPlugin_gives r pluginName ctx).bind fun plugin hplugin => ?_
    obtain ⟨⟨package, hn, hid⟩, module, s, hmodule, himports, hdef⟩ := hplugin
    refine Gives.shared.bind fun store hstore => ?_
    subst hstore
    have heq : "plugin:" ++ plugin.id ++ "/" ++ configName = (Origin.plugin package configName).identity := by
      rw [hid]
      rfl
    rw [heq]
    -- however the configuration is looked for, what is found is in the plugin's definition
    have settle : ∀ found : Option Value, (∀ config ∈ found, ∃ m,
        w.shared.view (w.shared.member plugin.definition "configs") = .mapping m ∧
          Entries.field? m configName = some config) →
        Gives w C (extendPlugin reference ctx (Origin.plugin package configName).identity
          (plugin.file.map Path.parent) found) (Extension w texts reference ctx) := by
      intro found hf
      cases found with
      | none => exact .throw ⟨by simp, by simp⟩
      | some config =>
        obtain ⟨m, hm, hv⟩ := hf config rfl
        rw [hdef] at hm
        exact extended_gives hC (.inl (.plugin himports hmodule hm hv)) (hw.plugin himports hmodule hm hv)
          (originOf?_plugin hcut hn hrules hp _) (pluginIdentity_mem hcut hn hr) _ _
    dsimp only
    split
    · refine (Yields.ofFault (Q := fun found => ∀ config ∈ found, ∃ m,
        w.shared.view (w.shared.member plugin.definition "configs") = .mapping m ∧
          Entries.field? m configName = some config) (fun found hf config hc => ?_)
        fun e he => ?_).bind settle
      · cases hc
        exact containedIn_ok hf
      · cases containedIn_error he
        exact ⟨by simp, by simp⟩
    · exact (Yields.pure (by simp)).bind settle
  · exact .throw ⟨by simp, by simp⟩

/-! ## Modules and files -/

/-- Reading a file never reports a cycle of configurations. -/
theorem load_not_cycle (w : World) (p : Path) (chain : List String) :
    ConfigFile.load w p ≠ .error (.problem (.extendsCycle chain)) := by
  intro h
  rcases ConfigFile.load_failsAs w p _ h with ⟨f, hf⟩ | ⟨problem, hproblem, hmissing | ⟨message, details, hreport⟩⟩
  · cases hf
  · cases hproblem
    cases hmissing
  · cases hproblem
    cases congrArg Report.category hreport

theorem fileConfig_gives (path : Path) : Gives w C (fileConfig path) fun v =>
    ∃ m, ConfigFile.load w path = .ok m ∧ v = .mapping m := by
  unfold fileConfig
  refine Gives.world.bind fun w' hw => ?_
  subst hw
  cases hl : ConfigFile.load w path with
  | ok m => exact .pure ⟨m, rfl, rfl⟩
  | error e =>
    refine .throw ⟨fun _ => ⟨path, hl⟩, ?_⟩
    · rintro chain rfl
      exact absurd hl (load_not_cycle w path chain)

theorem moduleConfig_gives (hw : Covers w texts) {m : Module} (hm : w.HasModule m.value)
    (reference : String) : Gives w C (moduleConfig m reference) fun v =>
      (w.HasConfig v ∨ ∀ m, w.shared.view v ≠ .mapping m) ∧ Probe.texts.found v ⊆ texts := by
  unfold moduleConfig
  refine Yields.get.bind fun s hs => ?_
  have hfound := hw.attributeOf hs.toImports (hw.hasModule hm) "config"
  cases ha : attribute? s m.value "config" with
  | none => exact .throw ⟨by simp, by simp⟩
  | some v =>
    rw [ha, Option.getD_some] at hfound
    have hconfig : w.HasConfig v ∨ ∀ m, w.shared.view v ≠ .mapping m := by
      obtain ⟨name, members, hv, hd⟩ := hm
      rw [attribute?, hv] at ha
      rcases Option.or_eq_some_iff.mp ha with hsub | ⟨-, hl⟩
      · obtain ⟨_, _, rfl, -⟩ := hs.toImports.submodule? hsub
        exact .inr fun _ h => nomatch h
      · exact .inl (.module hd hl)
    cases v with
    | null => exact .throw ⟨by simp, by simp⟩
    | _ => exact .pure ⟨hconfig, hfound⟩

theorem pathConfig_gives (hw : Covers w texts) {reference : String} {ctx : Context}
    (hC : Closes w C reference ctx) (hrules : ¬ sentinels.contains reference = true)
    (hp : ¬ Text.startsWith reference "plugin:" = true) (hreference : isPathReference reference = true) :
    Gives w C (pathConfig reference ctx) (Extension w texts reference ctx) := by
  unfold pathConfig
  refine Gives.world.bind fun w' hw' => ?_
  subst hw'
  refine (resolve_gives _).bind fun path hpath => ?_
  obtain ⟨hresolve, hresolved⟩ := hpath
  have horigin : originOf? w reference ctx.directory = some (.path path.text) := by
    rw [originOf?, if_neg hrules, if_neg hp, if_pos hreference, hresolve]
    rfl
  have settle : ∀ v : Value, (w.HasConfig v ∨ ∀ m, w.shared.view v ≠ .mapping m) →
      Probe.texts.found v ⊆ texts → path.text ∈ identities w texts →
      Gives w C (do return (v, ← extend reference path.text ctx (some path) (some path.parent)))
        (Extension w texts reference ctx) :=
    fun v hv ht hi => extended_gives  hC hv ht horigin hi _ _
  dsimp only
  split
  · refine (Module.loadPath?_gives path).bind fun loaded hl => ?_
    cases loaded with
    | none => exact (missing_gives (Q := fun _ => False) _ _ _ _).bind fun _ h => False.elim h
    | some m =>
      obtain ⟨hm, hfile⟩ := hl m rfl
      exact (moduleConfig_gives hw hm reference).bind fun v hv =>
        settle v hv.1 hv.2 (path_mem_identities hresolved hfile)
  · split
    · rename_i hfile
      refine (fileConfig_gives path).bind fun v hv => ?_
      obtain ⟨m, hl, rfl⟩ := hv
      exact settle _ (.inl (.file hl)) (hw.file hresolved hl) (path_mem_identities hresolved (.inl hfile))
    · exact (missing_gives (Q := fun _ => False) _ _ _ _).bind fun _ h => False.elim h

section Package

variable {reference package : String} (hn : Package.normalize Package.configKind reference = .ok package)
include hn

theorem originOf?_package (hrules : ¬ sentinels.contains reference = true)
    (hp : ¬ Text.startsWith reference "plugin:" = true) (hreference : ¬ isPathReference reference = true)
    (directory : Path) : originOf? w reference directory =
      some (.package package ((packageOrigin w package directory).map (resolvedText w))) := by
  rw [originOf?, if_neg hrules, if_neg hp, if_neg hreference, hn]
  rfl

theorem packageIdentity_mem (hr : reference ∈ texts) : package ∈ identities w texts := by
  have hidentity : packageIdentity? reference = some package := by
    rw [packageIdentity?, hn]
    rfl
  simp only [identities, List.mem_append, List.mem_filterMap]
  exact .inl (.inr ⟨reference, hr, hidentity⟩)

end Package

theorem packageConfig_gives (hw : Covers w texts) {reference : String} (hr : reference ∈ texts)
    {ctx : Context} (hC : Closes w C reference ctx) (hrules : ¬ sentinels.contains reference = true)
    (hp : ¬ Text.startsWith reference "plugin:" = true) (hreference : ¬ isPathReference reference = true) :
    Gives w C (packageConfig reference ctx) (Extension w texts reference ctx) := by
  unfold packageConfig
  refine Gives.world.bind fun w' hw' => ?_
  subst hw'
  refine (Yields.ofFault (Q := fun package => Package.normalize Package.configKind reference = .ok package)
    (fun _ h => h) fun e he => ?_).bind fun package hn => ?_
  · cases Package.normalize_error he
    exact ⟨by simp, by simp⟩
  have settle : ∀ (v : Value) (file directory : Option Path),
      (w.HasConfig v ∨ ∀ m, w.shared.view v ≠ .mapping m) → Probe.texts.found v ⊆ texts →
      Gives w C (do return (v, ← extend reference package ctx file directory))
        (Extension w texts reference ctx) := fun v file directory hv ht =>
    extended_gives hC hv ht (originOf?_package hn hrules hp hreference _) (packageIdentity_mem hn hr) _ _
  -- a file of the package is read; without one its module is loaded
  split
  · refine (resolve_gives _).bind fun path hpath => ?_
    refine (Gives.debug _ _).bind fun _ _ => ?_
    refine (fileConfig_gives path).bind fun v hv => ?_
    obtain ⟨m, hl, rfl⟩ := hv
    exact settle _ _ _ (.inl (.file hl)) (hw.file hpath.2 hl)
  · refine (Module.load?_gives _ _).bind fun loaded hl => ?_
    cases loaded with
    | none => exact missing_gives _ _ _ _
    | some m =>
      exact (moduleConfig_gives hw (hl m rfl) reference).bind fun v hv => settle v _ _ hv.1 hv.2

/-- A reference leads to a configuration of the world, or to no mapping, in a
context whose chain has one more identity. -/
theorem loadExtended_gives (hw : Covers w texts) (r : Resolver) {reference : String}
    (hr : reference ∈ texts) {ctx : Context} (hC : Closes w C reference ctx) :
    Gives w C (loadExtended r reference ctx) (Extension w texts reference ctx) := by
  unfold loadExtended
  refine (Gives.debug _ _).bind fun _ _ => ?_
  split
  · rename_i hs
    have horigin : originOf? w reference ctx.directory = some (.rules reference) := by
      rw [originOf?, if_pos hs]
    refine extended_gives  hC (.inl (.rules reference)) ?_ horigin ?_ _ _
    · simp [Probe.found, Probe.foundInEntries, Probe.texts, Value.str?]
    · simp only [identities, List.mem_append]
      exact .inl (.inl (.inl (List.contains_iff_mem.mp hs)))
  rename_i hrules
  split
  · rename_i hp
    exact pluginConfig_gives hw r hr hC hrules hp
  rename_i hp
  split
  · rename_i hreference
    exact pathConfig_gives hw hC hrules hp hreference
  · rename_i hreference
    exact packageConfig_gives hw hr hC hrules hp hreference

theorem extension_of_load (hw : Covers w texts) {r : Resolver} {reference : String} (hr : reference ∈ texts)
    {ctx : Context} {s : Session} (hs : s.Sourced w) {e : Extended}
    (h : ((loadExtended r reference ctx).runFrom s).1 = .ok e) : Extension w texts reference ctx e := by
  -- what is loaded does not depend on the cycles that may be reported
  have hclose : Closes w (fun _ => True) reference ctx := fun _ _ _ => trivial
  have hext := (loadExtended_gives hw r hr hclose s hs).2
  rwa [h] at hext

end Cascade.Resolution
