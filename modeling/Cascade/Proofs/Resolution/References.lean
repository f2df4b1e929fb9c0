import Cascade.Proofs.ConfigFile
import Cascade.Proofs.Resolution.Checks
import Cascade.Proofs.Resolution.Extends
import Cascade.Proofs.Resolution.OwnElements
import Cascade.Proofs.Resolution.SoundModules
import Cascade.Proofs.Runs

/-! # References that fail without a report

A plugin, a parser or a configuration that cannot be found is reported. In a sound
world a reference fails otherwise in few ways: it names a package whose scope is
lacking, it has a NUL in a path, or it names a parser in a file that is no module. -/
namespace Cascade

/-- A failure that is reported as a problem. -/
def Failure.Reported (e : Failure) : Prop := ∃ p, e = .problem p

/-- A session that has loaded certain plugins, and perhaps others. -/
structure Session.Holds (w : World) (loaded : List (String × Entries × Option Path)) (s : Session) : Prop
    extends s.Placed w where
  held : loaded ⊆ s.plugins

namespace Resolution

/-! ## How references fail -/

/-- How a name of a package fails whose scope is lacking. There is no such failure
where a file has the name that the package's module would have. -/
structure PackageFails (w : World) (kind name : String) (directory : Path) (e : Failure) : Prop where
  fault : ∃ f, Package.nameFault? name = some f ∧ e = .fault f
  absent : ∀ package, Package.normalize kind name = .ok package →
    Module.findFile w (Package.moduleName package) directory = none

/-- How a reference to a configuration in a directory fails without a report. -/
inductive ReferenceFails (r : Resolver) (w : World) (directory : Path) (reference : String) : Failure → Prop where
  | plugin {name config : String} {e : Failure} : Text.startsWith reference "plugin:" = true →
      Text.cutLast '/' (Text.drop "plugin:".length reference) = some (name, config) → config ≠ "" →
      PackageFails w Package.pluginKind name r.pluginBase e → ReferenceFails r w directory reference e
  | path : Text.startsWith reference "plugin:" = false → isPathReference reference = true →
      '\x00' ∈ reference.toList → ReferenceFails r w directory reference (.fault .badValue)
  | package {e : Failure} : Text.startsWith reference "plugin:" = false → isPathReference reference = false →
      (∀ package, Package.normalize Package.configKind reference = .ok package →
        packageFile? w package directory = none) →
      PackageFails w Package.configKind reference directory e → ReferenceFails r w directory reference e

/-- How the name of a parser fails without a report, where it is looked for in a directory. -/
inductive ParserFails (w : World) (directory : Path) (name : String) : Failure → Prop where
  | path : isPathReference name = true → '\x00' ∈ name.toList → ParserFails w directory name (.fault .badValue)
  | file {path : Path} : isPathReference name = true → w.resolve (directory.child name) = .ok path →
      w.isFile path = true → Text.endsWith path.name ".py" = false →
      ParserFails w directory name (.notLoadable path.text)
  | module {f : Fault} : isPathReference name = false → Package.scopeFault? name = some f →
      Module.findFile w (Package.moduleName name) directory = none → ParserFails w directory name (.fault f)

/-! ## Plugins -/

/-- A definition of a plugin whose configurations are a mapping and whose processors
have texts for names, where it has any. -/
structure WellShaped (store : Shared) (definition : Entries) : Prop where
  configs : store.truthy (store.member (.mapping definition) "configs") = true →
    ∃ m, store.view (store.member (.mapping definition) "configs") = .mapping m
  processors : store.truthy (store.member (.mapping definition) "processors") = true →
    ∃ names : List String, store.itemsOf (store.member (.mapping definition) "processors") =
      .ok (names.map .str)

/-- A plugin is among those that have been loaded. -/
def IsLoaded (s : Session) (d : Dependency) : Prop := ∃ p ∈ s.plugins, d.definition = .mapping p.2.1

/-- A failure that is reported, is of the kind that is expected, or comes with a plugin
that is not as it should be. -/
def Amiss (w : World) (E : Failure → Prop) (e : Failure) (t : Session) : Prop :=
  e.Reported ∨ E e ∨ ∃ p ∈ t.plugins, ¬ WellShaped w.shared p.2.1

variable {r : Resolver} {w : World} {ctx : Context} {E : Failure → Prop}

/-- An action that loads no plugin keeps those that have been loaded. -/
theorem runs_of_loading {α : Type} {a : Action α} {E' : Failure → Prop} {Q : α → Prop}
    (h : ∀ plugins, Loading w plugins E' a Q) (he : ∀ e, E' e → e.Reported ∨ E e)
    (loaded : List (String × Entries × Option Path)) :
    Runs (Session.Holds w loaded) a (fun x t => t.Holds w loaded ∧ Q x) (Amiss w E) :=
  (Runs.of_yields h (loaded ⊆ ·)).imp (fun _ hs => ⟨hs.1, hs.2⟩) (fun _ _ ht => ⟨⟨ht.1.1, ht.1.2⟩, ht.2⟩)
    fun e _ hfail => (he e hfail).imp_right .inl

/-- The module of a package's name. -/
theorem packageModule_loading {kind name package : String} (hw : w.Sound) (hkind : ∃ rest, kind.toList = 'e' :: rest)
    (hp : Package.normalize kind name = .ok package) (directory : Path)
    (plugins : List (String × Entries × Option Path)) :
    Loading w plugins (PackageFails w kind name directory)
      (Module.load? (Package.moduleName package) (some directory)) fun loaded =>
        ∀ m ∈ loaded, ∀ f ∈ m.file, f.hasNul = false := by
  obtain ⟨hne, hslash, hfault⟩ := Package.normalize_scopeFault? hkind hp
  refine (Module.load?_loading hw _ directory).weaken fun e he => ?_
  obtain ⟨habsent, f, hf, rfl⟩ := he
  rw [Package.nameFault?_moduleName hne hslash, hfault] at hf
  refine ⟨⟨f, hf, rfl⟩, fun other hother => ?_⟩
  rw [hp] at hother
  cases hother
  exact habsent

theorem packageFails_of_error {kind name : String} {f : Fault} (h : Package.normalize kind name = .error f)
    (directory : Path) : PackageFails w kind name directory (.fault f) := by
  refine ⟨⟨f, Package.normalize_eq_error h, rfl⟩, fun package hp => ?_⟩
  rw [h] at hp
  cases hp

theorem missing_runs {α : Type} {Pre : Session → Prop} {Post : α → Session → Prop} (target : Target) (name : String)
    (ctx : Context) (searched : Path) : Runs Pre (missing target name ctx searched : Action α) Post (Amiss w E) :=
  .throw fun _ _ => .inl ⟨_, rfl⟩

/-- Loading a plugin keeps those that have been loaded and adds it to them. -/
theorem loadPlugin_runs (hw : w.Sound) (r : Resolver) (name : String) (ctx : Context)
    (loaded : List (String × Entries × Option Path)) :
    Runs (Session.Holds w loaded) (loadPlugin r name ctx)
      (fun d t => t.Holds w loaded ∧ IsLoaded t d ∧ ∀ f ∈ d.file, f.hasNul = false)
      (Amiss w (PackageFails w Package.pluginKind name r.pluginBase)) := by
  unfold loadPlugin
  split
  · exact .throw fun _ _ => .inl ⟨_, rfl⟩
  refine (Runs.ofFault fun f hf _ _ => .inr (.inl (packageFails_of_error hf _))).bind fun package => ?_
  refine Runs.assuming fun hpackage => ?_
  refine Runs.get.bind fun s => ?_
  dsimp only
  split
  · rename_i definition file hl
    refine .pure fun t ht => ?_
    obtain ⟨rfl, ht⟩ := ht
    have hmem := mem_of_lookup hl
    exact ⟨ht, ⟨_, hmem, rfl⟩, ht.plugins _ hmem⟩
  · have hload := runs_of_loading (packageModule_loading hw Package.pluginKind_eq hpackage r.pluginBase)
      (fun e he => .inr he) loaded
    refine (hload.require fun _ ht => ht.2).bind fun found => ?_
    refine Runs.assuming fun hfiles => ?_
    cases found with
    | none => exact missing_runs _ _ _ _
    | some m =>
      refine (runs_of_loading (fun _ => Loading.debug _ _) (fun _ he => he) loaded).bind fun _ => ?_
      refine Runs.get.bind fun u => ?_
      refine (Runs.modify (Q := fun t => t.Holds w loaded ∧
        IsLoaded t ⟨Package.shorthand Package.pluginKind package, .mapping (pluginDefinition u m.value), m.file, ctx.name⟩)
        fun t ht => ?_).bind fun _ => .pure fun t ht => ⟨ht.1, ht.2, hfiles m rfl⟩
      obtain ⟨-, ht, -⟩ := ht
      refine ⟨⟨⟨ht.world, ht.imported, fun e he => ?_⟩, fun e he => ?_⟩, ⟨(package, pluginDefinition u m.value, m.file), by simp, rfl⟩⟩
      · rcases List.mem_cons.mp he with rfl | he
        · exact hfiles m rfl
        · exact ht.plugins e he
      · exact List.mem_cons_of_mem _ (ht.held he)

/-- The names in a list of plugins. -/
def pluginNames (store : Shared) (v : Value) : List String :=
  match store.view v with
  | .list items => (Value.strings? items).getD []
  | _ => []

theorem Amiss.mono {E' : Failure → Prop} {e : Failure} {t : Session} (h : Amiss w E e t) (he : E e → E' e) :
    Amiss w E' e t := h.imp_right fun h => h.imp_left he

theorem loadPlugins_runs (hw : w.Sound) (r : Resolver) (v : Value) (ctx : Context)
    (loaded : List (String × Entries × Option Path)) :
    Runs (Session.Holds w loaded) (loadPlugins r v ctx)
      (fun plugins t => t.Holds w loaded ∧ ∀ p ∈ plugins, IsLoaded t p.2)
      (Amiss w fun e => ∃ name ∈ pluginNames w.shared v, PackageFails w Package.pluginKind name r.pluginBase e) := by
  unfold loadPlugins
  refine (runs_of_loading (fun _ => Loading.shared) (fun _ he => he) loaded).bind fun store => ?_
  refine Runs.assuming fun hstore => ?_
  subst hstore
  split
  · rename_i items hitems
    split
    · rename_i names hnames
      have hmem : pluginNames w.shared v = names := by
        rw [pluginNames, hitems]
        simp only [hnames, Option.getD_some]
      let Inv (plugins : List (String × Dependency)) (t : Session) : Prop :=
        t.Holds w loaded ∧ ∀ p ∈ plugins, IsLoaded t p.2
      refine (Runs.foldlM (R := Inv) (fun name hname plugins => ?_) []).require fun _ hs => ⟨hs, by simp⟩
      refine Runs.of_session fun s hs => ?_
      have hheld : ∀ u, u = s → Session.Holds w s.plugins u := by
        rintro _ rfl
        exact ⟨hs.1.toPlaced, fun _ h => h⟩
      refine (((loadPlugin_runs hw r name ctx s.plugins).require hheld).weaken fun e _ he =>
        he.mono fun hfails => ⟨name, hmem ▸ hname, hfails⟩).bind fun d => .pure fun t ht => ?_
      obtain ⟨ht, hd, -⟩ := ht
      -- what was loaded for the names before stays loaded
      have later : ∀ d, IsLoaded s d → IsLoaded t d := by
        intro d hd
        obtain ⟨p, hp, heq⟩ := hd
        exact ⟨p, ht.held hp, heq⟩
      refine ⟨⟨ht.toPlaced, fun _ h => ht.held (hs.1.held h)⟩, fun p hp => ?_⟩
      rcases mem_insertPlugin hp with hp | rfl
      · exact later _ (hs.2 p hp)
      · exact hd
    · exact .throw fun _ _ => .inl ⟨_, rfl⟩
  · exact .throw fun _ _ => .inl ⟨_, rfl⟩

/-! ## Parsers -/

theorem startsWith_slash_of_package {name : String} (h : isPathReference name = false) :
    Text.startsWith name "/" = false := by
  rw [isPathReference, Bool.or_eq_false_iff, List.any_eq_false] at h
  exact Bool.eq_false_iff.mpr (h.1 "/" (by simp))

/-- Whether a path below a directory can be resolved depends on what is added. -/
theorem resolve_loading (hw : w.Sound) {directory : Path} (hd : directory.hasNul = false) (name : String)
    (plugins : List (String × Entries × Option Path)) :
    Loading w plugins (fun e => '\x00' ∈ name.toList ∧ e = .fault .badValue)
      (Action.ofFault (w.resolve (directory.child name))) fun path =>
        w.resolve (directory.child name) = .ok path ∧ path.hasNul = false := by
  refine Yields.ofFault (fun path hpath => ⟨hpath, Path.hasNul_of_resolve hpath⟩) fun f hf => ?_
  refine ⟨?_, by rw [Path.resolve_error hf]⟩
  by_contra hnul
  obtain ⟨q, hq⟩ := hw.exists_resolve (Path.hasNul_child hd hnul)
  rw [hq] at hf
  cases hf

theorem missing_loading {α : Type} {Q : α → Prop} {plugins : List (String × Entries × Option Path)}
    (target : Target) (name : String) (ctx : Context) (searched : Path) :
    Loading w plugins (fun e => e.Reported ∨ E e) (missing target name ctx searched : Action α) Q :=
  .throw (.inl ⟨_, rfl⟩)

theorem loadParser_loading (hw : w.Sound) {parser : Value} (hp : w.shared.truthy parser = true)
    {ctx : Context} (hd : ctx.directory.hasNul = false) (plugins : List (String × Entries × Option Path)) :
    Loading w plugins (fun e => e.Reported ∨ ∃ name, parser = .str name ∧ ParserFails w ctx.directory name e)
      (loadParser parser ctx) fun _ => True := by
  unfold loadParser
  split
  · rename_i name
    have hname : name ≠ "" := by
      rintro rfl
      simp [Shared.truthy, Shared.view, Value.truthy] at hp
    dsimp only
    split
    · rename_i hpath
      refine Loading.world.bind fun _ hworld => ?_
      subst hworld
      refine ((resolve_loading hw hd name plugins).weaken fun e he => ?_).bind fun path hresolved => ?_
      · obtain ⟨hnul, rfl⟩ := he
        exact .inr ⟨name, rfl, .path hpath hnul⟩
      refine ((Module.loadPath?_loading hw hresolved.2).weaken fun e he => ?_).bind fun loaded _ => ?_
      · obtain ⟨hfile, hpy, rfl⟩ := he
        exact .inr ⟨name, rfl, .file hpath hresolved.1 hfile hpy⟩
      cases loaded with
      | none => exact missing_loading _ _ _ _
      | some m => exact (Loading.debug _ _).bind fun _ _ => .pure trivial
    · rename_i hpackage
      have hpackage : isPathReference name = false := Bool.eq_false_iff.mpr hpackage
      refine ((Module.load?_loading hw _ _).weaken fun e he => ?_).bind fun loaded _ => ?_
      · obtain ⟨habsent, f, hf, rfl⟩ := he
        rw [Package.nameFault?_moduleName hname (startsWith_slash_of_package hpackage)] at hf
        exact .inr ⟨name, rfl, .module hpackage hf habsent⟩
      cases loaded with
      | none => exact missing_loading _ _ _ _
      | some m => exact (Loading.debug _ _).bind fun _ _ => .pure trivial
  · exact .throw (.inl ⟨_, rfl⟩)

/-! ## Extended configurations -/

theorem extend_loading (reference identity : String) {ctx : Context} (hd : ctx.directory.hasNul = false)
    (file : Option Path) {directory : Option Path} (hdir : ∀ d ∈ directory, d.hasNul = false)
    (plugins : List (String × Entries × Option Path)) :
    Loading w plugins Failure.Reported (extend reference identity ctx file directory)
      fun next => next.directory.hasNul = false := by
  unfold extend
  split
  · exact .throw ⟨_, rfl⟩
  · refine .pure ?_
    cases directory with
    | none => exact hd
    | some d => exact hdir d rfl

/-- Extending with a configuration, wherever it comes from. -/
theorem extended_loading (reference identity : String) {ctx : Context} (hd : ctx.directory.hasNul = false)
    (file : Option Path) {directory : Option Path} (hdir : ∀ d ∈ directory, d.hasNul = false) (config : Value)
    (plugins : List (String × Entries × Option Path)) :
    Loading w plugins (fun e => e.Reported ∨ E e)
      (do return (config, ← extend reference identity ctx file directory))
      fun next : Extended => next.2.directory.hasNul = false :=
  ((extend_loading reference identity hd file hdir plugins).weaken fun _ he => .inl he).bind fun _ h => .pure h

theorem moduleConfig_loading (m : Module) (reference : String) (plugins : List (String × Entries × Option Path)) :
    Loading w plugins (fun e => e.Reported ∨ E e) (moduleConfig m reference) fun _ => True := by
  unfold moduleConfig
  refine Yields.get.bind fun s _ => ?_
  split
  · exact .throw (.inl ⟨_, rfl⟩)
  · exact .pure trivial

theorem fileConfig_loading (hw : w.Sound) (path : Path) (plugins : List (String × Entries × Option Path)) :
    Loading w plugins (fun e => e.Reported ∨ E e) (fileConfig path) fun _ => True := by
  unfold fileConfig
  refine Loading.world.bind fun _ hworld => ?_
  subst hworld
  cases hl : ConfigFile.load w path with
  | ok m => exact .pure trivial
  | error e =>
    refine .throw ?_
    rcases ConfigFile.load_failsAs w path e hl with ⟨f, rfl⟩ | ⟨p, rfl, -⟩
    · exact absurd hl (hw.readable path f)
    · exact .inl ⟨p, rfl⟩

theorem hasNul_parents {file : Option Path} (h : ∀ f ∈ file, f.hasNul = false) :
    ∀ d ∈ file.map Path.parent, d.hasNul = false := by
  intro d hd
  obtain ⟨f, hf, rfl⟩ := Option.map_eq_some_iff.mp hd
  exact Path.hasNul_parent (h f hf)

theorem pathConfig_loading (hw : w.Sound) (r : Resolver) {reference : String}
    (hplugin : Text.startsWith reference "plugin:" = false) (hpath : isPathReference reference = true) {ctx : Context}
    (hd : ctx.directory.hasNul = false) (plugins : List (String × Entries × Option Path)) :
    Loading w plugins (fun e => e.Reported ∨ ReferenceFails r w ctx.directory reference e)
      (pathConfig reference ctx) fun next => next.2.directory.hasNul = false := by
  unfold pathConfig
  refine Loading.world.bind fun _ hworld => ?_
  subst hworld
  refine ((resolve_loading hw hd reference plugins).weaken fun e he => ?_).bind fun path hresolved => ?_
  · obtain ⟨hnul, rfl⟩ := he
    exact .inr (.path hplugin hpath hnul)
  have hparent : ∀ d ∈ some path.parent, d.hasNul = false := by
    intro d h
    cases h
    exact Path.hasNul_parent hresolved.2
  have finish : ∀ v : Value, Loading w plugins (fun e => e.Reported ∨ ReferenceFails r w ctx.directory reference e)
      (do return (v, ← extend reference path.text ctx (some path) (some path.parent)))
      fun next : Extended => next.2.directory.hasNul = false :=
    fun v => extended_loading _ _ hd _ hparent v plugins
  dsimp only
  split
  · rename_i hpy
    refine ((Module.loadPath?_loading hw hresolved.2).weaken fun e he => ?_).bind fun loaded _ => ?_
    · rw [Path.endsWith_of_suffix (beq_iff_eq.mp hpy)] at he
      cases he.2.1
    cases loaded with
    | none => exact (missing_loading (Q := fun _ => False) _ _ _ _).bind fun _ h => h.elim
    | some m => exact (moduleConfig_loading m reference plugins).bind fun v _ => finish v
  · split
    · exact (fileConfig_loading hw path plugins).bind fun v _ => finish v
    · exact (missing_loading (Q := fun _ => False) _ _ _ _).bind fun _ h => h.elim

theorem packageConfig_loading (hw : w.Sound) (r : Resolver) {reference : String}
    (hplugin : Text.startsWith reference "plugin:" = false) (hpath : isPathReference reference = false) {ctx : Context}
    (hd : ctx.directory.hasNul = false) (plugins : List (String × Entries × Option Path)) :
    Loading w plugins (fun e => e.Reported ∨ ReferenceFails r w ctx.directory reference e)
      (packageConfig reference ctx) fun next => next.2.directory.hasNul = false := by
  unfold packageConfig
  refine Loading.world.bind fun _ hworld => ?_
  subst hworld
  have hunnamed : ∀ f, Package.normalize Package.configKind reference = .error f →
      ReferenceFails r w ctx.directory reference (.fault f) := by
    intro f hf
    refine .package hplugin hpath (fun package hn => ?_) (packageFails_of_error hf _)
    rw [hf] at hn
    cases hn
  refine (Yields.ofFault (Q := fun package => Package.normalize Package.configKind reference = .ok package)
    (fun _ h => h) fun f hf => .inr (hunnamed f hf)).bind fun package hn => ?_
  split
  -- a file of the package, for which no module is loaded
  · rename_i path hfile
    have hnul : path.hasNul = false := hw.hasNul_of_isFile (List.find?_some hfile)
    obtain ⟨q, hq⟩ := hw.exists_resolve hnul
    rw [hq]
    refine (Yields.ofFault (Q := (q = ·)) (fun _ h => Except.ok.inj h) fun _ h => nomatch h).bind fun path hp => ?_
    subst hp
    refine (Loading.debug _ _).bind fun _ _ => ?_
    have hparent : ∀ d ∈ some q.parent, d.hasNul = false := by
      intro d h
      cases h
      exact Path.hasNul_parent (Path.hasNul_of_resolve hq)
    exact (fileConfig_loading hw _ plugins).bind fun v _ => extended_loading _ _ hd _ hparent v plugins
  · rename_i hnone
    have habsent : ∀ other, Package.normalize Package.configKind reference = .ok other →
        packageFile? w other ctx.directory = none := by
      intro other hother
      rw [hn] at hother
      cases hother
      exact hnone
    refine ((packageModule_loading hw Package.configKind_eq hn ctx.directory plugins).weaken fun e he =>
      .inr (.package hplugin hpath habsent he)).bind fun loaded hfiles => ?_
    cases loaded with
    | none => exact missing_loading _ _ _ _
    | some m =>
      refine (moduleConfig_loading m reference plugins).bind fun v _ => ?_
      exact extended_loading _ _ hd _ (hasNul_parents (hfiles m rfl)) v plugins

theorem extendPlugin_runs (reference identity : String) {ctx : Context} (hd : ctx.directory.hasNul = false)
    {directory : Option Path} (hdir : ∀ d ∈ directory, d.hasNul = false) (found : Option Value)
    (loaded : List (String × Entries × Option Path)) :
    Runs (Session.Holds w loaded) (extendPlugin reference ctx identity directory found)
      (fun next t => t.Holds w loaded ∧ next.2.directory.hasNul = false) (Amiss w E) := by
  cases found with
  | none => exact .throw fun _ _ => .inl ⟨_, rfl⟩
  | some config =>
    exact runs_of_loading (extended_loading reference identity hd none hdir config) (fun _ he => he) loaded

/-- A configuration of a plugin is found or reported as missing, if the plugin is as it
should be. -/
theorem pluginConfig_runs (hw : w.Sound) (r : Resolver) {reference : String}
    (hplugin : Text.startsWith reference "plugin:" = true) {ctx : Context} (hd : ctx.directory.hasNul = false)
    (loaded : List (String × Entries × Option Path)) :
    Runs (Session.Holds w loaded) (pluginConfig r reference ctx)
      (fun next t => t.Holds w loaded ∧ next.2.directory.hasNul = false)
      (Amiss w (ReferenceFails r w ctx.directory reference)) := by
  unfold pluginConfig
  split
  · rename_i name config hcut
    split
    · exact .throw fun _ _ => .inl ⟨_, rfl⟩
    rename_i hparts
    have hconfig : config ≠ "" := by
      rintro rfl
      simp at hparts
    refine ((loadPlugin_runs hw r name ctx loaded).weaken fun e _ he =>
      he.mono fun he => .plugin hplugin hcut hconfig he).bind fun plugin => ?_
    refine Runs.shared.bind fun store => Runs.of_session fun s hs => ?_
    obtain ⟨rfl, hs, ⟨p, hp, hdefinition⟩, hfile⟩ := hs
    have finish : ∀ found : Option Value, Runs (· = s)
        (extendPlugin reference ctx ("plugin:" ++ plugin.id ++ "/" ++ config) (plugin.file.map Path.parent) found)
        (fun next t => t.Holds w loaded ∧ next.2.directory.hasNul = false)
        (Amiss w (ReferenceFails r w ctx.directory reference)) := fun found =>
      (extendPlugin_runs reference _ hd (hasNul_parents hfile) found loaded).require fun _ hu => hu ▸ hs
    dsimp only
    split
    · rename_i htruthy
      refine (Runs.ofFault fun f hf u hu => ?_).bind fun found => (finish found).require fun _ hu => hu.1
      -- a plugin that is as it should be has a mapping here
      subst hu
      refine .inr (.inr ⟨p, hp, fun hshape => ?_⟩)
      rw [hdefinition, hs.world] at htruthy hf
      obtain ⟨m, hm⟩ := hshape.configs htruthy
      rw [containedIn, hm] at hf
      cases hf
    · exact (Runs.pure (Q := fun _ t => t = s) fun _ hu => hu).bind finish
  · exact .throw fun _ _ => .inl ⟨_, rfl⟩

/-- What a reference leads to is loaded or reported as missing, but for certain references. -/
theorem loadExtended_runs (hw : w.Sound) (r : Resolver) (reference : String) {ctx : Context}
    (hd : ctx.directory.hasNul = false) (loaded : List (String × Entries × Option Path)) :
    Runs (Session.Holds w loaded) (loadExtended r reference ctx)
      (fun next t => t.Holds w loaded ∧ next.2.directory.hasNul = false)
      (Amiss w (ReferenceFails r w ctx.directory reference)) := by
  unfold loadExtended
  refine (runs_of_loading (fun _ => Loading.debug _ _) (fun _ he => he) loaded).bind fun _ => ?_
  refine Runs.assuming fun _ => ?_
  split
  · exact runs_of_loading (extended_loading _ _ hd _ (by simp) _) (fun _ he => he) loaded
  split
  · rename_i hplugin
    exact pluginConfig_runs hw r hplugin hd loaded
  rename_i hplugin
  have hplugin : Text.startsWith reference "plugin:" = false := Bool.eq_false_iff.mpr hplugin
  split
  · rename_i hpath
    exact runs_of_loading (pathConfig_loading hw r hplugin hpath hd) (fun _ he => he) loaded
  · rename_i hpath
    exact runs_of_loading (packageConfig_loading hw r hplugin (Bool.eq_false_iff.mpr hpath) hd)
      (fun _ he => he) loaded

end Resolution

end Cascade
