import Mathlib.Data.Finset.Card
import Cascade.Proofs.Shorthand
import Cascade.Proofs.Resolution.Origin
import Cascade.Proofs.Resolution.OwnElements

/-! # Entries of plugins

The plugins of a list are filed under the shorthands of their packages. So there is one
entry for each package, unless two packages of the list clash: these have one entry, and
the one that is listed first is lost. The configurations of plugins are told apart in the
same way. -/
namespace Cascade.Resolution

open Package (Clash pluginKind)

/-- The packages of listed plugins. -/
def packagesOf (names : List String) : List String :=
  names.filterMap fun name => (Package.normalize pluginKind name).toOption

/-- A plugin of a name has the shorthand of its package. -/
def LoadedAs (name : String) (d : Dependency) : Prop :=
  ∃ package, Package.normalize pluginKind name = .ok package ∧ d.id = Package.shorthand pluginKind package

/-- The entry that a listed plugin ends up in. -/
def EntryOf (plugins : List (String × Dependency)) (name : String) (p : String × Dependency) : Prop :=
  p ∈ plugins ∧ ∃ package, Package.normalize pluginKind name = .ok package ∧
    p.1 = Package.shorthand pluginKind package

/-! ## Loading a list -/

theorem loadPlugin_loadedAs (r : Resolver) (name : String) (ctx : Context) :
    Always (loadPlugin r name ctx) (LoadedAs name) := by
  unfold loadPlugin
  split
  · exact .throw trivial
  refine (Yields.ofFault (Q := fun package => Package.normalize pluginKind name = .ok package)
    (fun _ h => h) fun _ _ => trivial).bind fun package hpackage => ?_
  refine Yields.get.bind fun s _ => ?_
  split
  · exact .pure ⟨package, hpackage, rfl⟩
  refine Always.next fun found => ?_
  split
  · exact .throw trivial
  refine Always.next fun _ => Yields.get.bind fun _ _ => Always.next fun _ => ?_
  exact .pure ⟨package, hpackage, rfl⟩

/-- The plugins of a list are loaded in turn, and filed in that order. -/
theorem fileAll_loadedAs (r : Resolver) (ctx : Context) (names : List String) (plugins : List (String × Dependency)) :
    Always (names.foldlM (fun plugins name => do return insertPlugin plugins (← loadPlugin r name ctx)) plugins)
      fun filed => ∃ loaded, List.Forall₂ LoadedAs names loaded ∧ filed = loaded.foldl insertPlugin plugins := by
  induction names generalizing plugins with
  | nil => exact .pure ⟨[], .nil, rfl⟩
  | cons name rest ih =>
    rw [List.foldlM_cons]
    refine Yields.bind (Q := fun filed => ∃ d, LoadedAs name d ∧ filed = insertPlugin plugins d) ?_ ?_
    · exact (loadPlugin_loadedAs r name ctx).bind fun d hd => .pure ⟨d, hd, rfl⟩
    · rintro filed ⟨d, hd, rfl⟩
      refine (ih _).mono ?_
      rintro filed ⟨loaded, hloaded, rfl⟩
      exact ⟨d :: loaded, .cons hd hloaded, rfl⟩

theorem loadPlugins_loadedAs {r : Resolver} {ctx : Context} {names : List String} {v : Value} {s : Session}
    {plugins : List (String × Dependency)} (hv : s.world.shared.view v = .list (names.map Value.str))
    (h : ((loadPlugins r v ctx).runFrom s).1 = .ok plugins) :
    ∃ loaded, List.Forall₂ LoadedAs names loaded ∧ plugins = loaded.foldl insertPlugin [] := by
  have hitems : Value.strings? (names.map Value.str) = some names := Value.strings?_map_str names
  have hrun : (loadPlugins r v ctx).runFrom s = (names.foldlM
      (fun plugins name => do return insertPlugin plugins (← loadPlugin r name ctx)) []).runFrom s := by
    simp only [loadPlugins, Action.runFrom_bind, Action.runFrom_shared, hv, hitems]
  have hloaded := (fileAll_loadedAs r ctx names [] s trivial).2
  rw [← hrun, h] at hloaded
  exact hloaded

/-! ## Entries -/

theorem filed_nil : Filed [] := ⟨by simp, List.nodup_nil⟩

theorem filed_foldl {plugins : List (String × Dependency)} (h : Filed plugins) (loaded : List Dependency) :
    Filed (loaded.foldl insertPlugin plugins) := by
  induction loaded generalizing plugins with
  | nil => exact h
  | cons d rest ih => exact ih (h.insertPlugin d)

theorem mem_foldl_names (id : String) (plugins : List (String × Dependency)) (loaded : List Dependency) :
    id ∈ (loaded.foldl insertPlugin plugins).map Prod.fst ↔ id ∈ plugins.map Prod.fst ∨ ∃ d ∈ loaded, d.id = id := by
  induction loaded generalizing plugins with
  | nil => simp
  | cons d rest ih =>
    rw [List.foldl_cons, ih, insertPlugin_names]
    by_cases hd : d.id = id
    · subst hd
      by_cases hmem : d.id ∈ plugins.map Prod.fst <;> simp [hmem]
    · by_cases hmem : d.id ∈ plugins.map Prod.fst <;> simp [hmem, hd, Ne.symm hd]

/-- The entries of listed plugins are the shorthands of their packages. -/
theorem mem_names_iff {names : List String} {loaded : List Dependency} (h : List.Forall₂ LoadedAs names loaded)
    (id : String) : id ∈ (loaded.foldl insertPlugin []).map Prod.fst ↔
      ∃ package ∈ packagesOf names, Package.shorthand pluginKind package = id := by
  rw [mem_foldl_names]
  simp only [List.map_nil, List.not_mem_nil, false_or]
  induction h with
  | nil => simp [packagesOf]
  | @cons name d rest loaded hd _ ih =>
    obtain ⟨package, hpackage, hid⟩ := hd
    have hpackages : packagesOf (name :: rest) = package :: packagesOf rest := by
      simp [packagesOf, hpackage, Except.toOption]
    rw [hpackages]
    simp only [List.exists_mem_cons_iff, ih, hid]

/-- Packages that cannot be told from their shorthands. -/
def SameShorthand (a b : String) : Prop := a = b ∨ Clash pluginKind a b ∨ Clash pluginKind b a

theorem isKind_plugin : Package.IsKind pluginKind := Package.isKind_of_mem (by decide)

theorem shorthand_eq_iff_of_normalize {name name' a b : String} (ha : Package.normalize pluginKind name = .ok a)
    (hb : Package.normalize pluginKind name' = .ok b) :
    Package.shorthand pluginKind a = Package.shorthand pluginKind b ↔ SameShorthand a b :=
  Package.shorthand_eq_iff isKind_plugin (Package.normalize_isFull isKind_plugin ha).1
    (Package.normalize_isFull isKind_plugin hb).1

theorem exists_name_of_mem {names : List String} {package : String} (h : package ∈ packagesOf names) :
    ∃ name ∈ names, Package.normalize pluginKind name = .ok package := by
  obtain ⟨name, hname, hpackage⟩ := List.mem_filterMap.mp h
  cases hn : Package.normalize pluginKind name with
  | error e => rw [hn] at hpackage; cases hpackage
  | ok found =>
    rw [hn] at hpackage
    cases hpackage
    exact ⟨name, hname, hn⟩

theorem mem_packagesOf {names : List String} {name package : String} (hn : name ∈ names)
    (h : Package.normalize pluginKind name = .ok package) : package ∈ packagesOf names :=
  List.mem_filterMap.mpr ⟨name, hn, by rw [h]; rfl⟩

theorem exists_package {names : List String} {loaded : List Dependency} (h : List.Forall₂ LoadedAs names loaded)
    {name : String} (hn : name ∈ names) : ∃ package, Package.normalize pluginKind name = .ok package := by
  have hboth := (List.forall₂_and_left _ _).mp (h.imp fun name d hd => And.intro (Exists.imp (fun _ hp => hp.1) hd) hd)
  exact hboth.1 name hn

/-- The plugins of a list have one entry for each shorthand. -/
theorem length_entries {names : List String} {loaded : List Dependency} (h : List.Forall₂ LoadedAs names loaded) :
    (loaded.foldl insertPlugin []).length =
      ((packagesOf names).toFinset.image (Package.shorthand pluginKind)).card := by
  have hset : ((loaded.foldl insertPlugin []).map Prod.fst).toFinset =
      (packagesOf names).toFinset.image (Package.shorthand pluginKind) := by
    ext id
    rw [List.mem_toFinset, mem_names_iff h, Finset.mem_image]
    simp only [List.mem_toFinset]
  rw [← hset, List.toFinset_card_of_nodup (filed_foldl filed_nil loaded).once, List.length_map]

/-- Listed packages have different shorthands just when no two of them clash. -/
theorem shorthand_injOn_iff (names : List String) :
    Set.InjOn (Package.shorthand pluginKind) (packagesOf names).toFinset ↔
      ∀ a ∈ packagesOf names, ∀ b ∈ packagesOf names, ¬ Clash pluginKind a b := by
  constructor
  · intro hinj a ha b hb hclash
    refine hclash.ne isKind_plugin (hinj ?_ ?_ (hclash.shorthand_eq isKind_plugin)) <;> simpa
  · intro hnone a ha b hb heq
    have ha : a ∈ packagesOf names := by simpa using ha
    have hb : b ∈ packagesOf names := by simpa using hb
    obtain ⟨_, -, hna⟩ := exists_name_of_mem ha
    obtain ⟨_, -, hnb⟩ := exists_name_of_mem hb
    rcases (shorthand_eq_iff_of_normalize hna hnb).mp heq with heq | hclash | hclash
    · exact heq
    · exact absurd hclash (hnone a ha b hb)
    · exact absurd hclash (hnone b hb a ha)

/-- What becomes of listed plugins. -/
structure Registered (names : List String) (plugins : List (String × Dependency)) : Prop where
  /-- Every listed plugin has a package and one entry. -/
  entry : ∀ name ∈ names, (∃ package, Package.normalize pluginKind name = .ok package) ∧
    ∃ p, EntryOf plugins name p ∧ ∀ p', EntryOf plugins name p' → p' = p
  /-- There are no other entries. -/
  listed : ∀ p ∈ plugins, ∃ name ∈ names, EntryOf plugins name p
  /-- Two plugins have one entry just when they have one package, or packages that clash. -/
  same : ∀ name ∈ names, ∀ name' ∈ names, ∀ package package',
    Package.normalize pluginKind name = .ok package → Package.normalize pluginKind name' = .ok package' →
    ((∃ p, EntryOf plugins name p ∧ EntryOf plugins name' p) ↔ SameShorthand package package')
  /-- There are at most as many entries as packages, and fewer only where packages clash. -/
  length_le : plugins.length ≤ (packagesOf names).toFinset.card
  length_eq : plugins.length = (packagesOf names).toFinset.card ↔
    ∀ a ∈ packagesOf names, ∀ b ∈ packagesOf names, ¬ Clash pluginKind a b

theorem registered {names : List String} {loaded : List Dependency} (h : List.Forall₂ LoadedAs names loaded) :
    Registered names (loaded.foldl insertPlugin []) := by
  have hlength := length_entries h
  have hfiled := filed_foldl filed_nil loaded
  have hnames := mem_names_iff h
  generalize loaded.foldl insertPlugin [] = plugins at hlength hfiled hnames
  have hentry : ∀ name ∈ names, ∀ package, Package.normalize pluginKind name = .ok package →
      ∃ d, (Package.shorthand pluginKind package, d) ∈ plugins := by
    intro name hn package hp
    obtain ⟨p, hp, hid⟩ := List.mem_map.mp ((hnames _).mpr ⟨package, mem_packagesOf hn hp, rfl⟩)
    exact ⟨p.2, hid ▸ hp⟩
  constructor
  case entry =>
    intro name hn
    obtain ⟨package, hp⟩ := exists_package h hn
    obtain ⟨d, hd⟩ := hentry name hn package hp
    refine ⟨⟨package, hp⟩, _, ⟨hd, package, hp, rfl⟩, ?_⟩
    -- no two entries have one shorthand
    rintro p' ⟨hmem, package', hpackage', hid⟩
    cases hp.symm.trans hpackage'
    exact List.inj_on_of_nodup_map hfiled.once hmem hd hid
  case listed =>
    intro p hp
    obtain ⟨package, hmem, hid⟩ := (hnames p.1).mp (List.mem_map.mpr ⟨p, hp, rfl⟩)
    obtain ⟨name, hn, hpackage⟩ := exists_name_of_mem hmem
    exact ⟨name, hn, hp, package, hpackage, hid.symm⟩
  case same =>
    intro name hn name' _ package package' hp hp'
    rw [← shorthand_eq_iff_of_normalize hp hp']
    constructor
    · rintro ⟨p, ⟨-, found, hfound, hid⟩, -, found', hfound', hid'⟩
      cases hp.symm.trans hfound
      cases hp'.symm.trans hfound'
      exact hid.symm.trans hid'
    · intro heq
      obtain ⟨d, hd⟩ := hentry name hn package hp
      exact ⟨_, ⟨hd, package, hp, rfl⟩, hd, package', hp', heq⟩
  case length_le =>
    rw [hlength]
    exact Finset.card_image_le
  case length_eq =>
    rw [hlength, Finset.card_image_iff, shorthand_injOn_iff]

/-! ## Configurations of plugins -/

/-- What a reference to a configuration of a plugin names: a package, and a configuration in it. -/
def NamesPlugin (reference package config : String) : Prop :=
  ∃ name, Text.cutLast '/' (Text.drop "plugin:".length reference) = some (name, config) ∧
    Package.normalize pluginKind name = .ok package

theorem NamesPlugin.slash {reference package config : String} (h : NamesPlugin reference package config) :
    '/' ∉ config.toList := by
  obtain ⟨name, hcut, -⟩ := h
  exact not_mem_of_cutLast hcut

theorem extend_chain (reference identity : String) (ctx : Context) (file directory : Option Path) :
    Always (extend reference identity ctx file directory) fun next => next.chain = ctx.chain ++ [identity] := by
  unfold extend
  split
  · exact .throw trivial
  · exact .pure rfl

theorem extendPlugin_chain (reference identity : String) (ctx : Context) (directory : Option Path)
    (found : Option Value) :
    Always (extendPlugin reference ctx identity directory found) fun e => e.2.chain = ctx.chain ++ [identity] := by
  cases found with
  | none => exact .throw trivial
  | some v => exact (extend_chain reference identity ctx none directory).bind fun next hnext => .pure hnext

/-- A configuration of a plugin is entered under the identity of what its reference names. -/
theorem pluginConfig_identity (r : Resolver) (reference : String) (ctx : Context) :
    Always (pluginConfig r reference ctx) fun e => ∃ package config, NamesPlugin reference package config ∧
      e.2.chain = ctx.chain ++ [(Origin.plugin package config).identity] := by
  unfold pluginConfig
  split
  · rename_i name config hcut
    split
    · exact .throw trivial
    refine (loadPlugin_loadedAs r name ctx).bind fun plugin hplugin => ?_
    obtain ⟨package, hpackage, hid⟩ := hplugin
    refine Always.next fun store => ?_
    have hextend : ∀ found, Always (extendPlugin reference ctx ("plugin:" ++ plugin.id ++ "/" ++ config)
        (plugin.file.map Path.parent) found) fun e => ∃ package config, NamesPlugin reference package config ∧
          e.2.chain = ctx.chain ++ [(Origin.plugin package config).identity] := by
      intro found
      rw [hid]
      exact (extendPlugin_chain _ _ _ _ _).mono fun e he => ⟨package, config, ⟨name, hcut, hpackage⟩, he⟩
    dsimp only
    split
    · exact Always.next fun found => hextend found
    · exact Always.next fun found => hextend found
  · exact .throw trivial

theorem identity_eq_iff {reference reference' package package' config config' : String}
    (h : NamesPlugin reference package config) (h' : NamesPlugin reference' package' config') :
    (Origin.plugin package config).identity = (Origin.plugin package' config').identity ↔
      config = config' ∧ SameShorthand package package' := by
  obtain ⟨name, -, hpackage⟩ := id h
  obtain ⟨name', -, hpackage'⟩ := id h'
  rw [← shorthand_eq_iff_of_normalize hpackage hpackage']
  constructor
  · intro heq
    obtain ⟨hid, hconfig⟩ := eq_of_append_slash h.slash h'.slash heq
    exact ⟨hconfig, (String.append_right_inj _).mp hid⟩
  · rintro ⟨rfl, hid⟩
    simp only [Origin.identity, hid]

/-- Packages of plugins are told apart by their entries and by the identities of their
configurations, up to the packages that clash. -/
theorem plugins_registered (r : Resolver) :
    (∀ ctx s v names plugins, s.world.shared.view v = .list (names.map Value.str) →
      ((loadPlugins r v ctx).runFrom s).1 = .ok plugins → Registered names plugins) ∧
    ∀ reference reference' ctx ctx' s s' e e',
      ((pluginConfig r reference ctx).runFrom s).1 = .ok e → ((pluginConfig r reference' ctx').runFrom s').1 = .ok e' →
      ∃ package config package' config', NamesPlugin reference package config ∧
        NamesPlugin reference' package' config' ∧
        (e.2.chain.getLast? = e'.2.chain.getLast? ↔ config = config' ∧ SameShorthand package package') := by
  refine ⟨fun ctx s v names plugins hv h => ?_, fun reference reference' ctx ctx' s s' e e' h h' => ?_⟩
  · obtain ⟨loaded, hloaded, rfl⟩ := loadPlugins_loadedAs hv h
    exact registered hloaded
  · have hrun := (pluginConfig_identity r reference ctx s trivial).2
    have hrun' := (pluginConfig_identity r reference' ctx' s' trivial).2
    rw [h] at hrun
    rw [h'] at hrun'
    obtain ⟨package, config, hnames, hchain⟩ := hrun
    obtain ⟨package', config', hnames', hchain'⟩ := hrun'
    refine ⟨package, config, package', config', hnames, hnames', ?_⟩
    rw [hchain, hchain', List.getLast?_concat, List.getLast?_concat, Option.some_inj]
    exact identity_eq_iff hnames hnames'

/-! Two plugins of one shorthand, each of which has a configuration of the same name. -/

def clashWorld : World where
  here := ["work"]
  entries := [
    (["work", "scope", "eslint_plugin.py"],
      .script (.defines [("configs", .mapping [(.str "c", .mapping [(.str "rules", .mapping [])])])])),
    (["work", "eslint_plugin_@scope.py"],
      .script (.defines [("configs", .mapping [(.str "c", .mapping [(.str "env", .mapping [])])])]))]

def clashNames : List String := ["@scope", "eslint-plugin-@scope"]

def clashResolver : Resolver := ⟨clashWorld.directory, clashWorld.directory⟩

def clashContext : Context := { name := "<input>", directory := clashWorld.directory }

theorem exists_plugins : ∃ plugins, ((loadPlugins clashResolver (.list (clashNames.map Value.str)) clashContext).runFrom
    (Session.start clashWorld)).1 = .ok plugins ∧ plugins.map Prod.fst = ["@scope"] :=
  exists_ok_of_map (by decide +kernel)

theorem exists_config (reference : String) (h : ((pluginConfig clashResolver reference clashContext).runFrom
    (Session.start clashWorld)).1.toOption.map (fun e => e.2.chain) = some ["plugin:@scope/c"]) :
    ∃ e, ((pluginConfig clashResolver reference clashContext).runFrom (Session.start clashWorld)).1 = .ok e ∧
      e.2.chain = ["plugin:@scope/c"] :=
  exists_ok_of_map h

theorem plugins_registered_clashWorld : ∃ plugins e e',
    clashWorld.shared.view (.list (clashNames.map Value.str)) = .list (clashNames.map Value.str) ∧
    ((loadPlugins clashResolver (.list (clashNames.map Value.str)) clashContext).runFrom
      (Session.start clashWorld)).1 = .ok plugins ∧ Registered clashNames plugins ∧
    ((pluginConfig clashResolver "plugin:@scope/c" clashContext).runFrom (Session.start clashWorld)).1 = .ok e ∧
    ((pluginConfig clashResolver "plugin:eslint-plugin-@scope/c" clashContext).runFrom
      (Session.start clashWorld)).1 = .ok e' ∧
    ∃ package config package' config', NamesPlugin "plugin:@scope/c" package config ∧
      NamesPlugin "plugin:eslint-plugin-@scope/c" package' config' ∧ config = config' ∧ SameShorthand package package' := by
  have hv : clashWorld.shared.view (.list (clashNames.map Value.str)) = .list (clashNames.map Value.str) := rfl
  obtain ⟨hlist, hreferences⟩ := plugins_registered clashResolver
  obtain ⟨plugins, hplugins, -⟩ := exists_plugins
  obtain ⟨e, he, hchain⟩ := exists_config "plugin:@scope/c" (by decide +kernel)
  obtain ⟨e', he', hchain'⟩ := exists_config "plugin:eslint-plugin-@scope/c" (by decide +kernel)
  obtain ⟨package, config, package', config', hnames, hnames', hsame⟩ := hreferences _ _ _ _ _ _ _ _ he he'
  obtain ⟨hconfig, hpackage⟩ := hsame.mp (by rw [hchain, hchain'])
  exact ⟨plugins, e, e', hv, hplugins, hlist _ _ _ _ _ hv hplugins, he, he', package, config, package', config', hnames,
    hnames', hconfig, hpackage⟩

/-- Both plugins are accepted, and there is one entry for the two packages. -/
theorem plugin_lost : ∃ plugins p, ((loadPlugins clashResolver (.list (clashNames.map Value.str)) clashContext).runFrom
      (Session.start clashWorld)).1 = .ok plugins ∧
    EntryOf plugins "@scope" p ∧ EntryOf plugins "eslint-plugin-@scope" p ∧
    Package.normalize pluginKind "@scope" = .ok "@scope/eslint-plugin" ∧
    Package.normalize pluginKind "eslint-plugin-@scope" = .ok "eslint-plugin-@scope" ∧
    plugins.length = 1 ∧ (packagesOf clashNames).toFinset.card = 2 := by
  obtain ⟨plugins, hplugins, hnames⟩ := exists_plugins
  obtain ⟨p, rfl, hid⟩ := List.map_eq_singleton_iff.mp hnames
  exact ⟨[p], p, hplugins, ⟨List.mem_singleton_self p, "@scope/eslint-plugin", rfl, hid⟩,
    ⟨List.mem_singleton_self p, "eslint-plugin-@scope", rfl, hid⟩, rfl, rfl, rfl, by decide⟩

end Cascade.Resolution
