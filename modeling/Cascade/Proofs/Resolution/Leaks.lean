import Cascade.Proofs.Resolution.References

/-! # References that do fail

In a session that has loaded nothing yet, every reference that can fail without a
report does so. The ways to fail are described exactly then: a failure that is not
reported comes from such a reference, unless it comes from a plugin that is not as it
should be. -/
namespace Cascade

/-- A session of a world in which no file of a module and no plugin has been loaded. -/
structure Session.Unloaded (w : World) (s : Session) : Prop where
  world : s.world = w
  registry : s.registry = []
  plugins : s.plugins = []

theorem Session.unloaded_start (w : World) : (Session.start w).Unloaded w := ⟨rfl, rfl, rfl⟩

/-- An action that fails in one way where nothing has been loaded. -/
abbrev Failing (w : World) {α : Type} (a : Action α) (e : Failure) : Prop :=
  Runs (Session.Unloaded w) a (fun _ _ => False) fun e' t => e' = e ∧ t.Unloaded w

variable {w : World} {e : Failure}

namespace Failing

theorem bind {α β : Type} {a : Action α} {f : α → Action β} (h : Failing w a e) : Failing w (a >>= f) e :=
  Runs.bind h fun _ => ⟨fun _ hf => hf.elim⟩

theorem throw {α : Type} (e : Failure) : Failing w (throw e : Action α) e := Runs.throw fun _ hs => ⟨rfl, hs⟩

/-- An action that leaves nothing loaded and gives one result can be left out. -/
theorem after {α β : Type} {a : Action α} {f : α → Action β} {x : α}
    (ha : ∀ s, s.Unloaded w → ∃ t, a.runFrom s = (.ok x, t) ∧ t.Unloaded w) (h : Failing w (f x) e) :
    Failing w (a >>= f) e := by
  refine Runs.bind (Q := fun y t => t.Unloaded w ∧ y = x) ⟨fun s hs => ?_⟩ fun y => Runs.assuming fun hy => hy ▸ h
  obtain ⟨t, hrun, ht⟩ := ha s hs
  rw [hrun]
  exact ⟨ht, rfl⟩

theorem world {α : Type} {f : World → Action α} (h : Failing w (f w) e) : Failing w (Action.world >>= f) e :=
  after (fun s hs => ⟨s, by rw [Action.runFrom_world, hs.world], hs⟩) h

theorem debug {α : Type} {f : Unit → Action α} {source : Source} {message : String} (h : Failing w (f ()) e) :
    Failing w (Action.debug source message >>= f) e :=
  after (fun s hs => ⟨_, Action.runFrom_debug s source message, ⟨hs.world, hs.registry, hs.plugins⟩⟩) h

theorem ofFault {α β : Type} {x : Except Fault α} {y : α} {f : α → Action β} (hx : x = .ok y)
    (h : Failing w (f y) e) : Failing w (Action.ofFault x >>= f) e :=
  after (fun s hs => ⟨s, by rw [hx]; rfl, hs⟩) h

theorem ofFault_error {α : Type} {x : Except Fault α} {f : Fault} (hx : x = .error f) :
    Failing w (Action.ofFault x) (.fault f) :=
  ⟨fun s hs => by rw [hx]; exact ⟨rfl, hs⟩⟩

theorem session {α : Type} {f : Session → Action α} (h : ∀ s, s.Unloaded w → Failing w (f s) e) :
    Failing w (getThe Session >>= f) e := by
  refine Runs.get.bind fun s => ?_
  refine Runs.of_session fun t ht => ?_
  obtain ⟨rfl, ht⟩ := ht
  exact (h s ht).require fun _ hu => hu ▸ ht

end Failing

/-! ## Modules -/

namespace Module

theorem import?_failing {name : String} {f : Fault} (h : nameFault? name = some f) :
    Failing w (import? name) (.fault f) := by
  unfold nameFault? at h
  unfold import?
  split at h
  · rename_i hempty
    cases h
    rw [if_pos hempty]
    exact .throw _
  · rename_i hempty
    split at h
    · rename_i hpoint
      cases h
      rw [if_neg hempty, if_pos hpoint]
      exact .throw _
    · cases h

theorem load?_failing {name : String} {directory : Path} (habsent : findFile w name directory = none) {f : Fault}
    (h : nameFault? name = some f) : Failing w (load? name (some directory)) (.fault f) := by
  unfold load?
  refine .world ?_
  rw [Option.bind_some, habsent]
  exact import?_failing h

theorem fromFile_failing (hw : w.Sound) (name : String) {path : Path} (hp : path.hasNul = false)
    (hpy : Text.endsWith path.name ".py" = false) : Failing w (fromFile name path) (.notLoadable path.text) := by
  obtain ⟨q, hq⟩ := hw.exists_resolve hp
  unfold fromFile
  refine .world (.ofFault (by rw [key, hq]; rfl) (.session fun s hs => ?_))
  rw [hs.registry, List.lookup_nil, hpy]
  exact Failing.throw _

theorem loadPath?_failing (hw : w.Sound) {path : Path} (hp : path.hasNul = false) (hfile : w.isFile path = true)
    (hpy : Text.endsWith path.name ".py" = false) : Failing w (loadPath? path) (.notLoadable path.text) := by
  have hplain : w.isDirectory path = false := by
    unfold World.isFile at hfile
    unfold World.isDirectory
    split <;> simp_all
  unfold loadPath?
  refine .world ?_
  simp only [hplain, hfile, Bool.false_eq_true, if_false, if_true]
  exact .debug (fromFile_failing hw _ hp hpy).bind

end Module

/-! ## Names -/

/-- A name that lacks a scope begins with the sign of one. -/
theorem Package.head?_of_nameFault? {name : String} {f : Fault} (h : nameFault? name = some f) :
    name.toList.head? = some '@' := by
  have hsign : Text.startsWith (Text.swap '\\' '/' name) "@" = true := by
    unfold nameFault? at h
    dsimp only at h
    split at h
    · rename_i hname
      rw [beq_iff_eq.mp hname]
      decide
    split at h
    · rename_i hlacks
      exact (Bool.and_eq_true_iff.mp hlacks).1
    · cases h
  rw [Text.startsWith_iff_head? (c := '@') rfl, Text.swap, String.toList_ofList, List.head?_map] at hsign
  obtain ⟨c, hc, heq⟩ := Option.map_eq_some_iff.mp hsign
  split at heq
  · cases heq
  · rw [hc, heq]

namespace Resolution

variable {r : Resolver} {directory : Path} {ctx : Context}

theorem packageModule_failing {kind name package : String} (hkind : ∃ rest, kind.toList = 'e' :: rest)
    (hn : Package.normalize kind name = .ok package) (h : PackageFails w kind name directory e) :
    Failing w (Module.load? (Package.moduleName package) (some directory)) e := by
  obtain ⟨hne, hslash, hfault⟩ := Package.normalize_scopeFault? hkind hn
  obtain ⟨⟨f, hf, rfl⟩, habsent⟩ := h
  refine Module.load?_failing (habsent package hn) ?_
  rw [Package.nameFault?_moduleName hne hslash, hfault, hf]

theorem normalize_failing {kind name : String} {f : Fault} (hn : Package.normalize kind name = .error f)
    (h : PackageFails w kind name directory e) : Failing w (Action.ofFault (Package.normalize kind name)) e := by
  obtain ⟨⟨g, hg, rfl⟩, -⟩ := h
  rw [Package.normalize_eq_error hn] at hg
  cases hg
  exact .ofFault_error hn

theorem loadPlugin_failing {name : String} (h : PackageFails w Package.pluginKind name r.pluginBase e) :
    Failing w (loadPlugin r name ctx) e := by
  have hhead : name.toList.head? = some '@' := by
    obtain ⟨f, hf, -⟩ := h.fault
    exact Package.head?_of_nameFault? hf
  have hsign : Text.startsWith name "@" = true := (Text.startsWith_iff_head? rfl _).mpr hhead
  have hpoint : Text.startsWith name "." = false := by
    rw [Bool.eq_false_iff, Ne, Text.startsWith_iff_head? rfl, hhead]
    decide
  unfold loadPlugin
  rw [hsign, hpoint, Bool.not_true, Bool.and_false, Bool.or_false, if_neg Bool.false_ne_true]
  cases hn : Package.normalize Package.pluginKind name with
  | error f => exact (hn ▸ normalize_failing hn h).bind
  | ok package =>
    refine .ofFault rfl (.session fun s hs => ?_)
    rw [hs.plugins, List.lookup_nil]
    exact (packageModule_failing Package.pluginKind_eq hn h).bind

theorem loadParser_failing (hw : w.Sound) {name : String}
    (h : ParserFails w ctx.directory name e) : Failing w (loadParser (.str name) ctx) e := by
  unfold loadParser
  dsimp only
  cases h with
  | path hpath hnul =>
    rw [if_pos hpath]
    exact .world (Failing.ofFault_error (Path.resolve_child_of_mem _ _ hnul)).bind
  | file hpath hresolved hfile hpy =>
    rw [if_pos hpath]
    refine .world (.ofFault hresolved (Failing.bind ?_))
    exact Module.loadPath?_failing hw (Path.hasNul_of_resolve hresolved) hfile hpy
  | module hpackage hfault habsent =>
    rw [hpackage, if_neg Bool.false_ne_true]
    have hname : name ≠ "" := by
      rintro rfl
      cases hfault
    refine (Module.load?_failing habsent ?_).bind
    rw [Package.nameFault?_moduleName hname (startsWith_slash_of_package hpackage), hfault]

theorem pluginConfig_failing {reference name config : String}
    (hcut : Text.cutLast '/' (Text.drop "plugin:".length reference) = some (name, config)) (hconfig : config ≠ "")
    (h : PackageFails w Package.pluginKind name r.pluginBase e) : Failing w (pluginConfig r reference ctx) e := by
  have hname : name ≠ "" := by
    rintro rfl
    obtain ⟨f, hf, -⟩ := h.fault
    cases Package.head?_of_nameFault? hf
  unfold pluginConfig
  rw [hcut]
  dsimp only
  rw [if_neg (by simp [String.isEmpty_iff, hname, hconfig])]
  exact (loadPlugin_failing h).bind

theorem packageConfig_failing {reference : String} (hfile : ∀ package,
    Package.normalize Package.configKind reference = .ok package → packageFile? w package ctx.directory = none)
    (h : PackageFails w Package.configKind reference ctx.directory e) : Failing w (packageConfig reference ctx) e := by
  unfold packageConfig
  refine .world ?_
  cases hn : Package.normalize Package.configKind reference with
  | error f => exact (hn ▸ normalize_failing hn h).bind
  | ok package =>
    refine .ofFault rfl ?_
    rw [hfile package hn]
    exact (packageModule_failing Package.configKind_eq hn h).bind

/-- The names of the sets of rules stand for themselves. -/
theorem ReferenceFails.not_sentinel {reference : String} (h : ReferenceFails r w directory reference e) :
    sentinels.contains reference = false := by
  refine Bool.eq_false_iff.mpr fun hmem => ?_
  have hnames : reference = "eslint:all" ∨ reference = "eslint:recommended" := by
    simpa [sentinels] using hmem
  cases h with
  | plugin hplugin =>
    rcases hnames with rfl | rfl <;> cases hplugin
  | path _ hpath =>
    rcases hnames with rfl | rfl <;> exact absurd hpath (by decide)
  | package _ _ _ hfails =>
    obtain ⟨f, hf, -⟩ := hfails.fault
    rcases hnames with rfl | rfl <;> cases Package.head?_of_nameFault? hf

theorem loadExtended_failing {reference : String} (h : ReferenceFails r w ctx.directory reference e) :
    Failing w (loadExtended r reference ctx) e := by
  unfold loadExtended
  refine .debug ?_
  rw [h.not_sentinel, if_neg Bool.false_ne_true]
  cases h with
  | plugin hplugin hcut hconfig hfails =>
    rw [if_pos hplugin]
    exact pluginConfig_failing hcut hconfig hfails
  | path hplugin hpath hnul =>
    rw [hplugin, if_neg Bool.false_ne_true, if_pos hpath]
    exact .world (Failing.ofFault_error (Path.resolve_child_of_mem _ _ hnul)).bind
  | package hplugin hpath habsent hfails =>
    rw [hplugin, if_neg Bool.false_ne_true, hpath, if_neg Bool.false_ne_true]
    exact packageConfig_failing habsent hfails

/-! ## Exactly these fail -/

/-- Where an action fails in certain ways only, and does fail in each of them, they are
the failures that are not reported. -/
theorem fails_iff {α : Type} {a : Action α} {Q : α → Session → Prop} {E : Failure → Prop}
    (honly : Runs (Session.Holds w []) a Q (Amiss w E)) (heach : ∀ e, E e → Failing w a e) {s : Session}
    (hp : s.Placed w) (hs : s.Unloaded w) (he : ¬ e.Reported) :
    (∃ t, a.runFrom s = (.error e, t) ∧ ∀ p ∈ t.plugins, WellShaped w.shared p.2.1) ↔ E e := by
  constructor
  · rintro ⟨t, hrun, hplugins⟩
    have hfails := honly.outcome s ⟨hp, List.nil_subset _⟩
    rw [hrun] at hfails
    rcases hfails with hreported | hfails | ⟨p, hp, hshape⟩
    · exact absurd hreported he
    · exact hfails
    · exact absurd (hplugins p hp) hshape
  · intro h
    have hfails := (heach e h).outcome s hs
    cases hrun : a.runFrom s with
    | mk result t =>
      rw [hrun] at hfails
      cases result with
      | ok x => exact hfails.elim
      | error e' =>
        obtain ⟨rfl, ht⟩ := hfails
        exact ⟨t, rfl, by simp [ht.plugins]⟩

variable {s : Session}

theorem loadPlugin_fails_iff (hw : w.Sound) (r : Resolver) (name : String) (ctx : Context) (hp : s.Placed w)
    (hs : s.Unloaded w) (he : ¬ e.Reported) :
    (∃ t, (loadPlugin r name ctx).runFrom s = (.error e, t) ∧ ∀ p ∈ t.plugins, WellShaped w.shared p.2.1) ↔
      PackageFails w Package.pluginKind name r.pluginBase e :=
  fails_iff (loadPlugin_runs hw r name ctx []) (fun _ h => loadPlugin_failing h) hp hs he

/-- A reference is not reported just when it is one of those. -/
theorem loadExtended_fails_iff (hw : w.Sound) (r : Resolver) (reference : String)
    (hd : ctx.directory.hasNul = false) (hp : s.Placed w) (hs : s.Unloaded w) (he : ¬ e.Reported) :
    (∃ t, (loadExtended r reference ctx).runFrom s = (.error e, t) ∧
        ∀ p ∈ t.plugins, WellShaped w.shared p.2.1) ↔
      ReferenceFails r w ctx.directory reference e :=
  fails_iff (loadExtended_runs hw r reference hd []) (fun _ h => loadExtended_failing h) hp hs he

theorem loadParser_fails_iff (hw : w.Sound) {name : String} (hname : name ≠ "") (hd : ctx.directory.hasNul = false)
    (hp : s.Placed w) (hs : s.Unloaded w) (he : ¬ e.Reported) :
    (∃ t, (loadParser (.str name) ctx).runFrom s = (.error e, t) ∧
        ∀ p ∈ t.plugins, WellShaped w.shared p.2.1) ↔
      ParserFails w ctx.directory name e := by
  have htruthy : w.shared.truthy (.str name) = true := by
    simpa [Shared.truthy, Shared.view, Value.truthy] using hname
  refine fails_iff (runs_of_loading (loadParser_loading hw htruthy hd) (fun e he => he.imp_right ?_) [])
    (fun _ h => loadParser_failing hw h) hp hs he
  rintro ⟨_, heq, hfails⟩
  cases heq
  exact hfails

end Resolution

end Cascade
