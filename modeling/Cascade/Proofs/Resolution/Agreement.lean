import Cascade.Proofs.Resolution.Coherence

/-! # Resolution does not depend on what was loaded before, or on names

In coherent sessions a configuration has the same elements, whatever else the
sessions have loaded. The name of a configuration is only for its elements, for
what they import and for failures: under another name there are the same elements
but for these names. -/
namespace Cascade

def Dependency.anonymous (d : Dependency) : Dependency := { d with importer := "" }

namespace Node

def anonymousPlugins (plugins : List (String × Dependency)) : List (String × Dependency) :=
  plugins.map fun p => (p.1, p.2.anonymous)

def anonymous (n : Node) : Node := { n with
  parser := n.parser.map Dependency.anonymous
  plugins := n.plugins.map anonymousPlugins }

end Node

def Element.anonymous (e : Element) : Element := { e with name := "", node := e.node.anonymous }

namespace Resolution

def Context.named (ctx : Context) (name : String) : Context := { ctx with name := name }

/-- The same context under a name, which is its own if it has to be. -/
def Renamed (same : Prop) (c c' : Context) : Prop := ∃ name, c' = c.named name ∧ (same → c.name = name)

variable {r : Resolver} {w : World} {J : Session → Session → Prop} {same : Prop} {ctx ctx' : Context}

theorem Renamed.refl (c : Context) : Renamed same c c := ⟨c.name, rfl, fun _ => rfl⟩

/-- Sessions of a world, whose journals are of no consequence. -/
structure Unrecorded (w : World) (J : Session → Session → Prop) : Prop where
  world : ∀ {s t}, J s t → s.world = w ∧ t.world = w
  recorded : ∀ {s t}, J s t → ∀ journal journal', J { s with journal } { t with journal := journal' }

/-- Sessions between which resolution does not tell the difference, since what it
loads is the same in both. -/
structure Interchangeable (r : Resolver) (w : World) (J : Session → Session → Prop) : Prop
    extends Unrecorded w J where
  load? : ∀ name directory {same : Prop},
    Agrees J same (Module.load? name directory) (Module.load? name directory) Eq
  loadPath? : ∀ {path : Path} {same : Prop}, path.IsResolved →
    Agrees J same (Module.loadPath? path) (Module.loadPath? path) Eq
  moduleConfig : ∀ m reference {same : Prop},
    Agrees J same (moduleConfig m reference) (moduleConfig m reference) Eq
  loadPlugin : ∀ name {same : Prop} {ctx ctx' : Context}, Renamed same ctx ctx' →
    Agrees J same (loadPlugin r name ctx) (loadPlugin r name ctx') (Like same Dependency.anonymous)

namespace Interchangeable

variable (hj : Interchangeable r w J)
include hj

theorem agrees_world : Agrees J same Action.world Action.world fun x y => w = x ∧ w = y :=
  fun _ _ h => ⟨h, (hj.world h).1.symm, (hj.world h).2.symm⟩

theorem agrees_shared : Agrees J same Action.shared Action.shared fun x y => w.shared = x ∧ w.shared = y :=
  fun _ _ h => ⟨h, congrArg World.shared (hj.world h).1.symm, congrArg World.shared (hj.world h).2.symm⟩

theorem debug (source : Source) (message message' : String) : Agrees J same
    (Action.debug source message) (Action.debug source message') fun _ _ => True :=
  fun _ _ h => ⟨hj.recorded h _ _, trivial⟩

end Interchangeable

theorem agrees_resolve (p : Path) : Agrees J same (Action.ofFault (w.resolve p))
    (Action.ofFault (w.resolve p)) fun q q' => q = q' ∧ q.IsResolved :=
  Agree.ofFault (.refl (fun _ _ => rfl) fun _ hq => ⟨rfl, Path.isResolved_of_resolve hq⟩)

/-- A computation whose success does not depend on the name of the context. -/
theorem matches_of_renamed {ε α : Type} {g : Context → Except ε α} {R : α → α → Prop}
    (hg : ∀ c name a, g c = .ok a → ∃ b, g (c.named name) = .ok b ∧ ((same → c.name = name) → R a b))
    (h : Renamed same ctx ctx') : Matches (fun e e' => same → e = e') R (g ctx) (g ctx') := by
  obtain ⟨name, rfl, hname⟩ := h
  cases ha : g ctx with
  | ok a =>
    obtain ⟨b, hb, hr⟩ := hg ctx name a ha
    rw [hb]
    exact hr hname
  | error e =>
    cases hb : g (ctx.named name) with
    | ok b =>
      obtain ⟨a, ha', -⟩ := hg (ctx.named name) ctx.name b hb
      have : (ctx.named name).named ctx.name = ctx := rfl
      rw [this, ha] at ha'
      cases ha'
    | error e' =>
      intro hsame
      have : ctx.named name = ctx := by rw [← hname hsame]; rfl
      rw [this, ha] at hb
      cases hb
      rfl

/-! ## Coherent sessions -/

/-- The plugin of a name as loading it gives it. -/
def pluginOf (r : Resolver) (w : World) (name : String) (ctx : Context) : Except Failure Dependency :=
  if Text.startsWith name "." || (name.toList.contains '/' && !Text.startsWith name "@") then
    .error (.problem (.pluginIsAPath ctx.name name))
  else do
    let package ← (Package.normalize Package.pluginKind name).mapError .fault
    match ← (Module.load? (Package.moduleName package) (some r.pluginBase)).outcome w with
    | none => .error (.problem (.missing .plugin name (some ctx.name) (some r.pluginBase.text)))
    | some m => .ok ⟨Package.shorthand Package.pluginKind package,
        .mapping (pluginDefinition (Session.start w) m.value), m.file, ctx.name⟩

/-- Remembering a plugin as its module has it keeps a session coherent. -/
theorem coherent_plugin {s : Session} (hs : s.Coherent r w) {package : String} {m : Module}
    (hm : (Module.load? (Package.moduleName package) (some r.pluginBase)).outcome w = .ok (some m)) :
    ({ s with plugins := (package, pluginDefinition (Session.start w) m.value, m.file) :: s.plugins } :
      Session).Coherent r w := by
  refine ⟨hs.world, hs.registry, hs.imported, hs.available, ?_⟩
  intro package' definition file hp
  rw [List.lookup_cons] at hp
  split at hp
  · rename_i heq
    cases eq_of_beq heq
    cases hp
    exact ⟨m, hm, rfl, rfl⟩
  · exact hs.plugins _ _ _ hp

/-- A plugin is given as its name says, whether it was loaded before or not. -/
theorem loadPlugin_run (hw : w.ModulesApart) (name : String) (ctx : Context) {s : Session}
    (hs : s.Coherent r w) : ((loadPlugin r name ctx).runFrom s).2.Coherent r w ∧
      ((loadPlugin r name ctx).runFrom s).1 = pluginOf r w name ctx := by
  unfold loadPlugin pluginOf
  split
  · exact ⟨hs, rfl⟩
  simp only [Action.runFrom_bind, Action.runFrom_ofFault]
  cases Package.normalize Package.pluginKind name with
  | error e => exact ⟨hs, rfl⟩
  | ok package =>
    simp only [mapError_ok, Action.runFrom_get, ok_bind]
    -- a plugin that is remembered is what loading it in the world gives
    cases hl : s.plugins.lookup package with
    | some entry =>
      obtain ⟨definition, file⟩ := entry
      obtain ⟨m, hm, rfl, rfl⟩ := hs.plugins _ _ _ hl
      refine ⟨hs, ?_⟩
      rw [hm]
      rfl
    | none =>
      obtain ⟨ht, hr⟩ := Module.load?_settled hw (Package.moduleName package) (some r.pluginBase) s hs
      simp only [Action.runFrom_bind]
      rw [← hr]
      cases hload : (Module.load? (Package.moduleName package) (some r.pluginBase)).runFrom s with
      | mk loaded t =>
        rw [hload] at ht hr
        cases loaded with
        | error e => exact ⟨ht, rfl⟩
        | ok loaded =>
          cases loaded with
          | none => exact ⟨ht, rfl⟩
          | some m =>
            have ht' := (Settled.debug Source.resolver ("Loaded plugin '" ++
              Package.shorthand Package.pluginKind package ++ "' (" ++ package ++ ") from " ++
              fileText m.file) t ht).1
            rw [Action.runFrom_debug] at ht'
            simp only [Action.runFrom_bind, Action.runFrom_debug, Action.runFrom_get,
              Action.runFrom_modify, Action.runFrom_pure, ok_bind, ht'.pluginDefinition_eq hw m.value]
            exact ⟨coherent_plugin ht' hr.symm, trivial⟩

theorem loadPlugin_coherent (hw : w.ModulesApart) (name : String) (h : Renamed same ctx ctx') :
    Agrees (CoherentPair r w) same (loadPlugin r name ctx) (loadPlugin r name ctx')
      (Like same Dependency.anonymous) := by
  rintro s t ⟨hs, ht⟩
  obtain ⟨hs', hr⟩ := loadPlugin_run hw name ctx hs
  obtain ⟨ht', hr'⟩ := loadPlugin_run hw name ctx' ht
  refine ⟨⟨hs', ht'⟩, ?_⟩
  rw [hr, hr']
  refine matches_of_renamed (g := pluginOf r w name) ?_ h
  intro c other d hd
  unfold pluginOf at hd ⊢
  split at hd
  · cases hd
  rename_i hpath
  rw [if_neg hpath]
  cases hn : Package.normalize Package.pluginKind name with
  | error e => rw [hn] at hd; cases hd
  | ok package =>
    simp only [hn, mapError_ok, ok_bind] at hd ⊢
    cases hl : (Module.load? (Package.moduleName package) (some r.pluginBase)).outcome w with
    | error e => rw [hl] at hd; cases hd
    | ok loaded =>
      simp only [hl, ok_bind] at hd ⊢
      cases loaded with
      | none => cases hd
      | some m =>
        cases hd
        exact ⟨_, rfl, fun hname => ⟨rfl, fun hsame => by rw [Context.named, hname hsame]⟩⟩

theorem moduleConfig_settled (hw : w.ModulesApart) (m : Module) (reference : String) :
    Settled r w (moduleConfig m reference) := by
  intro s hs
  unfold moduleConfig Action.outcome
  simp only [Action.runFrom_bind, Action.runFrom_get,
    hs.attribute?_eq hw (show "config" ∈ memberNames by decide)]
  split
  · exact ⟨hs, rfl⟩
  · exact ⟨hs, rfl⟩

theorem fileConfig_settled (path : Path) : Settled r w (fileConfig path) := by
  unfold fileConfig
  refine Settled.world.bind fun w' _ => ?_
  split
  · exact .pure _
  · exact .throw _

end Resolution

open Resolution in
/-- Where modules are apart, it does not matter what coherent sessions have loaded. -/
theorem World.ModulesApart.interchangeable {r : Resolver} {w : World} (hw : w.ModulesApart) :
    Interchangeable r w (CoherentPair r w) where
  world := fun h => ⟨h.1.world, h.2.world⟩
  recorded := fun ⟨hs, ht⟩ _ _ => ⟨⟨hs.world, hs.registry, hs.imported, hs.available, hs.plugins⟩,
    ⟨ht.world, ht.registry, ht.imported, ht.available, ht.plugins⟩⟩
  load? := fun name directory same => (Module.load?_settled hw name directory).agrees same
  loadPath? := fun {_ same} hp => (Module.loadPath?_settled hw hp).agrees same
  moduleConfig := fun m reference same => (moduleConfig_settled hw m reference).agrees same
  loadPlugin := fun name _ _ _ h => loadPlugin_coherent hw name h

namespace Resolution

variable {r : Resolver} {w : World} {J : Session → Session → Prop} {same : Prop} {ctx ctx' : Context}

/-! ## Plugins and parsers -/

theorem missing_agrees {α : Type} {R : α → α → Prop} (h : Renamed same ctx ctx') (target : Target)
    (name : String) (searched : Path) : Agrees J same (missing target name ctx searched : Action α)
      (missing target name ctx' searched) R := by
  obtain ⟨other, rfl, hname⟩ := h
  refine .throw fun hsame => ?_
  rw [Context.named, hname hsame]

theorem insertPlugin_anonymous (plugins : List (String × Dependency)) (d : Dependency) :
    Node.anonymousPlugins (insertPlugin plugins d) =
      insertPlugin (Node.anonymousPlugins plugins) d.anonymous := by
  induction plugins with
  | nil => rfl
  | cons p rest ih =>
    have hid : d.anonymous.id = d.id := rfl
    simp only [insertPlugin, Node.anonymousPlugins, List.map_cons, hid] at ih ⊢
    split
    · rfl
    · rw [List.map_cons, ih]

theorem loadPlugins_agrees (hj : Interchangeable r w J) (names : Value) (h : Renamed same ctx ctx') :
    Agrees J same (loadPlugins r names ctx) (loadPlugins r names ctx')
      (Like same Node.anonymousPlugins) := by
  unfold loadPlugins
  refine hj.agrees_shared.bind fun _ _ heq => ?_
  obtain ⟨rfl, rfl⟩ := heq
  obtain ⟨name, rfl, hname⟩ := h
  have notStrings : Agrees J same
      (throw (.problem (.pluginsNotStrings ctx.name)) : Action (List (String × Dependency)))
      (throw (.problem (.pluginsNotStrings (ctx.named name).name))) (Like same Node.anonymousPlugins) :=
    .throw fun hsame => by rw [Context.named, hname hsame]
  cases w.shared.view names with
  | list items =>
    dsimp only
    cases Value.strings? items with
    | none => exact notStrings
    | some names =>
      refine Agree.foldlM (fun other _ plugins plugins' hp => ?_) (.refl _)
      refine (hj.loadPlugin other ⟨name, rfl, hname⟩).bind fun d d' hd => .pure ⟨?_, fun hsame => ?_⟩
      · rw [insertPlugin_anonymous, insertPlugin_anonymous, hp.erased, hd.erased]
      · rw [hp.equal hsame, hd.equal hsame]
  | _ => exact notStrings

theorem loadParser_agrees (hj : Interchangeable r w J) (parser : Value) (h : Renamed same ctx ctx') :
    Agrees J same (loadParser parser ctx) (loadParser parser ctx')
      (Like same Dependency.anonymous) := by
  obtain ⟨name, rfl, hname⟩ := h
  have found : ∀ id (m : Module), Agrees J same
      (do
        Action.debug Source.resolver ("Loaded parser '" ++ id ++ "' from " ++ fileText m.file)
        return (⟨id, m.value, m.file, ctx.name⟩ : Dependency))
      (do
        Action.debug Source.resolver ("Loaded parser '" ++ id ++ "' from " ++ fileText m.file)
        return (⟨id, m.value, m.file, (ctx.named name).name⟩ : Dependency))
      (Like same Dependency.anonymous) := by
    intro id m
    refine (hj.debug _ _ _).bind fun _ _ _ => .pure ⟨rfl, fun hsame => ?_⟩
    rw [Context.named, hname hsame]
  unfold loadParser
  cases parser with
  | str id =>
    dsimp only
    split
    · refine hj.agrees_world.bind fun _ _ heq => ?_
      obtain ⟨rfl, rfl⟩ := heq
      refine (agrees_resolve _).bind fun path _ hp => ?_
      obtain ⟨rfl, hp⟩ := hp
      refine (hj.loadPath? hp).bind fun loaded _ heq => ?_
      subst heq
      cases loaded with
      | none => exact missing_agrees ⟨name, rfl, hname⟩ _ _ _
      | some m => exact found id m
    · refine (hj.load? _ _).bind fun loaded _ heq => ?_
      subst heq
      cases loaded with
      | none => exact missing_agrees ⟨name, rfl, hname⟩ _ _ _
      | some m => exact found id m
  | _ => exact .throw fun hsame => by rw [Context.named, hname hsame]

/-! ## Extended configurations -/

/-- The same configuration in a context of another name. -/
def RenamedExtended (same : Prop) (e e' : Extended) : Prop := e.1 = e'.1 ∧ Renamed same e.2 e'.2

theorem extend_agrees (reference identity : String) (h : Renamed same ctx ctx') (file directory : Option Path) :
    Agrees J same (extend reference identity ctx file directory)
      (extend reference identity ctx' file directory) (Renamed same) := by
  obtain ⟨name, rfl, hname⟩ := h
  unfold extend
  by_cases hc : ctx.chain.contains identity = true
  · rw [if_pos hc, if_pos (show (ctx.named name).chain.contains identity = true from hc)]
    exact .throw fun _ => rfl
  · rw [if_neg hc, if_neg (show ¬ (ctx.named name).chain.contains identity = true from hc)]
    exact .pure ⟨name ++ " » " ++ reference, rfl, fun hsame => by rw [hname hsame]⟩

/-- Extending with the same configuration. -/
theorem extended_agrees (config : Value) (reference identity : String) (h : Renamed same ctx ctx')
    (file directory : Option Path) : Agrees J same
      (do return (config, ← extend reference identity ctx file directory))
      (do return (config, ← extend reference identity ctx' file directory)) (RenamedExtended same) :=
  (extend_agrees reference identity h file directory).bind fun _ _ hc => .pure ⟨rfl, hc⟩

theorem pluginConfig_agrees (hj : Interchangeable r w J) (reference : String) (h : Renamed same ctx ctx') :
    Agrees J same (pluginConfig r reference ctx) (pluginConfig r reference ctx')
      (RenamedExtended same) := by
  have hname := h
  obtain ⟨name, rfl, hname⟩ := hname
  have notAReference : Agrees J same
      (throw (.problem (.pluginReference ctx.name reference)) : Action Extended)
      (throw (.problem (.pluginReference (ctx.named name).name reference))) (RenamedExtended same) :=
    .throw fun hsame => by rw [Context.named, hname hsame]
  unfold pluginConfig
  cases Text.cutLast '/' (Text.drop "plugin:".length reference) with
  | none => exact notAReference
  | some parts =>
    obtain ⟨pluginName, configName⟩ := parts
    dsimp only
    split
    · exact notAReference
    refine (hj.loadPlugin pluginName h).bind fun plugin plugin' hp => ?_
    have hdefinition : plugin.definition = plugin'.definition := (Dependency.mk.inj hp.erased).2.1
    have hid : plugin.id = plugin'.id := (Dependency.mk.inj hp.erased).1
    have hfile : plugin.file = plugin'.file := (Dependency.mk.inj hp.erased).2.2.1
    refine hj.agrees_shared.bind fun _ _ heq => ?_
    obtain ⟨rfl, rfl⟩ := heq
    rw [hdefinition, hid, hfile]
    have missingConfig : Agrees J same
        (throw (.problem (.missing .config reference (some ctx.name) none)) : Action Extended)
        (throw (.problem (.missing .config reference (some (ctx.named name).name) none)))
        (RenamedExtended same) :=
      .throw fun hsame => by rw [Context.named, hname hsame]
    split
    · refine (Agrees.ofFault _).bind fun found _ heq => ?_
      subst heq
      cases found with
      | none => exact missingConfig
      | some config => exact extended_agrees config _ _ h _ _
    · exact missingConfig

theorem fileConfig_agrees (hj : Interchangeable r w J) (path : Path) :
    Agrees J same (fileConfig path) (fileConfig path) Eq := by
  unfold fileConfig
  refine hj.agrees_world.bind fun _ _ heq => ?_
  obtain ⟨rfl, rfl⟩ := heq
  split
  · exact .pure rfl
  · exact .throw fun _ => rfl

theorem pathConfig_agrees (hj : Interchangeable r w J) (reference : String) (h : Renamed same ctx ctx') :
    Agrees J same (pathConfig reference ctx) (pathConfig reference ctx') (RenamedExtended same) := by
  have hname := h
  obtain ⟨name, rfl, -⟩ := hname
  unfold pathConfig
  refine hj.agrees_world.bind fun _ _ heq => ?_
  obtain ⟨rfl, rfl⟩ := heq
  refine (agrees_resolve _).bind fun path _ hp => ?_
  obtain ⟨rfl, hp⟩ := hp
  have notFound : Agrees J same
      (missing .config reference ctx ctx.directory : Action Value)
      (missing .config reference (ctx.named name) (ctx.named name).directory) Eq :=
    missing_agrees h _ _ _
  have settle : ∀ config config' : Value, config = config' → Agrees J same
      (do return (config, ← extend reference path.text ctx (some path) (some path.parent)))
      (do return (config', ← extend reference path.text (ctx.named name) (some path) (some path.parent)))
      (RenamedExtended same) := by
    rintro config _ rfl
    exact extended_agrees config _ _ h _ _
  dsimp only
  split
  · refine (hj.loadPath? hp).bind fun loaded _ heq => ?_
    subst heq
    cases loaded with
    | none => exact notFound.bind settle
    | some m => exact (hj.moduleConfig m reference).bind settle
  · split
    · exact (fileConfig_agrees hj path).bind settle
    · exact notFound.bind settle

theorem packageConfig_agrees (hj : Interchangeable r w J) (reference : String) (h : Renamed same ctx ctx') :
    Agrees J same (packageConfig reference ctx) (packageConfig reference ctx')
      (RenamedExtended same) := by
  have hname := h
  obtain ⟨name, rfl, -⟩ := hname
  unfold packageConfig
  refine hj.agrees_world.bind fun _ _ heq => ?_
  obtain ⟨rfl, rfl⟩ := heq
  refine (Agrees.ofFault _).bind fun package _ heq => ?_
  subst heq
  have hdirectory : (ctx.named name).directory = ctx.directory := rfl
  rw [hdirectory]
  cases packageFile? _ package ctx.directory with
  | some path =>
    refine (agrees_resolve path).bind fun path _ hp => ?_
    obtain ⟨rfl, hp⟩ := hp
    refine (hj.debug _ _ _).bind fun _ _ _ => ?_
    refine (fileConfig_agrees hj path).bind fun config _ heq => ?_
    subst heq
    exact extended_agrees config _ _ h _ _
  | none =>
    refine (hj.load? _ _).bind fun loaded _ heq => ?_
    subst heq
    cases loaded with
    | none => exact missing_agrees h _ _ _
    | some m =>
      refine (hj.moduleConfig m reference).bind fun config _ heq => ?_
      subst heq
      exact extended_agrees config _ _ h _ _

/-- Loaders that lead to the same configurations. -/
def LoadersAgree (J : Session → Session → Prop) (same : Prop) (load load' : Loader) : Prop :=
  ∀ reference ctx ctx', Renamed same ctx ctx' →
    Agrees J same (load reference ctx) (load' reference ctx') (RenamedExtended same)

theorem loadExtended_agrees (hj : Interchangeable r w J) :
    LoadersAgree J same (loadExtended r) (loadExtended r) := by
  intro reference ctx ctx' h
  unfold loadExtended
  refine (hj.debug _ _ _).bind fun _ _ _ => ?_
  split
  · exact extended_agrees _ _ _ h _ _
  split
  · exact pluginConfig_agrees hj reference h
  split
  · exact pathConfig_agrees hj reference h
  · exact packageConfig_agrees hj reference h

end Resolution

end Cascade
