import Cascade.Proofs.FullName
import Cascade.Proofs.Confinement.Modules
import Cascade.Proofs.Resolution.Freshness
import Cascade.Proofs.Resolution.Journals

/-! # What is asked for by a name comes from below its directory

A plugin, a parser or the module of a configuration that is asked for by a name is loaded
from a file below the directory in which it is looked for, or it is imported because there
is none. Plugins are remembered, so for them this is an invariant of all that a resolver
does. An invariant has to be kept by the steps that load modules only: a resolution, which
is the same in any two sessions that nobody tells apart, then keeps it as a whole. -/
namespace Cascade

open Resolution

variable {r : Resolver} {w : World} {I : Session → Prop}

/-! ## Invariants -/

/-- An action from which a session comes back with an invariant that it had. -/
abbrev Keeps {α : Type} (I : Session → Prop) (a : Action α) : Prop :=
  Yields I (fun _ => True) a fun _ => True

namespace Keeps

variable {α β : Type}

theorem bind {a : Action α} {f : α → Action β} {Q : β → Prop} (h : Keeps I a)
    (hf : ∀ x, Yields I (fun _ => True) (f x) Q) : Yields I (fun _ => True) (a >>= f) Q :=
  Yields.bind h fun x _ => hf x

theorem world : Keeps I Action.world := fun _ hs => ⟨hs, trivial⟩

theorem ofFault (x : Except Fault α) : Keeps I (Action.ofFault x) := Yields.ofFault (fun _ _ => trivial) fun _ _ => trivial

theorem debug (h : ∀ {s}, I s → ∀ journal, I { s with journal }) (source : Source) (message : String) :
    Keeps I (Action.debug source message) :=
  Yields.modify fun _ hs => h hs _

end Keeps

/-- What both of two runs keep holds along with what relates them. -/
theorem Agree.restrict {α β : Type} {J : Session → Session → Prop} {E : Failure → Failure → Prop} {a : Action α}
    {b : Action β} {R : α → β → Prop} (h : Agree J E a b R) (ha : Keeps I a) (hb : Keeps I b) :
    Agree (fun s t => J s t ∧ I s ∧ I t) E a b R := by
  rintro s t ⟨hj, hs, ht⟩
  obtain ⟨hj', hm⟩ := h s t hj
  exact ⟨⟨hj', (ha s hs).1, (hb t ht).1⟩, hm⟩

namespace Resolution

theorem moduleConfig_keeps (m : Module) (reference : String) : Keeps I (moduleConfig m reference) := by
  unfold moduleConfig
  refine Yields.get.bind fun s _ => ?_
  split
  · exact .throw trivial
  · exact .pure trivial

theorem fileConfig_keeps (path : Path) : Keeps I (fileConfig path) := by
  unfold fileConfig
  refine Keeps.bind .world fun w' => ?_
  split
  · exact .pure trivial
  · exact .throw trivial

/-- An invariant of sessions that loading modules and plugins keeps. -/
structure Invariant (r : Resolver) (w : World) (I : Session → Prop) : Prop where
  world : ∀ {s}, I s → s.world = w
  recorded : ∀ {s}, I s → ∀ journal, I { s with journal }
  load? : ∀ name directory, Keeps I (Module.load? name directory)
  loadPath? : ∀ path, Keeps I (Module.loadPath? path)
  loadPlugin : ∀ name ctx, Keeps I (loadPlugin r name ctx)

namespace Invariant

theorem interchangeable (h : Invariant r w I) :
    Interchangeable r w fun s t => Session.Alike w s t ∧ I s ∧ I t where
  world := fun hj => unrecorded_alike.world hj.1
  recorded := fun ⟨hj, hs, ht⟩ journal journal' =>
    ⟨unrecorded_alike.recorded hj journal journal', h.recorded hs journal, h.recorded ht journal'⟩
  load? name directory _ := (Module.load?_alike name directory).restrict (h.load? _ _) (h.load? _ _)
  loadPath? _ := (Module.loadPath?_alike _).restrict (h.loadPath? _) (h.loadPath? _)
  moduleConfig m reference _ := (moduleConfig_alike m reference).restrict (moduleConfig_keeps _ _) (moduleConfig_keeps _ _)
  loadPlugin name _ _ _ hctx := (loadPlugin_alike name hctx).restrict (h.loadPlugin _ _) (h.loadPlugin _ _)

/-- What two runs agree on that both keep an invariant is kept by a single run. -/
theorem keeps_of_agrees (h : Invariant r w I) {α : Type} {a : Action α} {R : α → α → Prop}
    (ha : Agrees (fun s t => Session.Alike w s t ∧ I s ∧ I t) True a a R) : Keeps I a := by
  intro s hs
  obtain ⟨⟨-, hs', -⟩, -⟩ := ha s s ⟨⟨h.world hs, s.journal, rfl⟩, hs, hs⟩
  refine ⟨hs', ?_⟩
  split <;> trivial

theorem elementsTo (h : Invariant r w I) (steps : Nat) (config : Value) (ctx : Context) :
    Keeps I (elementsTo r (Resolution.loadExtended r) steps config ctx) :=
  h.keeps_of_agrees (elementsTo_agrees h.interchangeable (loadExtended_agrees h.interchangeable) steps config (.refl ctx))

theorem resolve (h : Invariant r w I) (config : Value) (name : String) (file : Option Path) :
    Keeps I (r.resolve config name file) := by
  unfold Resolver.resolve Resolver.resolveWith
  refine Keeps.bind .world fun w' => ?_
  cases file with
  | none => exact Keeps.bind (.pure trivial) fun _ => h.elementsTo _ _ _
  | some p =>
    refine Keeps.bind ?_ fun _ => h.elementsTo _ _ _
    exact Keeps.bind (.ofFault _) fun _ => .pure trivial

theorem resolveFile (h : Invariant r w I) (file : Path) : Keeps I (r.resolveFile file) := by
  unfold Resolver.resolveFile
  exact Keeps.bind (.debug h.recorded _ _) fun _ => Keeps.bind (fileConfig_keeps _) fun _ => h.resolve _ _ _

/-- What holds at the start holds of every session that a resolver leads to. -/
theorem reached (h : Invariant r w I) (hstart : I (Session.start w)) {s : Session} (hs : r.Reached w s) : I s := by
  induction hs with
  | start => exact hstart
  | resolve config name file _ ih => exact (h.resolve config name file _ ih).1
  | resolveFile file _ ih => exact (h.resolveFile file _ ih).1

end Invariant

end Resolution

/-! ## Loading modules -/

namespace Module

/-- An invariant that is not about modules and journals. -/
def Regardless (I : Session → Prop) : Prop :=
  ∀ s registry imported runs journal, I s → I { s with registry, imported, runs, journal }

variable (hI : Regardless I)
include hI

theorem noteRun_keeps (path : Path) : Keeps I (noteRun path) :=
  Yields.modify fun s hs => hI s s.registry s.imported _ s.journal hs

theorem fromFile_keeps (name : String) (path : Path) : Keeps I (fromFile name path) := by
  unfold fromFile
  refine Keeps.bind .world fun w => ?_
  refine Keeps.bind (.ofFault _) fun key => ?_
  refine Yields.get.bind fun s _ => ?_
  split
  · exact .pure trivial
  dsimp only
  split
  · exact .throw trivial
  refine (noteRun_keeps hI path).bind fun _ => ?_
  split
  · exact .throw trivial
  · exact Keeps.bind (Yields.modify fun t ht => hI t _ t.imported t.runs t.journal ht) fun _ => .pure trivial

theorem importIn_keeps (name last : String) (directories : List Path) : Keeps I (importIn name last directories) := by
  have remember : ∀ m : Imported, Keeps I (do
      modifyThe Session fun s => { s with imported := (name, m) :: s.imported }
      return Import.found m) :=
    fun m => Keeps.bind (Yields.modify fun s hs => hI s s.registry _ s.runs s.journal hs) fun _ => .pure trivial
  unfold importIn
  refine Keeps.bind .world fun w => ?_
  dsimp only
  split
  · exact .pure trivial
  · exact remember _
  · refine (noteRun_keeps hI _).bind fun _ => ?_
    split
    · exact .pure trivial
    · exact remember _

theorem importBelow_keeps (name last : String) (parent : Import) : Keeps I (importBelow name last parent) := by
  cases parent with
  | found parent =>
    refine Yields.get.bind fun s _ => ?_
    split
    · exact .pure trivial
    · exact importIn_keeps hI _ _ _
    · exact .pure trivial
  | absent => exact .pure trivial
  | failed kind message missing => exact .pure trivial

theorem importParts_keeps (parts : List String) : Keeps I (importParts parts) := by
  induction parts with
  | nil => exact .pure trivial
  | cons last parents ih =>
    unfold importParts
    refine Yields.get.bind fun s _ => ?_
    split
    · exact .pure trivial
    split
    · exact Keeps.bind .world fun _ => importIn_keeps hI _ _ _
    · exact ih.bind fun parent => importBelow_keeps hI _ _ parent

theorem import?_keeps (name : String) : Keeps I (import? name) := by
  unfold import?
  split
  · exact .throw trivial
  split
  · exact .throw trivial
  refine (importParts_keeps hI _).bind fun found => ?_
  cases found with
  | found m => exact .pure trivial
  | absent => exact .pure trivial
  | failed kind message missing =>
    dsimp only
    split
    · exact .pure trivial
    · exact .throw trivial

/-- Loading the module of a file that there is. -/
theorem found_keeps (source : Source) (message name : String) (path : Path) : Keeps I (do
    Action.debug source message
    return some (⟨← fromFile name path, some path⟩ : Module)) :=
  Keeps.bind (.debug (fun hs journal => hI _ _ _ _ journal hs) _ _) fun _ =>
    (fromFile_keeps hI name path).bind fun _ => .pure trivial

theorem load?_keeps (name : String) (directory : Option Path) : Keeps I (load? name directory) := by
  unfold load?
  refine Keeps.bind .world fun w => ?_
  split
  · exact found_keeps hI _ _ name _
  · exact import?_keeps hI name

theorem loadPath?_keeps (path : Path) : Keeps I (loadPath? path) := by
  unfold loadPath?
  refine Keeps.bind .world fun w => ?_
  dsimp only
  generalize (if w.isDirectory path = true then path.child packageFile else path) = file
  split
  · exact found_keeps hI _ _ _ _
  · exact .pure trivial

end Module

/-! ## Where modules come from -/

/-- A module that is asked for by a name comes from the first of its files that exists below
a directory, or is imported if none does. -/
inductive Module.Confined (w : World) (name : String) (directory : Path) (file : Option Path) : Prop
  | below {p : Path} : findFile w name directory = some p → p.IsBelow directory → file = some p →
      Confined w name directory file
  | imported {s t : Session} {m : Module} : findFile w name directory = none → s.world = w →
      (import? name).runFrom s = (.ok (some m), t) → file = m.file → Confined w name directory file

/-- A session whose plugins come from the directory of plugins as their names say. -/
structure Session.Confined (r : Resolver) (w : World) (s : Session) : Prop where
  world : s.world = w
  plugins : ∀ e ∈ s.plugins, Module.Confined w (Package.moduleName e.1) r.pluginBase e.2.2

theorem Session.confined_start (r : Resolver) (w : World) : (Session.start w).Confined r w where
  world := rfl
  plugins := by simp [Session.start]

theorem regardless_confined : Module.Regardless (Session.Confined r w) :=
  fun _ _ _ _ _ hs => ⟨hs.world, hs.plugins⟩

theorem confined_world : Yields (Session.Confined r w) (fun _ => True) Action.world (w = ·) :=
  fun _ hs => ⟨hs, hs.world.symm⟩

theorem confined_debug (source : Source) (message : String) :
    Keeps (Session.Confined r w) (Action.debug source message) :=
  .debug (fun hs journal => regardless_confined _ _ _ _ journal hs) source message

/-- What a module comes from that is asked for by a name without slashes. -/
theorem Module.load?_confined {name : String} (h : '/' ∉ name.toList) (directory : Path) :
    Yields (Session.Confined r w) (fun _ => True) (load? name (some directory))
      fun loaded => ∀ m ∈ loaded, Confined w name directory m.file := by
  unfold load?
  refine confined_world.bind fun _ hworld => ?_
  subst hworld
  rw [Option.bind_some]
  split
  · rename_i p hp
    have hconfined : Confined w name directory (some p) := .below hp (isBelow_of_findFile h hp) rfl
    refine (confined_debug _ _).bind fun _ => ?_
    exact (fromFile_keeps regardless_confined name p).bind fun _ => .pure (by simpa using hconfined)
  · rename_i hnone
    refine (import?_keeps regardless_confined name).ran.mono ?_
    rintro loaded ⟨-, s, t, hs, hrun⟩ m hm
    obtain rfl : loaded = some m := hm
    exact .imported hnone hs.world hrun rfl

namespace Resolution

/-- A parser that is not a path. -/
theorem loadParser_confined {name : String} (h : isPathReference name = false) (ctx : Context) :
    Yields (Session.Confined r w) (fun _ => True) (loadParser (.str name) ctx)
      fun d => Module.Confined w (Package.moduleName name) ctx.directory d.file := by
  unfold loadParser
  simp only [h, Bool.false_eq_true, if_false]
  refine (Module.load?_confined (Package.not_mem_moduleName name) ctx.directory).bind fun loaded hloaded => ?_
  cases loaded with
  | none => exact .throw trivial
  | some m =>
    refine (confined_debug _ _).bind fun _ => ?_
    exact .pure (hloaded m rfl)

/-- A plugin, whether it is loaded or has been. -/
theorem loadPlugin_confined (r : Resolver) (name : String) (ctx : Context) :
    Yields (Session.Confined r w) (fun _ => True) (loadPlugin r name ctx) fun d =>
      ∃ package, Package.normalize Package.pluginKind name = .ok package ∧
        Module.Confined w (Package.moduleName package) r.pluginBase d.file := by
  unfold loadPlugin
  split
  · exact .throw trivial
  refine (Yields.ofFault (Q := fun package => Package.normalize Package.pluginKind name = .ok package)
    (fun _ h => h) fun _ _ => trivial).bind fun package hpackage => ?_
  refine Yields.get.bind fun s hs => ?_
  split
  · rename_i definition file hl
    have hfile := hs.plugins (package, definition, file) (mem_of_lookup hl)
    exact .pure ⟨package, hpackage, hfile⟩
  refine (Module.load?_confined (Package.not_mem_moduleName package) r.pluginBase).bind fun loaded hloaded => ?_
  cases loaded with
  | none => exact .throw trivial
  | some m =>
    have hfile := hloaded m rfl
    refine (confined_debug _ _).bind fun _ => ?_
    refine Yields.get.bind fun _ _ => ?_
    refine (Yields.modify fun t ht => ?_).bind fun _ _ => .pure ⟨package, hpackage, hfile⟩
    exact ⟨ht.world, List.forall_mem_cons.mpr ⟨hfile, ht.plugins⟩⟩

/-- An extended configuration stands in the file that it is said to. -/
theorem extended_file (config : Value) (reference identity : String) (ctx : Context) (file directory : Option Path) :
    Yields I (fun _ => True)
      (do return (config, ← extend reference identity ctx file directory) : Action Extended) fun e => e.2.file = file := by
  refine Yields.bind (Q := fun c => c.file = file) ?_ fun c hc => .pure hc
  unfold extend
  split
  · exact .throw trivial
  · exact .pure rfl

/-- The module of a configuration that has no file of its own. -/
theorem packageConfig_confined (reference : String) (ctx : Context) :
    Yields (Session.Confined r w) (fun _ => True) (packageConfig reference ctx) fun extended =>
      ∃ package, Package.normalize Package.configKind reference = .ok package ∧
        (packageFile? w package ctx.directory = none →
          Module.Confined w (Package.moduleName package) ctx.directory extended.2.file) := by
  unfold packageConfig
  refine confined_world.bind fun _ hworld => ?_
  subst hworld
  refine (Yields.ofFault (Q := fun package => Package.normalize Package.configKind reference = .ok package)
    (fun _ h => h) fun _ _ => trivial).bind fun package hpackage => ?_
  split
  · rename_i hfile
    refine Keeps.bind (.ofFault _) fun _ => (confined_debug _ _).bind fun _ => Keeps.bind (fileConfig_keeps _) fun config => ?_
    refine (extended_file _ _ _ _ _ _).mono fun _ _ => ⟨package, hpackage, fun hnone => ?_⟩
    rw [hnone] at hfile
    cases hfile
  · refine (Module.load?_confined (Package.not_mem_moduleName package) ctx.directory).bind fun loaded hloaded => ?_
    cases loaded with
    | none => exact .throw trivial
    | some m =>
      refine Keeps.bind (moduleConfig_keeps m reference) fun config => ?_
      refine (extended_file _ _ _ _ _ _).mono fun e he => ⟨package, hpackage, fun _ => ?_⟩
      rw [he]
      exact hloaded m rfl

theorem invariant_confined : Invariant r w (Session.Confined r w) where
  world hs := hs.world
  recorded hs _ := ⟨hs.world, hs.plugins⟩
  load? name directory := Module.load?_keeps regardless_confined name directory
  loadPath? path := Module.loadPath?_keeps regardless_confined path
  loadPlugin name ctx := (loadPlugin_confined r name ctx).mono fun _ _ => trivial

/-- Names do not lead out of the directories in which they are looked for. -/
structure NamesConfined (r : Resolver) (w : World) : Prop where
  /-- The file of a module is the first that exists of some files below the directory, whatever the name is. -/
  files : ∀ (name : String) (directory : Path), Module.findFile w (Package.moduleName name) directory =
      (Module.filesOf (Package.moduleName name) directory).find? w.isFile ∧
    ∀ p ∈ Module.filesOf (Package.moduleName name) directory, p.IsBelow directory
  /-- So it is for the package that a name stands for. -/
  packages : ∀ kind ∈ Package.kinds, ∀ (name package : String), Package.normalize kind name = .ok package →
    ∀ directory : Path, Module.findFile w (Package.moduleName package) directory =
        (Module.filesOf (Package.moduleName package) directory).find? w.isFile ∧
      ∀ p ∈ Module.filesOf (Package.moduleName package) directory, p.IsBelow directory
  reached : ∀ s, r.Reached w s → s.Confined r w
  parser : ∀ (name : String) (ctx : Context), isPathReference name = false →
    Yields (Session.Confined r w) (fun _ => True) (loadParser (.str name) ctx) fun d =>
      Module.Confined w (Package.moduleName name) ctx.directory d.file
  plugin : ∀ (name : String) (ctx : Context),
    Yields (Session.Confined r w) (fun _ => True) (loadPlugin r name ctx) fun d =>
      ∃ package, Package.normalize Package.pluginKind name = .ok package ∧
        Module.Confined w (Package.moduleName package) r.pluginBase d.file
  config : ∀ (reference : String) (ctx : Context),
    Yields (Session.Confined r w) (fun _ => True) (packageConfig reference ctx) fun extended =>
      ∃ package, Package.normalize Package.configKind reference = .ok package ∧
        (packageFile? w package ctx.directory = none →
          Module.Confined w (Package.moduleName package) ctx.directory extended.2.file)

/-- Whatever names are asked for, in whatever session that a resolver leads to, modules come
from below their directory or are imported. -/
theorem names_confined (r : Resolver) (w : World) : NamesConfined r w := by
  have hfiles : ∀ (name : String) (directory : Path), Module.findFile w (Package.moduleName name) directory =
        (Module.filesOf (Package.moduleName name) directory).find? w.isFile ∧
      ∀ p ∈ Module.filesOf (Package.moduleName name) directory, p.IsBelow directory :=
    fun name directory => ⟨Module.findFile_eq w _ directory,
      fun p hp => Module.isBelow_of_mem_filesOf (Package.not_mem_moduleName name) hp⟩
  exact {
    files := hfiles
    packages := fun kind _ name package _ directory => hfiles package directory
    reached := fun s hs => invariant_confined.reached (Session.confined_start r w) hs
    parser := fun name ctx hname => loadParser_confined hname ctx
    plugin := loadPlugin_confined r
    config := packageConfig_confined }

/-! A plugin whose name has steps up in it, with one separator and the other. -/

def outwardWorld : World where
  here := ["work"]
  entries := [(["work", "__", "eslint_plugin___", "p.py"], .script (.defines []))]

def outwardContext : Context := ⟨"<input>", ⟨"/", ["work"]⟩, none, none, [], false⟩

theorem names_confined_outwardWorld :
    ((loadPlugin workResolver "@..\\../p" outwardContext).runFrom (Session.start outwardWorld)).1.toOption.map
        Dependency.file = some (some ⟨"/", ["work", "__", "eslint_plugin___", "p.py"]⟩) ∧
      (⟨"/", ["work", "__", "eslint_plugin___", "p.py"]⟩ : Path).IsBelow workResolver.pluginBase := by
  have hloaded : ((loadPlugin workResolver "@..\\../p" outwardContext).runFrom (Session.start outwardWorld)).1.toOption.map
      Dependency.file = some (some ⟨"/", ["work", "__", "eslint_plugin___", "p.py"]⟩) := by decide +kernel
  obtain ⟨d, t, hrun, hfile⟩ := Action.exists_run _ hloaded
  have hconfined := names_confined workResolver outwardWorld
  have hd := (hconfined.plugin "@..\\../p" outwardContext _ (hconfined.reached _ .start)).2
  rw [hrun] at hd
  obtain ⟨package, hpackage, hd⟩ := hd
  obtain rfl : "@../eslint-plugin-../p" = package := Except.ok.inj ((by decide : _ = _).symm.trans hpackage)
  refine ⟨hloaded, ?_⟩
  cases hd with
  | below _ hbelow heq =>
    cases heq.symm.trans hfile
    exact hbelow
  | imported hnone _ _ _ => exact absurd hnone (by decide +kernel)

end Resolution

end Cascade
