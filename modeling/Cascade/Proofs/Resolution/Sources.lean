import Cascade.Proofs.Action
import Cascade.Proofs.Contents
import Cascade.Proofs.World
import Cascade.Resolution

/-! # Where values come from

Every module that is loaded is one of the world, and a plugin is defined by such
a module. A session keeps no others, whatever was loaded in it before. Loading
fails in regular ways only. -/
namespace Cascade

/-- A failure that is endless only as reading some file is, and reports only cycles
of a certain kind. -/
structure Failure.Regular (w : World) (C : List String → Prop) (e : Failure) : Prop where
  ended : e = .fault .endless → ∃ p, ConfigFile.load w p = .error e
  cycle : ∀ chain, e = .problem (.extendsCycle chain) → C chain

namespace World

/-- The members of a module that there is, with or without a file. -/
def Defines (w : World) (members : List (String × Value)) : Prop :=
  members = [] ∨ (∃ names, (names, .script (.defines members)) ∈ w.entries) ∨
    ∃ name, (name, members) ∈ w.available

def HasModule (w : World) (v : Value) : Prop :=
  ∃ name members, v = .object (.moduleNamed name) members ∧ w.Defines members

variable {w : World}

theorem defines_of_execution {path : Path} {members : List (String × Value)}
    (h : Module.execution w path = .defines members) : w.Defines members := by
  unfold Module.execution at h
  split at h
  · rename_i run hf
    subst h
    rcases find?_cases hf with hm | hd
    · exact .inr (.inl hm)
    · cases hd
  · cases h
    exact .inl rfl

end World

/-- A session of a world that has imported nothing but modules of the world. -/
structure Session.Imports (w : World) (s : Session) : Prop where
  world : s.world = w
  imported : ∀ e ∈ s.imported, w.HasModule e.2.value

/-- A session of a world that has loaded nothing but what there is. -/
structure Session.Sourced (w : World) (s : Session) : Prop extends Session.Imports w s where
  registry : ∀ e ∈ s.registry, w.HasModule e.2
  plugins : ∀ e ∈ s.plugins, ∃ v t, w.HasModule v ∧ Session.Imports w t ∧
    e.2.1 = Resolution.pluginDefinition t v

theorem Session.sourced_start (w : World) : (Session.start w).Sourced w where
  world := rfl
  registry := by simp [Session.start]
  imported := by
    intro e he
    obtain ⟨m, hm, rfl⟩ := List.mem_map.mp he
    exact ⟨m.1, m.2, rfl, .inr (.inr ⟨m.1, hm⟩)⟩
  plugins := by simp [Session.start]

theorem Session.Imports.submodule? {w : World} {s : Session} (hs : s.Imports w) {module name : String}
    {v : Value} (h : s.submodule? module name = some v) : w.HasModule v := by
  unfold Session.submodule? at h
  dsimp only at h
  split at h
  · cases h
  · obtain ⟨m, hm, rfl⟩ := Option.map_eq_some_iff.mp h
    exact hs.imported _ (mem_of_lookup hm)

/-- What an action in a world gives, if it does not fail in an irregular way. -/
abbrev Gives (w : World) (C : List String → Prop) {α : Type} (a : Action α) (Q : α → Prop) : Prop :=
  Yields (Session.Sourced w) (Failure.Regular w C) a Q

namespace Gives

variable {w : World} {C : List String → Prop}

theorem world : Gives w C Action.world (w = ·) := fun _ hs => ⟨hs, hs.world.symm⟩

theorem shared : Gives w C Action.shared (w.shared = ·) :=
  fun _ hs => ⟨hs, congrArg World.shared hs.world.symm⟩

theorem debug (source : Source) (message : String) :
    Gives w C (Action.debug source message) fun _ => True :=
  fun _ hs => ⟨⟨⟨hs.world, hs.imported⟩, hs.registry, hs.plugins⟩, trivial⟩

end Gives

/-! ## Modules -/

namespace Module

variable {w : World} {C : List String → Prop}

theorem noteRun_gives (path : Path) : Gives w C (noteRun path) fun _ => True :=
  Yields.modify fun _ hs => ⟨⟨hs.world, hs.imported⟩, hs.registry, hs.plugins⟩

theorem fromFile_gives (name : String) (path : Path) : Gives w C (fromFile name path) w.HasModule := by
  unfold fromFile
  refine Gives.world.bind fun w' hw => ?_
  subst hw
  refine (Yields.ofFault (Q := fun _ => True) (fun _ _ => trivial) fun e he => ?_).bind fun key _ => ?_
  · unfold Module.key at he
    cases hr : w.resolve path with
    | ok q => rw [hr] at he; cases he
    | error e' =>
      rw [hr] at he
      cases he
      cases Path.resolve_error hr
      exact ⟨by simp, by simp⟩
  refine Yields.get.bind fun s hs => ?_
  cases hl : s.registry.lookup key with
  | some value => exact .pure (hs.registry _ (mem_of_lookup hl))
  | none =>
    dsimp only
    split
    · exact .throw ⟨by simp, by simp⟩
    refine (noteRun_gives path).bind fun _ _ => ?_
    split
    · exact .throw ⟨by simp, by simp⟩
    · rename_i members hx
      have hm : w.HasModule (.object (.moduleNamed key) members) :=
        ⟨key, members, rfl, World.defines_of_execution hx⟩
      refine (Yields.modify fun t ht => ?_).bind fun _ _ => .pure hm
      refine ⟨⟨ht.world, ht.imported⟩, fun e he => ?_, ht.plugins⟩
      rcases List.mem_cons.mp he with rfl | he
      · exact hm
      · exact ht.registry e he

/-- The module that an import finds is one of the world. -/
def Import.Sourced (w : World) : Import → Prop
  | .found m => w.HasModule m.value
  | _ => True

theorem importIn_gives (name last : String) (directories : List Path) :
    Gives w C (importIn name last directories) (Import.Sourced w) := by
  unfold importIn
  refine Gives.world.bind fun w' hw => ?_
  subst hw
  have remember : ∀ m : Imported, w.HasModule m.value → Gives w C (do
      modifyThe Session fun s => { s with imported := (name, m) :: s.imported }
      return Import.found m) (Import.Sourced w) := by
    intro m hm
    refine (Yields.modify fun s hs => ?_).bind fun _ _ => .pure hm
    refine ⟨⟨hs.world, fun e he => ?_⟩, hs.registry, hs.plugins⟩
    rcases List.mem_cons.mp he with rfl | he
    · exact hm
    · exact hs.imported e he
  dsimp only
  split
  · exact .pure trivial
  · exact remember _ ⟨name, [], rfl, .inl rfl⟩
  · refine (noteRun_gives _).bind fun _ _ => ?_
    split
    · exact .pure trivial
    · rename_i hx
      exact remember _ ⟨name, _, rfl, World.defines_of_execution hx⟩

theorem importParts_gives (parts : List String) : Gives w C (importParts parts) (Import.Sourced w) := by
  induction parts with
  | nil => exact .pure trivial
  | cons last parents ih =>
    unfold importParts
    refine Yields.get.bind fun s hs => ?_
    split
    · rename_i m hl
      exact .pure (hs.imported _ (mem_of_lookup hl))
    · split
      · exact Gives.world.bind fun _ _ => importIn_gives _ _ _
      · refine ih.bind fun found hf => ?_
        cases found with
        | found parent =>
          refine Yields.get.bind fun s hs => ?_
          split
          · rename_i m _ hl
            exact .pure (hs.imported _ (mem_of_lookup hl))
          · exact importIn_gives _ _ _
          · exact .pure trivial
        | absent => exact .pure trivial
        | failed kind message missing => exact .pure trivial

theorem import?_gives (name : String) :
    Gives w C (import? name) fun loaded => ∀ m ∈ loaded, w.HasModule m.value := by
  unfold import?
  split
  · exact .throw ⟨by simp, by simp⟩
  split
  · exact .throw ⟨by simp, by simp⟩
  refine (importParts_gives _).bind fun found hf => ?_
  cases found with
  | found m => exact .pure fun _ hm => Option.some.inj hm ▸ hf
  | absent => exact .pure (by simp)
  | failed kind message missing =>
    dsimp only
    split
    · exact .pure (by simp)
    · exact .throw ⟨by simp, by simp⟩

theorem load?_gives (name : String) (directory : Option Path) :
    Gives w C (load? name directory) fun loaded => ∀ m ∈ loaded, w.HasModule m.value := by
  unfold load?
  refine Gives.world.bind fun _ _ => ?_
  split
  · refine (Gives.debug _ _).bind fun _ _ => ?_
    exact (fromFile_gives _ _).bind fun _ hv => .pure (by simpa using hv)
  · exact import?_gives _

/-- A module that is loaded from a path is in the file or package at that path. -/
theorem loadPath?_gives (path : Path) :
    Gives w C (loadPath? path) fun loaded => ∀ m ∈ loaded, w.HasModule m.value ∧
      (w.isFile path = true ∨ w.isFile (path.child packageFile) = true) := by
  unfold loadPath?
  refine Gives.world.bind fun w' hw => ?_
  subst hw
  dsimp only
  generalize hp : (if w.isDirectory path = true then path.child packageFile else path) = p
  split
  · rename_i hf
    have : w.isFile path = true ∨ w.isFile (path.child packageFile) = true := by
      subst hp
      split at hf
      · exact .inr hf
      · exact .inl hf
    refine (Gives.debug _ _).bind fun _ _ => ?_
    exact (fromFile_gives _ _).bind fun _ hv => .pure (by simpa using ⟨hv, this⟩)
  · exact .pure (by simp)

end Module

theorem Package.normalize_error {kind name : String} {e : Fault}
    (h : Package.normalize kind name = .error e) : e = .noItem := by
  simp only [Package.normalize] at h
  split at h
  · split at h
    · cases h
    · split at h
      · cases h
        rfl
      · cases h
  · split at h <;> cases h

/-! ## Plugins and parsers -/

namespace Resolution

variable {w : World} {C : List String → Prop}

theorem missing_gives {α : Type} {Q : α → Prop} (target : Target) (name : String) (ctx : Context)
    (searched : Path) : Gives w C (missing target name ctx searched : Action α) Q :=
  .throw ⟨by simp, by simp⟩

/-- A plugin has the members of its source and nothing else. -/
theorem forall_mem_pluginDefinition {P : Value → Prop} {s : Session} {module : Value}
    (hempty : P (.mapping []))
    (hentries : ∀ m, s.world.shared.view (pluginSource s module) = .mapping m → ∀ e ∈ m, P e.2)
    (hmembers : ∀ name ∈ pluginMembers, ∀ v,
      attribute? s (pluginSource s module) name = some v → P v) :
    ∀ e ∈ pluginDefinition s module, P e.2 := by
  refine Entries.forall_mem_merge (by simpa using hempty) ?_
  split
  · rename_i m hm
    exact hentries m hm
  · intro e he
    obtain ⟨name, hname, hn⟩ := List.mem_filterMap.mp he
    obtain ⟨v, hv, rfl⟩ := Option.map_eq_some_iff.mp hn
    exact hmembers name hname v hv

/-- A plugin is defined by a module of the world and has the shortest name of its package. -/
def IsPlugin (w : World) (name : String) (d : Dependency) : Prop :=
  (∃ package, Package.normalize Package.pluginKind name = .ok package ∧
    d.id = Package.shorthand Package.pluginKind package) ∧
  ∃ v t, w.HasModule v ∧ Session.Imports w t ∧ d.definition = .mapping (pluginDefinition t v)

theorem loadPlugin_gives (r : Resolver) (name : String) (ctx : Context) :
    Gives w C (loadPlugin r name ctx) (IsPlugin w name) := by
  unfold loadPlugin
  split
  · exact .throw ⟨by simp, by simp⟩
  refine (Yields.ofFault (Q := fun package => Package.normalize Package.pluginKind name = .ok package)
    (fun _ h => h) fun e he => ?_).bind fun package hp => ?_
  · cases Package.normalize_error he
    exact ⟨by simp, by simp⟩
  refine Yields.get.bind fun s hs => ?_
  dsimp only
  split
  · rename_i definition file hl
    obtain ⟨v, t, hv, ht, hd⟩ := hs.plugins _ (mem_of_lookup hl)
    exact .pure ⟨⟨package, hp, rfl⟩, v, t, hv, ht, congrArg Value.mapping hd⟩
  · refine (Module.load?_gives _ _).bind fun loaded hm => ?_
    cases loaded with
    | none => exact missing_gives _ _ _ _
    | some m =>
      have hv := hm m rfl
      refine (Gives.debug _ _).bind fun _ _ => ?_
      refine Yields.get.bind fun u hu => ?_
      refine (Yields.modify fun t ht => ?_).bind fun _ _ =>
        .pure ⟨⟨package, hp, rfl⟩, m.value, u, hv, hu.toImports, rfl⟩
      refine ⟨⟨ht.world, ht.imported⟩, ht.registry, fun e he => ?_⟩
      rcases List.mem_cons.mp he with rfl | he
      · exact ⟨m.value, u, hv, hu.toImports, rfl⟩
      · exact ht.plugins e he

theorem loadPlugins_gives (r : Resolver) (names : Value) (ctx : Context) :
    Gives w C (loadPlugins r names ctx) fun _ => True := by
  unfold loadPlugins
  refine Gives.shared.bind fun _ _ => ?_
  split
  · split
    · refine Yields.foldlM (fun name _ plugins _ => ?_) trivial
      exact (loadPlugin_gives r name ctx).bind fun _ _ => .pure trivial
    · exact .throw ⟨by simp, by simp⟩
  · exact .throw ⟨by simp, by simp⟩

theorem resolve_gives (p : Path) :
    Gives w C (Action.ofFault (w.resolve p)) fun q => w.resolve p = .ok q ∧ q.IsResolved := by
  refine Yields.ofFault (fun _ h => ⟨h, Path.isResolved_of_resolve h⟩) fun e he => ?_
  cases Path.resolve_error he
  exact ⟨by simp, by simp⟩

theorem loadParser_gives (parser : Value) (ctx : Context) :
    Gives w C (loadParser parser ctx) fun _ => True := by
  unfold loadParser
  split
  · dsimp only
    split
    · refine Gives.world.bind fun _ hw => ?_
      subst hw
      refine (resolve_gives _).bind fun path _ => ?_
      refine (Module.loadPath?_gives path).bind fun loaded _ => ?_
      cases loaded with
      | none => exact missing_gives _ _ _ _
      | some m => exact (Gives.debug _ _).bind fun _ _ => .pure trivial
    · refine (Module.load?_gives _ _).bind fun loaded _ => ?_
      cases loaded with
      | none => exact missing_gives _ _ _ _
      | some m => exact (Gives.debug _ _).bind fun _ _ => .pure trivial
  · exact .throw ⟨by simp, by simp⟩

end Resolution

end Cascade
